import ObjcMetadata.Declaration.Member
/-!
Declarations.

A declaration is a name and, by its kind, a body. Declarations refer to each other by name: an
interface to its base, its protocols and the categories it adopts, a protocol to protocols, a
category to the interface that it extends. What a name stands for is decided by a lookup
(`ObjcMetadata.Declaration.Lookup`).
-/

namespace ObjcMetadata

/-- A class, which may have a base class. -/
structure Interface where
  base : Option QualifiedName := none
  protocols : List QualifiedName := []
  /-- The categories that the interface adopts, in order. -/
  categories : List QualifiedName := []
  members : Members := {}
deriving DecidableEq, Repr, Inhabited

/-- A set of requirements, which may include those of other protocols. -/
structure Protocol where
  protocols : List QualifiedName := []
  members : Members := {}
deriving DecidableEq, Repr, Inhabited

/-- Members added to an interface from outside of it. -/
structure Category where
  extended : QualifiedName
  protocols : List QualifiedName := []
  members : Members := {}
deriving DecidableEq, Repr, Inhabited

/-- The attributes of a function. -/
structure FunctionFlags where
  variadic : Bool := false
  returnsRetained : Bool := false
deriving DecidableEq, Repr, Inhabited

/-- What a declaration declares. A function's signature is its return type followed by its
parameters; it may be empty. -/
inductive DeclBody where
  | interface (interface : Interface)
  | protocol (protocol : Protocol)
  | category (category : Category)
  | struct (fields : List RecordField)
  | union (fields : List RecordField)
  | function (signature : List TypeId) (flags : FunctionFlags)
  | var (type : TypeId)
deriving DecidableEq, Repr, Inhabited

/-- A named declaration. -/
structure Declaration where
  name : QualifiedName
  body : DeclBody
deriving DecidableEq, Repr, Inhabited

namespace Declaration

/-! ### Identity -/

/-- The kind of a declaration. -/
def kind (d : Declaration) : DeclKind :=
  match d.body with
  | .interface _ => .interface
  | .protocol _ => .protocol
  | .category _ => .category
  | .struct _ => .struct
  | .union _ => .union
  | .function _ _ => .function
  | .var _ => .var

/-- The identity of a declaration. -/
def key (d : Declaration) : DeclKey :=
  ⟨d.kind, d.name⟩

/-! ### Parts -/

/-- The interface that is declared, if it is one. -/
def interface? (d : Declaration) : Option Interface :=
  match d.body with
  | .interface i => some i
  | _ => none

/-- The category that is declared, if it is one. -/
def category? (d : Declaration) : Option Category :=
  match d.body with
  | .category c => some c
  | _ => none

/-- The members of an interface, protocol or category. -/
def members? (d : Declaration) : Option Members :=
  match d.body with
  | .interface i => some i.members
  | .protocol p => some p.members
  | .category c => some c.members
  | _ => none

/-- Gives an interface, protocol or category other members. -/
def withMembers (d : Declaration) (members : Members) : Declaration :=
  match d.body with
  | .interface i => { d with body := .interface { i with members } }
  | .protocol p => { d with body := .protocol { p with members } }
  | .category c => { d with body := .category { c with members } }
  | _ => d

/-- The protocols that an interface, protocol or category adopts. -/
def protocols (d : Declaration) : List QualifiedName :=
  match d.body with
  | .interface i => i.protocols
  | .protocol p => p.protocols
  | .category c => c.protocols
  | _ => []

/-- The base of an interface. -/
def base? (d : Declaration) : Option QualifiedName :=
  d.interface?.bind (·.base)

theorem kind_of_base? {d : Declaration} {base : QualifiedName} (h : d.base? = some base) :
    d.kind = .interface := by
  obtain ⟨name, body⟩ := d
  cases body <;> first | rfl | cases h

theorem base?_of_kind {d : Declaration} (h : d.kind ≠ .interface) : d.base? = none :=
  Option.eq_none_iff_forall_ne_some.mpr fun _ hbase => h (kind_of_base? hbase)

/-- The declarations that a declaration inherits from directly: its base, then its protocols. -/
def parents (d : Declaration) : List DeclKey :=
  d.base?.toList.map (⟨.interface, ·⟩) ++ d.protocols.map (⟨.protocol, ·⟩)

/-- The types that a declaration names itself, without following any reference. -/
def ownTypes (d : Declaration) : List TypeId :=
  match d.body with
  | .interface i => i.members.types
  | .protocol p => p.members.types
  | .category c => c.members.types
  | .struct fields | .union fields => fields.map (·.type)
  | .function signature _ => signature
  | .var type => [type]

/-! ### Other members -/

variable {d : Declaration} {members : Members}

@[simp] theorem key_withMembers (d : Declaration) (members : Members) :
    (d.withMembers members).key = d.key := by
  obtain ⟨name, body⟩ := d
  cases body <;> rfl

@[simp] theorem base?_withMembers (d : Declaration) (members : Members) :
    (d.withMembers members).base? = d.base? := by
  obtain ⟨name, body⟩ := d
  cases body <;> rfl

@[simp] theorem category?_withMembers (d : Declaration) (members : Members) :
    (d.withMembers members).category? = d.category?.map fun c => { c with members } := by
  obtain ⟨name, body⟩ := d
  cases body <;> rfl

@[simp] theorem members?_withMembers (d : Declaration) (members : Members) :
    (d.withMembers members).members? = d.members?.map fun _ => members := by
  obtain ⟨name, body⟩ := d
  cases body <;> rfl

theorem withMembers_of_members? (h : d.members? = some members) : d.withMembers members = d := by
  obtain ⟨name, body⟩ := d
  cases body with
  | interface i => cases h; rfl
  | protocol p => cases h; rfl
  | category c => cases h; rfl
  | _ => cases h

theorem withMembers_of_none (h : d.members? = none) : d.withMembers members = d := by
  obtain ⟨name, body⟩ := d
  cases body <;> simp_all [members?, withMembers]

theorem ownTypes_of_members? (h : d.members? = some members) : d.ownTypes = members.types := by
  obtain ⟨name, body⟩ := d
  cases body <;> simp_all [members?, ownTypes]

end Declaration

/-! ### Interfaces in a list of declarations -/

/-- Changes an interface. Declarations of other kinds stay as they are. -/
def Declaration.mapInterface (change : Interface → Interface) (d : Declaration) : Declaration :=
  match d.body with
  | .interface i => { d with body := .interface (change i) }
  | _ => d

/-- Changes the first interface of a name, if there is one. -/
def modifyInterface (name : QualifiedName) (change : Interface → Interface)
    (declarations : List Declaration) : List Declaration :=
  modifyFirst (fun d => d.key == ⟨.interface, name⟩) (·.mapInterface change) declarations

@[simp] theorem Declaration.key_mapInterface (change : Interface → Interface) (d : Declaration) :
    (d.mapInterface change).key = d.key := by
  obtain ⟨name, body⟩ := d
  cases body <;> rfl

@[simp] theorem Declaration.name_mapInterface (change : Interface → Interface) (d : Declaration) :
    (d.mapInterface change).name = d.name :=
  congrArg DeclKey.name (d.key_mapInterface change)

@[simp] theorem Declaration.mapInterface_mapInterface (change change' : Interface → Interface)
    (d : Declaration) :
    (d.mapInterface change).mapInterface change' = d.mapInterface fun i => change' (change i) := by
  obtain ⟨name, body⟩ := d
  cases body <;> rfl

theorem Declaration.mapInterface_of_kind {d : Declaration} (change : Interface → Interface)
    (h : d.kind ≠ .interface) : d.mapInterface change = d := by
  obtain ⟨name, body⟩ := d
  cases body with
  | interface i => exact absurd rfl h
  | _ => rfl

/-- Changing a declaration as an interface changes it only if it is one. -/
theorem Declaration.mapInterface_eq_or (change : Interface → Interface) (d : Declaration) :
    d.mapInterface change = d ∨ ∃ i, d.body = .interface i ∧
      d.mapInterface change = { d with body := .interface (change i) } := by
  obtain ⟨name, body⟩ := d
  cases body with
  | interface i => exact .inr ⟨i, rfl, rfl⟩
  | _ => exact .inl rfl

theorem exists_of_mem_modifyInterface {name : QualifiedName} {change : Interface → Interface}
    {ds : List Declaration} {d' : Declaration} (h : d' ∈ modifyInterface name change ds) :
    ∃ d ∈ ds, d' = d ∨ ∃ i, d.key = ⟨.interface, name⟩ ∧ d.body = .interface i ∧
      d' = { d with body := .interface (change i) } := by
  obtain ⟨d, hd, rfl | ⟨hfits, rfl⟩⟩ := exists_of_mem_modifyFirst h
  · exact ⟨d', hd, .inl rfl⟩
  · refine ⟨d, hd, (d.mapInterface_eq_or change).imp_right ?_⟩
    rintro ⟨i, hbody, hchanged⟩
    exact ⟨i, beq_iff_eq.mp hfits, hbody, hchanged⟩

theorem exists_mem_modifyInterface (name : QualifiedName) (change : Interface → Interface)
    {ds : List Declaration} {d : Declaration} (h : d ∈ ds) :
    ∃ d' ∈ modifyInterface name change ds, d' = d ∨ ∃ i, d.key = ⟨.interface, name⟩ ∧
      d.body = .interface i ∧ d' = { d with body := .interface (change i) } := by
  obtain ⟨d', hd', rfl | ⟨hfits, rfl⟩⟩ := exists_mem_modifyFirst h
  · exact ⟨d', hd', .inl rfl⟩
  · refine ⟨_, hd', (d.mapInterface_eq_or change).imp_right ?_⟩
    rintro ⟨i, hbody, hchanged⟩
    exact ⟨i, beq_iff_eq.mp hfits, hbody, hchanged⟩

end ObjcMetadata
