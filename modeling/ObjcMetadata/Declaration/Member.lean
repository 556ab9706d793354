import ObjcMetadata.Sequence
import ObjcMetadata.Type.Basic
/-!
The members of interfaces, protocols and categories.

Members come in three lists: instance methods, class methods and properties. Two members of one
list are compared by `sameAs`, which looks at what a caller sees of them and not at their flags;
it is weaker than equality and, for properties, also compares only one accessor.
-/

namespace ObjcMetadata

/-! ### Methods -/

/-- The attributes of a method. -/
structure MethodFlags where
  /-- Takes further arguments after its parameters. -/
  variadic : Bool := false
  /-- May be left out by those who adopt the protocol. -/
  optional : Bool := false
  /-- Belongs to the `init` family. -/
  initializer : Bool := false
  /-- Returns a reference that the caller owns. -/
  returnsRetained : Bool := false
deriving DecidableEq, Repr, Inhabited

/-- A method. Its signature is the return type followed by the parameters; it may be empty. -/
structure Method where
  selector : String
  signature : List TypeId
  flags : MethodFlags := {}
deriving DecidableEq, Repr, Inhabited

namespace Method

/-- The return type, unless the signature is empty. -/
def returnType? (m : Method) : Option TypeId :=
  m.signature.head?

/-- The types of the parameters. -/
def params (m : Method) : List TypeId :=
  m.signature.tail

/-- Whether two methods have one selector and one signature. -/
def sameAs (a b : Method) : Bool :=
  a.selector == b.selector && a.signature == b.signature

end Method

/-! ### Properties -/

/-- The attributes of a property. -/
structure PropertyFlags where
  readonly : Bool := false
  /-- Belongs to the class and not to its instances. -/
  ofClass : Bool := false
  /-- May be left out by those who adopt the protocol. -/
  optional : Bool := false
deriving DecidableEq, Repr, Inhabited

/-- A property and the methods that read and write it. -/
structure Property where
  name : String
  type : TypeId
  getter : Option Method := none
  setter : Option Method := none
  flags : PropertyFlags := {}
deriving DecidableEq, Repr, Inhabited

namespace Property

/-- The accessor methods, the getter first. -/
def accessors (p : Property) : List Method :=
  p.getter.toList ++ p.setter.toList

/-- The type of the property and the types in the signatures of its accessors. -/
def types (p : Property) : List TypeId :=
  p.type :: p.accessors.flatMap (·.signature)

/-- Whether two properties have one name and the same kinds of accessors, and the same getter or,
if they have none, the same setter. -/
def sameAs (a b : Property) : Bool :=
  a.name == b.name &&
    match a.getter, b.getter, a.setter, b.setter with
    | some getter, some getter', setter, setter' =>
      setter.isSome == setter'.isSome && getter.sameAs getter'
    | none, none, some setter, some setter' => setter.sameAs setter'
    | none, none, none, none => true
    | _, _, _, _ => false

end Property

/-! ### Lists of members -/

/-- The members of one declaration. -/
structure Members where
  instanceMethods : List Method := []
  classMethods : List Method := []
  properties : List Property := []
deriving DecidableEq, Repr, Inhabited

namespace Members

/-- No members at all. -/
def empty : Members :=
  {}

/-- The number of members. -/
def size (m : Members) : Nat :=
  m.instanceMethods.length + m.classMethods.length + m.properties.length

/-- Whether there are no members. -/
def isEmpty (m : Members) : Bool :=
  m.instanceMethods.isEmpty && m.classMethods.isEmpty && m.properties.isEmpty

/-- Joins the members list by list. -/
def append (a b : Members) : Members where
  instanceMethods := a.instanceMethods ++ b.instanceMethods
  classMethods := a.classMethods ++ b.classMethods
  properties := a.properties ++ b.properties

instance : Append Members :=
  ⟨append⟩

/-- The methods, those of instances first. -/
def methods (m : Members) : List Method :=
  m.instanceMethods ++ m.classMethods

/-- The types that the members name: those of the methods before those of the properties. -/
def types (m : Members) : List TypeId :=
  m.methods.flatMap (·.signature) ++ m.properties.flatMap Property.types

theorem mem_types {m : Members} {id : TypeId} :
    id ∈ m.types ↔
      (∃ method ∈ m.instanceMethods, id ∈ method.signature) ∨
        (∃ method ∈ m.classMethods, id ∈ method.signature) ∨
          ∃ property ∈ m.properties, id ∈ property.types := by
  unfold types methods
  rw [List.mem_append, List.mem_flatMap, List.mem_flatMap, ← or_assoc]
  refine or_congr_left ?_
  simp only [List.mem_append, or_and_right, exists_or]

theorem mem_types_append {a b : Members} {id : TypeId} :
    id ∈ (a ++ b).types ↔ id ∈ a.types ∨ id ∈ b.types := by
  show id ∈ (a.append b).types ↔ _
  simp only [mem_types, append, List.mem_append, or_and_right, exists_or]
  grind

/-- The first class method with a selector. -/
def findClassMethod? (m : Members) (selector : String) : Option Method :=
  m.classMethods.find? fun method => method.selector == selector

/-- Changes the first class method with a selector, if there is one. -/
def modifyClassMethod (m : Members) (selector : String) (change : Method → Method) : Members :=
  { m with
    classMethods := modifyFirst (fun method => method.selector == selector) change m.classMethods }

end Members

end ObjcMetadata
