import ObjcMetadata.Proofs.Support.Members
import ObjcMetadata.Stage.Inherited
/-!
Members of all lists.

A `Member` is a method or property together with the list that it is in, so that what holds for all
three lists is said once. Being the same is an equivalence of members, though it is weaker than
equality: a property is the same as another of its name, whatever their types, if their getters are.
A declaration provides a member if it has one that is the same (`Declaration.Provides`).
-/

namespace ObjcMetadata

/-! ### Members and their lists -/

/-- A member and the list that it is in. -/
inductive Member where
  | instanceMethod (method : Method)
  | classMethod (method : Method)
  | property (property : Property)
deriving DecidableEq, Repr

namespace Members

/-- All members, list by list. -/
def entries (ms : Members) : List Member :=
  ms.instanceMethods.map .instanceMethod ++ ms.classMethods.map .classMethod ++
    ms.properties.map .property

variable {ms : Members}

@[simp] theorem instanceMethod_mem_entries {m : Method} :
    .instanceMethod m ∈ ms.entries ↔ m ∈ ms.instanceMethods := by
  simp [entries]

@[simp] theorem classMethod_mem_entries {m : Method} :
    .classMethod m ∈ ms.entries ↔ m ∈ ms.classMethods := by
  simp [entries]

@[simp] theorem property_mem_entries {p : Property} :
    .property p ∈ ms.entries ↔ p ∈ ms.properties := by
  simp [entries]

theorem forall_mem_entries {P : Member → Prop} :
    (∀ x ∈ ms.entries, P x) ↔
      (∀ m ∈ ms.instanceMethods, P (.instanceMethod m)) ∧
        (∀ m ∈ ms.classMethods, P (.classMethod m)) ∧
          ∀ p ∈ ms.properties, P (.property p) := by
  simp only [entries, List.forall_mem_append, List.forall_mem_map, and_assoc]

theorem mem_entries_append {ms' : Members} {x : Member} :
    x ∈ (ms ++ ms').entries ↔ x ∈ ms.entries ∨ x ∈ ms'.entries := by
  show x ∈ (ms.append ms').entries ↔ _
  cases x <;> simp [append]

/-- Joined members are those of both. -/
theorem entries_append_perm (ms ms' : Members) :
    (ms ++ ms').entries.Perm (ms.entries ++ ms'.entries) := by
  show (ms.append ms').entries.Perm _
  rw [List.perm_iff_count]
  intro x
  simp only [append, entries, List.map_append, List.count_append]
  omega

theorem mem_entries_modifyClassMethod (selector : String) (change : Method → Method) {x : Member}
    (h : x ∈ ms.entries) :
    x ∈ (ms.modifyClassMethod selector change).entries ∨
      ∃ m, x = .classMethod m ∧ m.selector = selector ∧
        .classMethod (change m) ∈ (ms.modifyClassMethod selector change).entries := by
  cases x with
  | classMethod m =>
    simp only [classMethod_mem_entries] at h ⊢
    obtain ⟨m', hm', rfl | ⟨hfits, rfl⟩⟩ := exists_mem_modifyFirst h
    · exact .inl hm'
    · exact .inr ⟨m, rfl, beq_iff_eq.mp hfits, hm'⟩
  | _ => exact .inl (by simpa [modifyClassMethod] using h)

theorem exists_of_mem_entries_modifyClassMethod {selector : String} {change : Method → Method}
    {x : Member} (h : x ∈ (ms.modifyClassMethod selector change).entries) :
    x ∈ ms.entries ∨
      ∃ m, x = .classMethod (change m) ∧ m.selector = selector ∧ .classMethod m ∈ ms.entries := by
  cases x with
  | classMethod m =>
    simp only [classMethod_mem_entries] at h ⊢
    obtain ⟨m', hm', rfl | ⟨hfits, rfl⟩⟩ := exists_of_mem_modifyFirst h
    · exact .inl hm'
    · exact .inr ⟨m', rfl, beq_iff_eq.mp hfits, hm'⟩
  | _ => exact .inl (by simpa [modifyClassMethod] using h)

end Members

/-- All members that a declaration has of its own. -/
def Declaration.entries (d : Declaration) : List Member :=
  (d.members?.map Members.entries).getD []

theorem Declaration.entries_of_members? {d : Declaration} {members : Members}
    (h : d.members? = some members) : d.entries = members.entries := by
  simp [entries, h]

theorem Declaration.exists_of_mem_entries {d : Declaration} {x : Member} (h : x ∈ d.entries) :
    ∃ members, d.members? = some members ∧ x ∈ members.entries := by
  unfold entries at h
  cases hmembers : d.members? with
  | none => simp [hmembers] at h
  | some members => exact ⟨members, rfl, by simpa [hmembers] using h⟩

/-! ### The same member -/

theorem Method.sameAs_iff {a b : Method} :
    a.sameAs b = true ↔ a.selector = b.selector ∧ a.signature = b.signature := by
  simp [sameAs]

namespace Property

/-- What counts when properties are compared: the name, whether there are accessors, and the first
of them. -/
def shape (p : Property) : String × Bool × Bool × Option (String × List TypeId) :=
  (p.name, p.getter.isSome, p.setter.isSome,
    (p.getter.or p.setter).map fun m => (m.selector, m.signature))

theorem sameAs_iff {a b : Property} : a.sameAs b = true ↔ a.shape = b.shape := by
  unfold sameAs shape
  cases a.getter <;> cases b.getter <;> cases a.setter <;> cases b.setter <;> simp [Method.sameAs]

end Property

namespace Member

/-- Whether two members of one list are the same. Those of different lists never are. -/
def sameAs : Member → Member → Bool
  | .instanceMethod a, .instanceMethod b => a.sameAs b
  | .classMethod a, .classMethod b => a.sameAs b
  | .property a, .property b => a.sameAs b
  | _, _ => false

variable {x y z : Member}

theorem sameAs_refl (x : Member) : x.sameAs x = true := by
  cases x <;> simp [sameAs, Method.sameAs_iff, Property.sameAs_iff]

theorem sameAs_symm (h : x.sameAs y = true) : y.sameAs x = true := by
  cases x <;> cases y <;> simp_all [sameAs, Method.sameAs_iff, Property.sameAs_iff]

theorem sameAs_trans (h : x.sameAs y = true) (h' : y.sameAs z = true) : x.sameAs z = true := by
  cases x <;> cases y <;> cases z <;> simp_all [sameAs, Method.sameAs_iff, Property.sameAs_iff]

end Member

/-- A declaration has a member that is the same. -/
def Declaration.Provides (d : Declaration) (x : Member) : Prop :=
  ∃ y ∈ d.entries, x.sameAs y = true

theorem Declaration.Provides.of_sameAs {d : Declaration} {x y : Member} (h : d.Provides y)
    (hsame : x.sameAs y = true) : d.Provides x := by
  obtain ⟨z, hz, hyz⟩ := h
  exact ⟨z, hz, Member.sameAs_trans hsame hyz⟩

theorem Declaration.provides_of_mem {d : Declaration} {x : Member} (h : x ∈ d.entries) :
    d.Provides x :=
  ⟨x, h, x.sameAs_refl⟩

/-! ### Types of members -/

namespace Member

/-- The types that a member names. -/
def types : Member → List TypeId
  | .instanceMethod m | .classMethod m => m.signature
  | .property p => p.types

/-- A condition on types is met by what a member needs to be supported. -/
def Meets (P : TypeId → Prop) : Member → Prop
  | .instanceMethod m | .classMethod m => m.Meets P
  | .property p => p.Meets P

/-- A member is a property. -/
def IsProperty (x : Member) : Prop :=
  ∃ p, x = .property p

variable {P : TypeId → Prop} {x y : Member}

/-- Methods that are the same name the same types. -/
theorem meets_of_sameAs {Q : TypeId → Prop} (hsame : x.sameAs y = true) (hx : x.Meets P)
    (hmethod : ¬ y.IsProperty) (hQ : ∀ id ∈ y.types, P id → Q id) : y.Meets Q := by
  cases x <;> cases y <;> simp_all [sameAs, Meets, Method.Meets, Method.sameAs_iff, types,
    IsProperty]

end Member

theorem Members.meet_iff {P : TypeId → Prop} {ms : Members} :
    ms.Meet P ↔ ∀ x ∈ ms.entries, x.Meets P := by
  rw [forall_mem_entries]
  constructor
  · rintro ⟨hinstance, hclass, hproperty⟩
    exact ⟨hinstance, hclass, hproperty⟩
  · rintro ⟨hinstance, hclass, hproperty⟩
    exact ⟨hinstance, hclass, hproperty⟩

/-! ### Inherited members -/

/-- What stays of members is what none of the sources has. -/
theorem Inherited.mem_entries_without {sources : List Members} {ms : Members} {x : Member} :
    x ∈ (without sources ms).entries ↔
      x ∈ ms.entries ∧ ∀ source ∈ sources, ∀ y ∈ source.entries, x.sameAs y = false := by
  simp only [Members.forall_mem_entries]
  cases x <;> simp [without, Member.sameAs]

end ObjcMetadata
