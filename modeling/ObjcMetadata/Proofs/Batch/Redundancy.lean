import ObjcMetadata.Proofs.Batch.Hierarchy
/-!
What is declared again below an ancestor in the results.

With default options, an interface or protocol in the results may still have a member that one of
its ancestors in the results has. Then the module of some interface at or above it, other than its
own module, has added something to that interface: its categories bring members and protocols, and
`NSNull` has its `null` corrected (`processModules_redundant`). Other modules do not see what is
added, since they see declarations as given; so all three do occur
(`processModules_additions_repeat`).
-/

namespace ObjcMetadata

open Relation Declaration

/-! ### Additions -/

/-- A module adds a parent to a declaration of its own: a category of it brings the parent. -/
def Module.AddsParent (m : Module) (f : Declaration) (p : DeclKey) : Prop :=
  p ∉ f.parents ∧ ∃ c ∈ m.declarations, c.Extends f.key ∧ p ∈ c.parents

/-- A module adds a member to a declaration of its own: a category of it brings the member, or it is
the class method `null` of `NSNull` with the right return type. -/
def Module.AddsMember (m : Module) (f : Declaration) (x : Member) : Prop :=
  ¬ f.Provides x ∧
    ((∃ c ∈ m.declarations, c.Extends f.key ∧ c.Provides x) ∨
      (f.key = ⟨.interface, ⟨"Foundation", "NSNull"⟩⟩ ∧ ∃ null, x.sameAs (.classMethod null) ∧
        null.selector = "null" ∧ null.returnType? = some .instancetype))

namespace Batch

variable {o : Options} {pool : Pool} {modules : List Module} {results : List FinalModule}
  {i : Nat} {a b : DeclKey}

/-- Without removals, a path in the results is one that a module sees, or another module has added a
parent on it. -/
theorem ascends_or_adds (hremove : o.remove = []) (hkeys : DistinctKeys modules)
    (hresults : processModules o pool modules = .ok (results.map .ok))
    (hleads : ReflTransGen (Derives results) a b) :
    ReflTransGen (Ascends o pool modules i) a b ∨
      ∃ j m f, j ≠ i ∧ modules[j]? = some m ∧ f ∈ m.declarations ∧
        ReflTransGen (Derives results) a f.key ∧
        ∃ p, m.AddsParent f p ∧ Derives results f.key p ∧ ReflTransGen (Derives results) p b := by
  induction hleads with
  | refl => exact .inl .refl
  | @tail n p hleads hstep ih =>
    rcases ih with hascends | ⟨j, m, f, hne, hm, hf, hbelow, q, hadds, hq, habove⟩
    · obtain ⟨j, g, hg, rfl, hp⟩ := (derives_iff hkeys hresults).mp hstep
      by_cases hj : j = i
      · subst hj
        exact .inl (hascends.tail ⟨g, .own hg, rfl, hp⟩)
      obtain ⟨m, hm, f, hf, hchanged, -⟩ := hg.source hkeys
      by_cases hgiven : p ∈ f.parents
      · exact .inl (hascends.tail ⟨f, .other hj ⟨m, hm, hf⟩, hchanged.key.symm, hgiven⟩)
      · have hadds : m.AddsParent f p := by
          rcases (hchanged.parents_from p hp).resolve_left hgiven with
            ⟨-, -, -, base, hbase, -⟩ | ⟨-, c, hc, hextends, hp⟩
          · exact absurd hbase (hremove ▸ List.not_mem_nil)
          · exact ⟨hgiven, c, hc, hextends, hp⟩
        rw [hchanged.key] at hleads hstep
        exact .inr ⟨j, m, f, hj, hm, hf, hleads, p, hadds, hstep, .refl⟩
    · exact .inr ⟨j, m, f, hne, hm, hf, hbelow, q, hadds, hq, habove.tail hstep⟩

/-- **What is declared again has been added above**: if an interface or protocol in the results has
a member that a proper ancestor in the results has, another module has added that member to the
ancestor, or the module sees no way to the ancestor, and another has added a parent on the way. -/
theorem processModules_redundant (pool : Pool) (modules : List Module)
    (hkeys : DistinctKeys modules) :
    (pool.Closed → pool.contains .instancetype = true →
      (∀ m ∈ modules, ∀ d ∈ m.declarations, d.Inside pool) →
      ∃ results : List FinalModule, processModules {} pool modules = .ok (results.map .ok)) ∧
    ∀ results : List FinalModule, processModules {} pool modules = .ok (results.map .ok) →
      ∀ (i : Nat) (result : FinalModule), results[i]? = some result →
        ∀ d ∈ result.declarations, d.kind ≠ .category → ∀ x ∈ d.entries,
          ∀ e, Outputs results e → e.key ≠ d.key →
            TransGen (Derives results) d.key e.key → e.Provides x →
            ∃ j m f, j ≠ i ∧ modules[j]? = some m ∧ f ∈ m.declarations ∧
              ReflTransGen (Derives results) d.key f.key ∧
              ((f.key = e.key ∧ m.AddsMember f x) ∨
                (¬ ReflTransGen (Ascends {} pool modules i) d.key e.key ∧
                  ∃ p, m.AddsParent f p ∧ Derives results f.key p ∧
                    ReflTransGen (Derives results) p e.key)) := by
  constructor
  · intro hpool hfixed hinside
    exact exists_results hpool hfixed hinside
  intro results hresults i result hresult d hd hkind x hx e he hne hleads hprovides
  obtain ⟨m, ready, hm, hready, hfinal⟩ := exists_ready_of_result hkeys hresults hresult
  rw [hfinal] at hd
  obtain ⟨d', hd', rfl⟩ := List.mem_map.mp hd
  rw [Options.key_final] at hne hleads ⊢
  have hkind' : d'.kind ≠ .category := fun hcategory =>
    hkind ((congrArg DeclKey.kind (Options.key_final _ _ _ d')).trans hcategory)
  have hlacks := Options.not_provides_of_mem_final rfl hkind' hx
  obtain ⟨j, m', ready', hm', hready', e', he', rfl⟩ := (outputs_iff hkeys hresults).mp he
  rw [Options.key_final] at hne hleads ⊢
  obtain ⟨y, hy, hsame⟩ := hprovides
  have hy : y ∈ e'.entries := Options.mem_of_mem_final hy
  by_cases hascends : ReflTransGen (Ascends {} pool modules i) d'.key e'.key
  · have hunseen : ∀ {g : Declaration}, Sees {} pool modules i g → g.key = e'.key →
        ¬ g.Provides x := by
      intro g hsees hkey
      refine hlacks g (mem_reached_of_ascends hkeys hm hready hd' hsees ?_ ?_)
      · rwa [hkey]
      · rwa [hkey]
    have hreadies : Readies {} pool modules j e' := (readies_iff hm' hready').mpr he'
    by_cases hj : j = i
    · subst hj
      exact absurd ⟨y, hy, hsame⟩ (hunseen (.own hreadies) rfl)
    obtain ⟨m', hm', f, hf, hchanged, -⟩ := hreadies.source hkeys
    have hgiven : ¬ f.Provides x := hunseen (.other hj ⟨m', hm', hf⟩) hchanged.key.symm
    refine ⟨j, m', f, hj, hm', hf, ?_, .inl ⟨hchanged.key.symm, hgiven, ?_⟩⟩
    · rw [← hchanged.key]
      exact hleads.to_reflTransGen
    · rcases (hchanged.entries_from y hy).resolve_left fun hy => hgiven ⟨y, hy, hsame⟩ with
        ⟨null, type, rfl, hoverrides, hreturn⟩ | ⟨-, c, hc, hextends, hy⟩
      · obtain ⟨hkey, hselector, rfl⟩ := ExceptionRule.overrides_iosSdk_iff.mp hoverrides
        exact .inr ⟨hkey, null, hsame, hselector, hreturn⟩
      · exact .inl ⟨c, hc, hextends, y, hy, hsame⟩
  · obtain ⟨j, m, f, hj, hm, hf, hbelow, hadds⟩ :=
      (ascends_or_adds rfl hkeys hresults hleads.to_reflTransGen).resolve_left hascends
    exact ⟨j, m, f, hj, hm, hf, hbelow, .inr ⟨hascends, hadds⟩⟩

/-! ### Three additions that are not seen -/

/-- A declaration of this key in the results has a member that a proper ancestor in the results
has. -/
def Repeats (results : List FinalModule) (key : DeclKey) (x : Member) : Prop :=
  ∃ d e, Outputs results d ∧ d.key = key ∧ x ∈ d.entries ∧ Outputs results e ∧ e.key ≠ key ∧
    TransGen (Derives results) key e.key ∧ e.Provides x

namespace Additions

/-- A method without parameters. -/
def method (selector : String) (type : TypeId) : Method :=
  { selector, signature := [type] }

def copying : Declaration :=
  ⟨⟨"Foundation", "Copying"⟩,
    .protocol { members := { instanceMethods := [method "copy" (.ofPrimitive .void)] } }⟩

/-- A category that brings a member and a protocol. -/
def extras : Declaration :=
  ⟨⟨"Foundation", "Extras"⟩, .category {
    extended := ⟨"Foundation", "Base"⟩
    protocols := [⟨"Foundation", "Copying"⟩]
    members := { instanceMethods := [method "extra" (.ofPrimitive .void)] } }⟩

/-- An interface with a class method `null`. -/
def withNull (name : QualifiedName) (base : Option QualifiedName) (type : TypeId) : Declaration :=
  ⟨name, .interface { base, members := { classMethods := [method "null" type] } }⟩

/-- An interface that declares again what the category brings to its base. -/
def sub : Declaration :=
  ⟨⟨"App", "Sub"⟩, .interface {
    base := some ⟨"Foundation", "Base"⟩
    members := { instanceMethods :=
      [method "extra" (.ofPrimitive .void), method "copy" (.ofPrimitive .void)] } }⟩

/-- A subclass of `NSNull` whose method has the right return type. -/
def subNull : Declaration :=
  withNull ⟨"App", "Null"⟩ (some ⟨"Foundation", "NSNull"⟩) .instancetype

/-- One module adds to its interfaces, and the other inherits from them. -/
def batch : List Module :=
  [{ name := "Foundation",
      declarations := [copying, ⟨⟨"Foundation", "Base"⟩, .interface {}⟩, extras,
        withNull ⟨"Foundation", "NSNull"⟩ none ⟨28⟩] },
    { name := "App", declarations := [sub, subNull] }]

/-- The interface with all that its category brings. -/
def merged : Declaration :=
  ⟨⟨"Foundation", "Base"⟩, .interface {
    protocols := [⟨"Foundation", "Copying"⟩]
    members := { instanceMethods := [method "extra" (.ofPrimitive .void)] } }⟩

/-- `NSNull` as it is corrected. -/
def null : Declaration :=
  withNull ⟨"Foundation", "NSNull"⟩ none .instancetype

def left : List FinalModule :=
  [⟨"Foundation", ⟨[copying, merged, null]⟩, []⟩, ⟨"App", ⟨[sub, subNull]⟩, []⟩]

theorem distinctKeys : DistinctKeys batch := by
  unfold DistinctKeys
  decide

theorem processModules_eq : processModules {} .initial batch = .ok (left.map .ok) := by
  decide +kernel

theorem outputs {d : Declaration} (h : d ∈ left.flatMap FinalModule.declarations) :
    Outputs left d :=
  List.mem_flatMap.mp h

theorem derives_base : Derives left sub.key merged.key :=
  ⟨sub, outputs (by decide), rfl, by decide⟩

theorem derives_protocol : Derives left merged.key copying.key :=
  ⟨merged, outputs (by decide), rfl, by decide⟩

theorem derives_null : Derives left subNull.key null.key :=
  ⟨subNull, outputs (by decide), rfl, by decide⟩

end Additions

/-- What the subclass declares again has been added to its base. -/
theorem processModules_redundant_additions :
    DistinctKeys Additions.batch ∧
      processModules {} .initial Additions.batch = .ok (Additions.left.map .ok) ∧
      ∃ j m f, j ≠ 1 ∧ Additions.batch[j]? = some m ∧ f ∈ m.declarations ∧
        ReflTransGen (Derives Additions.left) Additions.sub.key f.key ∧
        ((f.key = Additions.merged.key ∧
            m.AddsMember f (.instanceMethod (Additions.method "extra" (.ofPrimitive .void)))) ∨
          (¬ ReflTransGen (Ascends {} .initial Additions.batch 1) Additions.sub.key
              Additions.merged.key ∧
            ∃ p, m.AddsParent f p ∧ Derives Additions.left f.key p ∧
              ReflTransGen (Derives Additions.left) p Additions.merged.key)) := by
  obtain ⟨-, hredundant⟩ :=
    processModules_redundant .initial Additions.batch Additions.distinctKeys
  refine ⟨Additions.distinctKeys, Additions.processModules_eq, ?_⟩
  exact hredundant _ Additions.processModules_eq 1 _ rfl Additions.sub (by decide) (by decide) _
    (by decide) Additions.merged (Additions.outputs (by decide)) (by decide)
    (.single Additions.derives_base) (provides_of_mem (by decide))

/-- A member of a category, a member of a protocol that a category brings and a corrected method all
are declared again below. -/
theorem processModules_additions_repeat :
    DistinctKeys Additions.batch ∧
      ∃ results : List FinalModule,
        processModules {} .initial Additions.batch = .ok (results.map .ok) ∧
        Repeats results Additions.sub.key
          (.instanceMethod (Additions.method "extra" (.ofPrimitive .void))) ∧
        Repeats results Additions.sub.key
          (.instanceMethod (Additions.method "copy" (.ofPrimitive .void))) ∧
        Repeats results Additions.subNull.key
          (.classMethod (Additions.method "null" .instancetype)) := by
  refine ⟨Additions.distinctKeys, Additions.left, Additions.processModules_eq, ?_, ?_, ?_⟩
  · exact ⟨Additions.sub, Additions.merged, Additions.outputs (by decide), rfl, by decide,
      Additions.outputs (by decide), by decide, .single Additions.derives_base,
      provides_of_mem (by decide)⟩
  · exact ⟨Additions.sub, Additions.copying, Additions.outputs (by decide), rfl, by decide,
      Additions.outputs (by decide), by decide,
      .tail (.single Additions.derives_base) Additions.derives_protocol,
      provides_of_mem (by decide)⟩
  · exact ⟨Additions.subNull, Additions.null, Additions.outputs (by decide), rfl, by decide,
      Additions.outputs (by decide), by decide, .single Additions.derives_null,
      provides_of_mem (by decide)⟩

end Batch

end ObjcMetadata
