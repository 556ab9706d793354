import ObjcMetadata.Proofs.Stage.Categories
import ObjcMetadata.Proofs.Stage.Removal
import ObjcMetadata.Proofs.Stage.Unsupported
/-!
What every stage leaves of a module, whatever the module is like.

A stage makes no declaration with a new key and does not change the order of keys, it notes problems
behind those that were noted before, and it names no types that are not in the pool: what it leaves
is a `Module.Reduct`. Here keys may be repeated, references may lead nowhere and bases may form
loops. A stage that has a reduct of every module with types in the pool is `Total`, and all stages
are (`Stage.total_unsupported` is the only one that depends on the declarations outside).
-/

namespace ObjcMetadata

open Declaration

/-! ### Reducts of a module -/

/-- The types that the declarations of a module name are nodes. -/
def Module.Inside (pool : Pool) (m : Module) : Prop :=
  ∀ d ∈ m.declarations, d.Inside pool

/-- What may be left of a module. -/
structure Module.Reduct (pool : Pool) (m m' : Module) : Prop where
  name : m'.name = m.name
  keys : m'.keys.Sublist m.keys
  errors : m.errors <+: m'.errors
  extended : ∀ d' ∈ m'.declarations, ∀ c', d'.category? = some c' →
    ∃ d ∈ m.declarations, ∃ c, d.category? = some c ∧ c.extended = c'.extended
  inside : m.Inside pool → m'.Inside pool

/-- No category of a module extends an interface of the module. -/
def Module.Merged (m : Module) : Prop :=
  ∀ d ∈ m.declarations, ∀ c, d.category? = some c → ⟨.interface, c.extended⟩ ∉ m.keys

namespace Module.Reduct

variable {pool : Pool} {m m' m'' : Module}

theorem refl (m : Module) : m.Reduct pool m where
  name := rfl
  keys := .refl _
  errors := List.prefix_refl _
  extended d hd c hc := ⟨d, hd, c, hc, rfl⟩
  inside h := h

theorem trans (h : m.Reduct pool m') (h' : m'.Reduct pool m'') : m.Reduct pool m'' where
  name := h'.name.trans h.name
  keys := h'.keys.trans h.keys
  errors := h.errors.trans h'.errors
  extended d'' hd'' c'' hc'' := by
    obtain ⟨d', hd', c', hc', heq'⟩ := h'.extended d'' hd'' c'' hc''
    obtain ⟨d, hd, c, hc, heq⟩ := h.extended d' hd' c' hc'
    exact ⟨d, hd, c, hc, heq.trans heq'⟩
  inside hm := h'.inside (h.inside hm)

/-- Where no category was left to merge, none is left afterwards. -/
theorem merged (h : m.Reduct pool m') (hm : m.Merged) : m'.Merged := by
  intro d' hd' c' hc' hmem
  obtain ⟨d, hd, c, hc, heq⟩ := h.extended d' hd' c' hc'
  exact hm d hd c hc (heq ▸ h.keys.subset hmem)

/-- A module of which declarations are taken away. -/
theorem of_sublist {ds : List Declaration} (h : ds.Sublist m.declarations) :
    m.Reduct pool { m with declarations := ds } where
  name := rfl
  keys := h.map key
  errors := List.prefix_refl _
  extended d hd c hc := ⟨d, h.subset hd, c, hc, rfl⟩
  inside hm d hd := hm d (h.subset hd)

end Module.Reduct

/-! ### Stages -/

theorem Declaration.exists_category? {d : Declaration} (h : d.kind = .category) :
    ∃ c, d.category? = some c := by
  obtain ⟨name, body⟩ := d
  cases body with
  | category c => exact ⟨c, rfl⟩
  | _ => cases h

theorem Declaration.declDemand_of_category? {d : Declaration} {c : Category}
    (h : d.category? = some c) :
    d.kind = .category ∧ Support.declDemand d = [.decl ⟨.interface, c.extended⟩] := by
  obtain ⟨name, body⟩ := d
  cases body with
  | category c' => cases h; exact ⟨rfl, rfl⟩
  | _ => cases h

/-- A revision that adds only types of the pool leaves a reduct. -/
theorem Revision.reduct {pool : Pool} {added : List TypeId} {m m' : Module}
    (h : Revision (Amended some added) allStay m.declarations m'.declarations)
    (hname : m'.name = m.name) (herrors : m.errors <+: m'.errors)
    (hadded : m.Inside pool → ∀ id ∈ added, pool.contains id = true) : m.Reduct pool m' where
  name := hname
  keys := h.keys
  errors := herrors
  extended d' hd' c' hc' := by
    obtain ⟨d, hd, hamended⟩ := h.source d' hd'
    obtain ⟨hkind', hdemand'⟩ := declDemand_of_category? hc'
    have hkind : d.kind = .category := hamended.kind_eq.symm.trans hkind'
    obtain ⟨c, hc⟩ := exists_category? hkind
    obtain ⟨-, hdemand⟩ := declDemand_of_category? hc
    have hsame := hamended.needs (by rw [hkind]; decide)
    rw [hdemand', hdemand] at hsame
    simp only [List.cons.injEq, Support.Node.decl.injEq, DeclKey.mk.injEq, true_and,
      and_true] at hsame
    exact ⟨d, hd, c, hc, hsame.symm⟩
  inside hm d' hd' id hid := by
    obtain ⟨d, hd, hamended⟩ := h.source d' hd'
    rcases hamended.types id hid with hid | hid
    · exact hm d hd id hid
    · exact hadded hm id hid

/-- A stage that succeeds for all modules with types in the pool, and leaves a reduct of them. -/
def Stage.Total (cx : Context) (stage : Stage) : Prop :=
  ∀ m : Module, m.Inside cx.pool → ∃ m', stage.apply cx m = .ok m' ∧ m.Reduct cx.pool m'

namespace Stage

variable {cx : Context}

theorem reduct_applyAll {pool : Pool} {rules : List ExceptionRule}
    (hrules : ∀ rule ∈ rules, ∀ id ∈ rule.added, pool.contains id = true) (m : Module) :
    m.Reduct pool (ExceptionRule.applyAll rules m) := by
  unfold ExceptionRule.applyAll
  refine List.foldlRecOn (motive := m.Reduct pool) rules _ (.refl m)
    fun m' hm' rule hrule => hm'.trans ?_
  refine (revision_apply rule m' fun id hid => hid).reduct ?_ ?_ fun _ => hrules rule hrule
  · cases rule <;> rfl
  · cases rule with
    | removeCategory category interface => exact List.prefix_refl _
    | overrideReturn interface selector type => exact List.prefix_append _ _

theorem total_exceptions {rules : List ExceptionRule}
    (hrules : ∀ rule ∈ rules, ∀ id ∈ rule.added, cx.pool.contains id = true) :
    (Stage.exceptions rules).Total cx :=
  fun m _ => ⟨_, rfl, reduct_applyAll hrules m⟩

theorem total_removal (names : List QualifiedName) : (Stage.removal names).Total cx := by
  intro m _
  refine ⟨_, rfl, ?_⟩
  unfold Removal.apply
  rw [Removal.declarationsAfter_eq]
  refine ⟨rfl, ?_, List.prefix_refl _, ?_, ?_⟩
  · exact map_filterMap_sublist fun d _ d' hrewrite => (Removal.of_rewrite hrewrite).key
  · intro d' hd' c' hc'
    obtain ⟨d, hd, hrewrite⟩ := List.mem_filterMap.mp hd'
    have hextended := (Removal.of_rewrite hrewrite).extended
    rw [hc', Option.map_some] at hextended
    obtain ⟨c, hc, heq⟩ := Option.map_eq_some_iff.mp hextended.symm
    exact ⟨d, hd, c, hc, heq⟩
  · intro hm d' hd' id hid
    obtain ⟨d, hd, hrewrite⟩ := List.mem_filterMap.mp hd'
    exact hm d hd id ((Removal.of_rewrite hrewrite).types ▸ hid)

/-- Support can be judged if the declarations outside name types of the pool. -/
theorem total_unsupported (hpool : cx.pool.Closed)
    (hexternal : ∀ key d, cx.external.find? key = some d → d.Inside cx.pool) :
    Stage.unsupported.Total cx := by
  intro m hm
  obtain ⟨kept, after, hjudged⟩ := Unsupported.trimAll_view_total hpool hexternal hm
  have htrimming := Unsupported.trimAll_trimming hjudged
    (Support.Analyzer.resting_fresh _) (Unsupported.resolves_view cx m)
  refine ⟨_, Unsupported.apply_eq_ok_iff.mpr ⟨kept, after, hjudged, rfl⟩, rfl, htrimming.keys,
    List.prefix_refl _, ?_, htrimming.inside⟩
  intro d' hd' c' hc'
  obtain ⟨d, hd, -, htrimmed⟩ := htrimming.exists_of_mem hd'
  obtain ⟨members, rfl⟩ := htrimmed.shape
  rw [category?_withMembers] at hc'
  obtain ⟨c, hc, rfl⟩ := Option.map_eq_some_iff.mp hc'
  exact ⟨d, hd, c, hc, rfl⟩

theorem total_categories : Stage.categories.Total cx := by
  intro m _
  refine ⟨_, rfl, (revision_categories cx.external.find? m).reduct rfl (List.prefix_append _ _) ?_⟩
  intro hm id hid
  obtain ⟨d, hd, hid⟩ := List.mem_flatMap.mp hid
  exact hm d hd id hid

/-- Merging leaves no category to merge. -/
theorem merged_categories (external : Resolver) (m : Module) :
    (Categories.apply external m).Merged := by
  intro d hd c hc hmem
  have hkeys : ⟨.interface, c.extended⟩ ∈ m.keys :=
    (revision_categories external m).keys.subset hmem
  have hstays := (List.mem_filter.mp hd).2
  rw [Categories.isAbsorbed_iff.mpr ⟨c, hc, hkeys⟩] at hstays
  cases hstays

theorem total_inherited : Stage.inherited.Total cx := by
  intro m _
  refine ⟨_, rfl, (revision_inherited cx m []).reduct rfl (List.prefix_refl _) ?_⟩
  simp

theorem total_repeated : Stage.repeated.Total cx :=
  fun _ _ => ⟨_, rfl, .of_sublist distinctBy_sublist⟩

end Stage

end ObjcMetadata
