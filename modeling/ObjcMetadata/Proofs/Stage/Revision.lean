import Mathlib.Data.List.Nodup
import ObjcMetadata.Stage.Categories
import ObjcMetadata.Stage.Exceptions
import ObjcMetadata.Stage.Inherited
import ObjcMetadata.Stage.Repeated
import ObjcMetadata.Support.Analyzer
/-!
What stages make of a list of declarations.

Stages revise declarations one by one. A `Revision` says of two lists of declarations that the later
one comes from the earlier one like this, by a relation that tells what may become of a declaration:
nothing is there that does not come from something, and no declaration is lost but a category, or
one whose key is to go. Revisions follow each other if that relation may be applied again and again
(`Declaration.Evolves`, `Revision.trans`).

Of all stages but the one that removes what is unsupported, the relation is that declarations are
`Amended`: one has the same key afterwards, it needs the same but for its base, and it names no
types but those that were there and some that the stage adds.
-/

namespace ObjcMetadata

open Support

/-! ### Amended declarations -/

/-- A declaration with another base, which may name added types. All else that it needs is the
same. -/
structure Declaration.Amended (rebase : QualifiedName → Option QualifiedName) (added : List TypeId)
    (d d' : Declaration) : Prop where
  key : d'.key = d.key
  base : d'.base? = d.base?.bind rebase
  needs : d.kind ≠ .interface → declDemand d' = declDemand d
  types : ∀ id ∈ d'.ownTypes, id ∈ d.ownTypes ∨ id ∈ added

namespace Declaration

variable {rebase : QualifiedName → Option QualifiedName} {added : List TypeId}
  {d d' d'' : Declaration}

theorem Amended.refl (d : Declaration) : Amended some added d d where
  key := rfl
  base := by simp
  needs _ := rfl
  types id hid := .inl hid

theorem Amended.kind_eq (h : Amended rebase added d d') : d'.kind = d.kind :=
  congrArg DeclKey.kind h.key

theorem Amended.trans (h : Amended some added d d') (h' : Amended rebase added d' d'') :
    Amended rebase added d d'' where
  key := h'.key.trans h.key
  base := by simp [h'.base, h.base]
  needs hkind := (h'.needs (h.kind_eq ▸ hkind)).trans (h.needs hkind)
  types id hid := by
    rcases h'.types id hid with hid | hid
    · exact h.types id hid
    · exact .inr hid

/-- Other members amend a declaration, if they name no other types. -/
theorem amended_withMembers {members members' : Members} (hmembers : d.members? = some members)
    (htypes : ∀ id ∈ members'.types, id ∈ members.types ∨ id ∈ added) :
    Amended some added d (d.withMembers members') where
  key := d.key_withMembers members'
  base := by simp
  needs _ := declDemand_withMembers d members'
  types id hid := by
    have hmembers' : (d.withMembers members').members? = some members' := by simp [hmembers]
    rw [ownTypes_of_members? hmembers'] at hid
    rw [ownTypes_of_members? hmembers]
    exact htypes id hid

/-- Changes of an interface amend it. -/
theorem amended_interface {i i' : Interface} (hbody : d.body = .interface i)
    (hbase : i'.base = i.base.bind rebase)
    (htypes : ∀ id ∈ i'.members.types, id ∈ i.members.types ∨ id ∈ added) :
    Amended rebase added d { d with body := .interface i' } where
  key := by simp [key, kind, hbody]
  base := by simp [base?, interface?, hbody, hbase]
  needs hkind := absurd (by simp [kind, hbody]) hkind
  types id hid := by
    simp only [ownTypes, hbody] at hid ⊢
    exact htypes id hid

end Declaration

/-! ### Revised lists -/

/-- A relation between declarations and what becomes of them in any number of steps. -/
class Declaration.Evolves (R : Declaration → Declaration → Prop) : Prop where
  key {d d' : Declaration} : R d d' → d'.key = d.key
  refl (d : Declaration) : R d d
  trans {d d' d'' : Declaration} : R d d' → R d' d'' → R d d''

instance (added : List TypeId) : Declaration.Evolves (Declaration.Amended some added) where
  key h := h.key
  refl := .refl
  trans := .trans

/-- What is afterwards comes from what was before, and what stays and is no category has something
that comes from it. Keys keep their order. -/
structure Revision (R : Declaration → Declaration → Prop) (stays : DeclKey → Prop)
    (before after : List Declaration) : Prop where
  source : ∀ d' ∈ after, ∃ d ∈ before, R d d'
  result : ∀ d ∈ before, stays d.key → d.kind ≠ .category → ∃ d' ∈ after, R d d'
  keys : (after.map Declaration.key).Sublist (before.map Declaration.key)

/-- All keys stay. -/
def allStay (_ : DeclKey) : Prop :=
  True

namespace Revision

open Declaration

variable {R R' R'' : Declaration → Declaration → Prop} {stays stays' : DeclKey → Prop}
  {before middle after : List Declaration}

theorem mono (hR : ∀ d d', R d d' → R' d d') (hstays : ∀ key, stays' key → stays key)
    (h : Revision R stays before after) : Revision R' stays' before after where
  source d' hd' := by
    obtain ⟨d, hd, hsource⟩ := h.source d' hd'
    exact ⟨d, hd, hR d d' hsource⟩
  result d hd hd' hkind := by
    obtain ⟨d', hd', hresult⟩ := h.result d hd (hstays d.key hd') hkind
    exact ⟨d', hd', hR d d' hresult⟩
  keys := h.keys

/-- A revision of another kind may follow, if what both do is of a third kind. -/
theorem comp (hkey : ∀ d d', R d d' → d'.key = d.key)
    (hcomp : ∀ d d' d'', R d d' → R' d' d'' → R'' d d'') (h : Revision R stays before middle)
    (h' : Revision R' stays middle after) : Revision R'' stays before after where
  source d'' hd'' := by
    obtain ⟨d', hd', hlater⟩ := h'.source d'' hd''
    obtain ⟨d, hd, hearlier⟩ := h.source d' hd'
    exact ⟨d, hd, hcomp d d' d'' hearlier hlater⟩
  result d hd hstays hkind := by
    obtain ⟨d', hd', hearlier⟩ := h.result d hd hstays hkind
    have hsame := hkey d d' hearlier
    have hkind' : d'.kind ≠ .category := fun hcategory =>
      hkind ((congrArg DeclKey.kind hsame).symm.trans hcategory)
    obtain ⟨d'', hd'', hlater⟩ := h'.result d' hd' (hsame.symm ▸ hstays) hkind'
    exact ⟨d'', hd'', hcomp d d' d'' hearlier hlater⟩
  keys := h'.keys.trans h.keys

theorem filterMap {change : Declaration → Option Declaration}
    (hsource : ∀ d ∈ before, ∀ d', change d = some d' → R d d' ∧ d'.key = d.key)
    (hresult : ∀ d ∈ before, stays d.key → d.kind ≠ .category → ∃ d', change d = some d') :
    Revision R stays before (before.filterMap change) where
  source d' hd' := by
    obtain ⟨d, hd, hchange⟩ := List.mem_filterMap.1 hd'
    exact ⟨d, hd, (hsource d hd d' hchange).1⟩
  result d hd hstays hkind := by
    obtain ⟨d', hchange⟩ := hresult d hd hstays hkind
    exact ⟨d', List.mem_filterMap.2 ⟨d, hd, hchange⟩, (hsource d hd d' hchange).1⟩
  keys := map_filterMap_sublist fun d hd d' hchange => (hsource d hd d' hchange).2

section

variable [Evolves R]

theorem refl (ds : List Declaration) : Revision R stays ds ds where
  source d hd := ⟨d, hd, Evolves.refl d⟩
  result d hd _ _ := ⟨d, hd, Evolves.refl d⟩
  keys := List.Sublist.refl _

theorem trans (h : Revision R stays before middle) (h' : Revision R stays middle after) :
    Revision R stays before after :=
  h.comp (fun _ _ => Evolves.key) (fun _ _ _ => Evolves.trans) h'

theorem map {f : Declaration → Declaration} (h : ∀ d ∈ before, R d (f d)) :
    Revision R stays before (before.map f) where
  source d' hd' := by
    obtain ⟨d, hd, rfl⟩ := List.mem_map.1 hd'
    exact ⟨d, hd, h d hd⟩
  result d hd _ _ := ⟨f d, List.mem_map_of_mem hd, h d hd⟩
  keys := by
    rw [List.map_map]
    have hkeys : before.map (Declaration.key ∘ f) = before.map Declaration.key :=
      List.map_congr_left fun d hd => Evolves.key (h d hd)
    rw [hkeys]

theorem filter {keep : Declaration → Bool} (h : ∀ d ∈ before, d.kind ≠ .category → keep d = true) :
    Revision R stays before (before.filter keep) where
  source d hd := ⟨d, (List.mem_filter.1 hd).1, Evolves.refl d⟩
  result d hd _ hkind := ⟨d, List.mem_filter.2 ⟨hd, h d hd hkind⟩, Evolves.refl d⟩
  keys := List.filter_sublist.map _

/-- A change of the first interface of a name. -/
theorem modifyInterface {name : QualifiedName} {change : Interface → Interface}
    (h : ∀ d ∈ before, ∀ i, d.key = ⟨.interface, name⟩ → d.body = .interface i →
      R d { d with body := .interface (change i) }) :
    Revision R stays before (modifyInterface name change before) := by
  constructor
  · intro d' hd'
    obtain ⟨d, hd, rfl | ⟨i, hkey, hbody, rfl⟩⟩ := exists_of_mem_modifyInterface hd'
    · exact ⟨d', hd, Evolves.refl d'⟩
    · exact ⟨d, hd, h d hd i hkey hbody⟩
  · intro d hd _ _
    obtain ⟨d', hd', rfl | ⟨i, hkey, hbody, rfl⟩⟩ := exists_mem_modifyInterface name change hd
    · exact ⟨d', hd', Evolves.refl d'⟩
    · exact ⟨_, hd', h d hd i hkey hbody⟩
  · rw [ObjcMetadata.modifyInterface, map_modifyFirst (key_mapInterface change)]

/-- One revision after another, told of what has declarations. -/
theorem foldl {α β : Type} (view : β → List Declaration) {step : β → α → β} {as : List α}
    (h : ∀ b, ∀ a ∈ as, Revision R stays (view b) (view (step b a))) (b : β) :
    Revision R stays (view b) (view (as.foldl step b)) :=
  List.foldlRecOn (motive := fun b' => Revision R stays (view b) (view b')) as step (.refl (view b))
    fun b' hb' a ha => hb'.trans (h b' a ha)

end

/-! ### Resolution in revised lists -/

/-- Where no key is repeated, a key finds its declaration. -/
theorem find?_key_of_mem {ds : List Declaration} (hkeys : (ds.map Declaration.key).Nodup)
    {d : Declaration} (hd : d ∈ ds) : ds.find? (·.key == d.key) = some d := by
  obtain ⟨e, he, hkey, hfind⟩ := Declaration.exists_find?_key (List.mem_map_of_mem hd)
  rw [hfind, List.inj_on_of_nodup_map hkeys he hd hkey]

theorem find?_source (hR : ∀ d d', R d d' → d'.key = d.key) (h : Revision R stays before after)
    {key : DeclKey} {d' : Declaration} (hfind : after.find? (·.key == key) = some d') :
    ∃ d ∈ before, d.key = key ∧ R d d' := by
  have hkey : d'.key = key := by simpa using List.find?_some hfind
  obtain ⟨d, hd, hsource⟩ := h.source d' (List.mem_of_find?_eq_some hfind)
  exact ⟨d, hd, (hR d d' hsource).symm.trans hkey, hsource⟩

theorem find?_result (hR : ∀ d d', R d d' → d'.key = d.key) (h : Revision R stays before after)
    (hkeys : (before.map Declaration.key).Nodup) {d : Declaration} (hd : d ∈ before)
    (hstays : stays d.key) (hkind : d.kind ≠ .category) :
    ∃ d', after.find? (·.key == d.key) = some d' ∧ R d d' := by
  obtain ⟨d', hd', hresult⟩ := h.result d hd hstays hkind
  have hfind := find?_key_of_mem (hkeys.sublist h.keys) hd'
  rw [hR d d' hresult] at hfind
  exact ⟨d', hfind, hresult⟩

end Revision

/-! ### Corrections -/

theorem Declaration.category?_eq_none {d : Declaration} (h : d.kind ≠ .category) :
    d.category? = none := by
  unfold kind at h
  unfold category?
  cases hbody : d.body <;> simp [hbody] at h ⊢

theorem Declaration.category?_eq_some_iff {d : Declaration} {c : Category} :
    d.category? = some c ↔ d.body = .category c := by
  unfold category?
  cases d.body <;> simp

section Exceptions

open Declaration ExceptionRule

/-- The types that a rule puts in. -/
def ExceptionRule.added : ExceptionRule → List TypeId
  | .removeCategory _ _ => []
  | .overrideReturn _ _ type => [type]

theorem amended_dropCategory (category interface : QualifiedName) (added : List TypeId)
    (d : Declaration) : Amended some added d (dropCategory category interface d) := by
  unfold dropCategory
  cases hbody : d.body with
  | interface i =>
    simp only
    split
    · exact amended_interface hbody (by simp) fun id hid => .inl hid
    · exact .refl d
  | _ => exact .refl d

theorem mem_of_withReturnType {m : Method} {type id : TypeId}
    (h : id ∈ (withReturnType type m).signature) : id ∈ m.signature ∨ id = type := by
  unfold withReturnType at h
  split at h
  · exact .inl h
  · next hsignature =>
    rw [hsignature]
    rcases List.mem_cons.1 h with rfl | h
    · exact .inr rfl
    · exact .inl (List.mem_cons_of_mem _ h)

theorem mem_types_of_modifyClassMethod {members : Members} {selector : String} {type id : TypeId}
    (h : id ∈ (members.modifyClassMethod selector (withReturnType type)).types) :
    id ∈ members.types ∨ id = type := by
  rcases Members.mem_types.1 h with ⟨m, hm, hid⟩ | ⟨m, hm, hid⟩ | ⟨p, hp, hid⟩
  · exact .inl (Members.mem_types.2 (.inl ⟨m, hm, hid⟩))
  · obtain ⟨m', hm', rfl | ⟨-, rfl⟩⟩ := exists_of_mem_modifyFirst hm
    · exact .inl (Members.mem_types.2 (.inr (.inl ⟨m, hm', hid⟩)))
    · refine (mem_of_withReturnType hid).imp_left ?_
      intro hid
      exact Members.mem_types.2 (.inr (.inl ⟨m', hm', hid⟩))
  · exact .inl (Members.mem_types.2 (.inr (.inr ⟨p, hp, hid⟩)))

theorem revision_apply (rule : ExceptionRule) (m : Module) {added : List TypeId}
    (hadded : ∀ id ∈ rule.added, id ∈ added) :
    Revision (Amended some added) allStay m.declarations (apply m rule).declarations := by
  cases rule with
  | removeCategory category interface =>
    refine (Revision.filter fun d _ hkind => ?_).trans
      (Revision.map fun d _ => amended_dropCategory category interface added d)
    simp [isCategoryOn, category?_eq_none hkind]
  | overrideReturn interface selector type =>
    refine Revision.modifyInterface ?_
    intro d _ i _ hbody
    refine amended_interface hbody (by simp) ?_
    intro id hid
    refine (mem_types_of_modifyClassMethod hid).imp_right ?_
    rintro rfl
    exact hadded id (List.mem_singleton_self id)

/-- Exception rules revise a module. -/
theorem revision_applyAll (rules : List ExceptionRule) (m : Module) {added : List TypeId}
    (hadded : ∀ rule ∈ rules, ∀ id ∈ rule.added, id ∈ added) :
    Revision (Amended some added) allStay m.declarations (applyAll rules m).declarations :=
  Revision.foldl Module.declarations
    (fun m' rule hrule => revision_apply rule m' (hadded rule hrule)) m

/-- The corrections for the iOS headers add one type. -/
theorem revision_iosSdk (m : Module) :
    Revision (Amended some [.instancetype]) allStay m.declarations
      (applyAll iosSdk m).declarations :=
  revision_applyAll iosSdk m (by decide)

end Exceptions

/-! ### Categories and inherited members -/

section Later

open Declaration

theorem revision_mergeInto {d : Declaration} {added : List TypeId}
    (hadded : ∀ id ∈ d.ownTypes, id ∈ added) (ds : List Declaration) :
    Revision (Amended some added) allStay ds (Categories.mergeInto ds d) := by
  unfold Categories.mergeInto
  cases hcategory : d.category? with
  | none => exact .refl ds
  | some c =>
    have htypes : d.ownTypes = c.members.types := by
      simp [ownTypes, category?_eq_some_iff.mp hcategory]
    refine Revision.modifyInterface fun e _ i _ hbody =>
      amended_interface hbody ?_ fun id hid => ?_
    · simp [Interface.absorb]
    · refine (Members.mem_types_append.1 hid).imp_right ?_
      intro hid
      exact hadded id (htypes ▸ hid)

/-- Merging categories revises a module. What it adds to interfaces are types of categories. -/
theorem revision_categories (external : Resolver) (m : Module) :
    Revision (Amended some (m.declarations.flatMap ownTypes)) allStay m.declarations
      (Categories.apply external m).declarations := by
  have hmerged : Revision (Amended some (m.declarations.flatMap ownTypes)) allStay m.declarations
      (m.declarations.foldl Categories.mergeInto m.declarations) :=
    Revision.foldl id (fun ds d hd =>
      revision_mergeInto (fun id hid => List.mem_flatMap.2 ⟨d, hd, hid⟩) ds) m.declarations
  refine hmerged.trans (Revision.filter fun d _ hkind => ?_)
  simp [Categories.isAbsorbed, category?_eq_none hkind]

theorem mem_types_of_without {inherited : List Members} {members : Members} {id : TypeId}
    (h : id ∈ (Inherited.without inherited members).types) : id ∈ members.types := by
  rcases Members.mem_types.1 h with ⟨m, hm, hid⟩ | ⟨m, hm, hid⟩ | ⟨p, hp, hid⟩
  · exact Members.mem_types.2 (.inl ⟨m, (List.mem_filter.1 hm).1, hid⟩)
  · exact Members.mem_types.2 (.inr (.inl ⟨m, (List.mem_filter.1 hm).1, hid⟩))
  · exact Members.mem_types.2 (.inr (.inr ⟨p, (List.mem_filter.1 hp).1, hid⟩))

/-- Dropping inherited members revises a module. -/
theorem revision_inherited (cx : Context) (m : Module) (added : List TypeId) :
    Revision (Amended some added) allStay m.declarations (Inherited.apply cx m).declarations := by
  refine Revision.map ?_
  intro d _
  unfold Inherited.drop
  cases hbody : d.body with
  | interface i =>
    exact amended_withMembers (by simp [members?, hbody])
      fun id hid => .inl (mem_types_of_without hid)
  | protocol p =>
    exact amended_withMembers (by simp [members?, hbody])
      fun id hid => .inl (mem_types_of_without hid)
  | _ => exact .refl d

end Later

end ObjcMetadata
