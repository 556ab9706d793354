import ObjcMetadata.Proofs.Declaration.Member
import ObjcMetadata.Proofs.Sequence
import ObjcMetadata.Proofs.Stage.Revision
import ObjcMetadata.Stage.Categories
import ObjcMetadata.Stage.Repeated
/-!
What the merging of categories makes of a module.

Categories are merged one after the other, each into the first interface of a name. In the end every
declaration has its outcome (`Categories.outcome`): the first interface of each name has absorbed,
in one go, all categories of the module that extend this name, these categories are gone, and all
else is as it was. No member is lost and none is there twice, because the members of a category go
to exactly one interface if the category goes, and nowhere if it stays. The module may repeat names;
the interface that absorbs is then the one that is kept when repeated declarations are removed.

Merging can also be planned by positions: the declarations are put into slots, every category that
is absorbed is taken out of its slot, and what goes into the interface in another slot is what has
been taken out (`moveAll`). This leaves the same declarations.
-/

namespace ObjcMetadata

open Declaration

/-! ### Absorbing several categories -/

namespace Interface

/-- The interface with the members and protocols of named categories, in order, none of which it
lists. -/
def absorbAll (i : Interface) (cs : List (QualifiedName × Category)) : Interface :=
  { i with
    protocols := appendNew i.protocols (cs.flatMap (·.2.protocols))
    categories := i.categories.filter (· ∉ cs.map (·.1))
    members :=
      { instanceMethods := i.members.instanceMethods ++ cs.flatMap (·.2.members.instanceMethods)
        classMethods := i.members.classMethods ++ cs.flatMap (·.2.members.classMethods)
        properties := i.members.properties ++ cs.flatMap (·.2.members.properties) } }

@[simp] theorem absorbAll_nil (i : Interface) : i.absorbAll [] = i := by
  simp [absorbAll, appendNew]

theorem absorbAll_concat (i : Interface) (cs : List (QualifiedName × Category))
    (c : QualifiedName × Category) :
    i.absorbAll (cs ++ [c]) = (i.absorbAll cs).absorb c.1 c.2 := by
  have hcategories : i.categories.filter (· ∉ (cs ++ [c]).map (·.1)) =
      (i.categories.filter (· ∉ cs.map (·.1))).filter (· ≠ c.1) := by
    rw [List.filter_filter]
    refine List.filter_congr fun name _ => ?_
    simp only [List.map_append, List.map_singleton, List.mem_append, List.mem_singleton, not_or,
      Bool.decide_and, Bool.and_comm]
  have hmembers : (i.absorbAll (cs ++ [c])).members = (i.absorbAll cs).members ++ c.2.members := by
    show _ = Members.append _ _
    simp [absorbAll, Members.append]
  simp only [absorbAll, absorb, Interface.mk.injEq, true_and] at hmembers ⊢
  refine ⟨?_, hcategories, hmembers⟩
  rw [List.flatMap_append, List.flatMap_singleton, appendNew_append]

end Interface

namespace Categories

variable {ds : List Declaration} {d : Declaration}

/-- A category with its name. -/
def named? (d : Declaration) : Option (QualifiedName × Category) :=
  d.category?.map (d.name, ·)

/-- The categories among declarations, with their names, in order. -/
def named (ds : List Declaration) : List (QualifiedName × Category) :=
  ds.filterMap named?

/-- The categories that extend the interfaces of a name. -/
def extending (ds : List Declaration) (name : QualifiedName) : List (QualifiedName × Category) :=
  (named ds).filter (·.2.extended = name)

/-- A declaration that has absorbed the categories among others, if it is an interface. -/
def absorbing (ds : List Declaration) (d : Declaration) : Declaration :=
  d.mapInterface fun i => i.absorbAll (extending ds d.name)

/-- What becomes of a declaration of a module that stands behind others. -/
def outcome (ds before : List Declaration) (d : Declaration) : Option Declaration :=
  match d.body with
  | .interface _ => if d.key ∈ before.map key then some d else some (absorbing ds d)
  | .category c => if ⟨.interface, c.extended⟩ ∈ ds.map key then none else some d
  | _ => some d

@[simp] theorem key_absorbing (ds : List Declaration) (d : Declaration) :
    (absorbing ds d).key = d.key :=
  key_mapInterface _ d

@[simp] theorem absorbing_nil (d : Declaration) : absorbing [] d = d := by
  obtain ⟨name, body⟩ := d
  cases body with
  | interface i => simp [absorbing, extending, named, mapInterface]
  | _ => rfl

/-! ### One category after the other -/

theorem extending_concat (ds : List Declaration) (e : Declaration) (name : QualifiedName) :
    extending (ds ++ [e]) name = extending ds name ++ extending [e] name := by
  simp only [extending, named, List.filterMap_append, List.filter_append]

theorem absorbing_concat_of_none {e : Declaration} (h : e.category? = none) :
    absorbing (ds ++ [e]) d = absorbing ds d := by
  unfold absorbing
  simp [extending, named, named?, h]

/-- One more category is absorbed by the interfaces of the name that it extends. -/
theorem absorbing_concat_of_some {e : Declaration} {c : Category} (h : e.category? = some c) :
    absorbing (ds ++ [e]) d =
      if d.key = ⟨.interface, c.extended⟩ then
        (absorbing ds d).mapInterface (·.absorb e.name c)
      else absorbing ds d := by
  have hlast : extending [e] d.name = if c.extended = d.name then [(e.name, c)] else [] := by
    simp [extending, named, named?, h, List.filter_cons]
  by_cases hkind : d.kind = .interface
  · unfold absorbing
    simp only [extending_concat, hlast, mapInterface_mapInterface]
    by_cases hname : c.extended = d.name
    · have hkey : d.key = ⟨.interface, c.extended⟩ := by rw [key, hkind, hname]
      rw [if_pos hkey]
      simp only [if_pos hname, Interface.absorbAll_concat]
    · have hkey : d.key ≠ ⟨.interface, c.extended⟩ := fun heq =>
        hname (congrArg DeclKey.name heq).symm
      rw [if_neg hkey]
      simp only [if_neg hname, List.append_nil]
  · have hkey : d.key ≠ ⟨.interface, c.extended⟩ := fun heq => hkind (congrArg DeclKey.kind heq)
    rw [if_neg hkey, absorbing, absorbing, mapInterface_of_kind _ hkind,
      mapInterface_of_kind _ hkind]

/-- All categories are absorbed in one pass. -/
theorem foldl_mergeInto (cs ds : List Declaration) :
    cs.foldl mergeInto ds = mapFirsts key (absorbing cs) [] ds := by
  induction cs using List.reverseRecOn with
  | nil => exact (mapFirsts_eq_self absorbing_nil).symm
  | append_singleton cs e ih =>
    rw [List.foldl_concat, ih]
    unfold mergeInto
    cases hcategory : e.category? with
    | none => exact mapFirsts_congr fun d _ => (absorbing_concat_of_none hcategory).symm
    | some c =>
      refine (modifyFirst_mapFirsts (·.mapInterface (·.absorb e.name c)) (key_absorbing cs)
        List.not_mem_nil).trans ?_
      exact mapFirsts_congr fun d _ => (absorbing_concat_of_some hcategory).symm

/-! ### What becomes of each declaration -/

theorem isAbsorbed_iff :
    isAbsorbed ds d = true ↔
      ∃ c, d.category? = some c ∧ ⟨.interface, c.extended⟩ ∈ ds.map key := by
  unfold isAbsorbed declaresInterface
  cases d.category? with
  | none => simp
  | some c => simp

@[simp] theorem isAbsorbed_mapInterface (ds : List Declaration) (d : Declaration)
    (change : Interface → Interface) : isAbsorbed ds (d.mapInterface change) = isAbsorbed ds d := by
  obtain ⟨name, body⟩ := d
  cases body <;> rfl

theorem outcome_eq (ds before : List Declaration) (d : Declaration) :
    outcome ds before d =
      if isAbsorbed ds d then none
      else some (if d.key ∈ before.map key then d else absorbing ds d) := by
  obtain ⟨name, body⟩ := d
  cases body with
  | interface i =>
    have hstays : isAbsorbed ds ⟨name, .interface i⟩ = false := rfl
    rw [hstays, if_neg Bool.false_ne_true, apply_ite some]
    rfl
  | category c =>
    simp [outcome, isAbsorbed_iff, category?, absorbing, mapInterface]
  | _ => simp [outcome, isAbsorbed, category?, absorbing, mapInterface]

/-- Every declaration has its outcome. -/
theorem declarations_apply (external : Resolver) (m : Module) :
    (apply external m).declarations = m.declarations.zipIdx.filterMap fun p =>
      outcome m.declarations (m.declarations.take p.2) p.1 := by
  show (m.declarations.foldl mergeInto m.declarations).filter _ = _
  rw [foldl_mergeInto, mapFirsts_eq_zipIdx, ← List.filterMap_eq_filter, List.filterMap_map]
  refine List.filterMap_congr fun p _ => ?_
  rw [outcome_eq]
  split
  · next habsorbed => simp [Option.guard, apply_ite (isAbsorbed _), absorbing, habsorbed]
  · next hstays => simp [Option.guard, apply_ite (isAbsorbed _), absorbing, hstays]

/-! ### One step -/

/-- What is the same after any change of interfaces is the same after merging. -/
theorem map_mergeInto {β : Type} {f : Declaration → β}
    (hf : ∀ e change, f (e.mapInterface change) = f e) (ds : List Declaration) (d : Declaration) :
    (mergeInto ds d).map f = ds.map f := by
  unfold mergeInto
  cases d.category? with
  | none => rfl
  | some c => exact map_modifyFirst fun e => hf e _

theorem key_mergeInto (ds : List Declaration) (d : Declaration) :
    (mergeInto ds d).map key = ds.map key :=
  map_mergeInto (fun e change => key_mapInterface change e) ds d

theorem key_foldl_mergeInto (cs ds : List Declaration) :
    (cs.foldl mergeInto ds).map key = ds.map key :=
  List.foldlRecOn (motive := fun ds' => ds'.map key = ds.map key) cs mergeInto rfl
    fun ds' h d _ => (key_mergeInto ds' d).trans h

/-- What is absorbed depends on the keys. -/
theorem isAbsorbed_mergeInto (ds : List Declaration) (e : Declaration) :
    isAbsorbed (mergeInto ds e) = isAbsorbed ds := by
  funext d
  rw [Bool.eq_iff_iff, isAbsorbed_iff, isAbsorbed_iff, key_mergeInto]

/-- A declaration that is not absorbed changes nothing. -/
theorem mergeInto_of_stays (h : isAbsorbed ds d = false) : mergeInto ds d = ds := by
  unfold mergeInto
  cases hcategory : d.category? with
  | none => rfl
  | some c =>
    refine modifyFirst_of_forall fun e he => ?_
    rw [beq_eq_false_iff_ne]
    intro hkey
    rw [isAbsorbed_iff.mpr ⟨c, hcategory, hkey ▸ List.mem_map_of_mem he⟩] at h
    cases h

theorem named?_mapInterface (d : Declaration) (change : Interface → Interface) :
    named? (d.mapInterface change) = named? d := by
  obtain ⟨name, body⟩ := d
  cases body <;> rfl

theorem mergeInto_of_named? {c : QualifiedName × Category} (h : named? d = some c) :
    mergeInto ds d = modifyInterface c.2.extended (·.absorb c.1 c.2) ds := by
  obtain ⟨category, hcategory, rfl⟩ := Option.map_eq_some_iff.mp h
  simp [mergeInto, hcategory]

theorem foldl_mergeInto_of_stays {cs : List Declaration} (h : ∀ d ∈ cs, isAbsorbed ds d = false) :
    cs.foldl mergeInto ds = ds := by
  refine List.foldlRecOn (motive := (· = ds)) cs mergeInto rfl fun ds' hsame d hd => ?_
  rw [hsame, mergeInto_of_stays (h d hd)]

/-! ### Slots -/

/-- The position of a category that is absorbed, and that of the interface that absorbs it. -/
def move? (ds : List Declaration) (p : Declaration × Nat) : Option (Nat × Nat) :=
  (named? p.1).bind fun c => (ds.findIdx? (·.key == ⟨.interface, c.2.extended⟩)).map (p.2, ·)

/-- Takes a category out of its slot and merges it into the interface in another one. -/
def move (slots : List (Option Declaration)) (positions : Nat × Nat) :
    List (Option Declaration) :=
  match slots[positions.1]?.join.bind named? with
  | some c =>
    (slots.set positions.1 none).modify positions.2
      (Option.map (·.mapInterface (·.absorb c.1 c.2)))
  | none => slots

/-- The declarations that are left in their slots when all categories have been moved. -/
def moveAll (ds : List Declaration) : List Declaration :=
  ((ds.zipIdx.filterMap (move? ds)).foldl move (ds.map some)).filterMap id

/-- The slots when the categories before a position have been moved. -/
def slotsAt (ds merged : List Declaration) (k : Nat) : List (Option Declaration) :=
  merged.zipIdx.map fun p => if p.2 < k ∧ isAbsorbed ds p.1 then none else some p.1

theorem getElem?_slotsAt (ds merged : List Declaration) (k j : Nat) :
    (slotsAt ds merged k)[j]? =
      merged[j]?.map fun d => if j < k ∧ isAbsorbed ds d then none else some d := by
  simp [slotsAt, List.getElem?_zipIdx, Function.comp_def]

theorem isAbsorbed_eq_any (ds : List Declaration) (d : Declaration) :
    isAbsorbed ds d = (named? d).any (declaresInterface ds ·.2.extended) := by
  unfold isAbsorbed named?
  cases d.category? <;> rfl

/-- What is absorbed is moved. -/
theorem move?_eq_none_iff {k : Nat} : move? ds (d, k) = none ↔ isAbsorbed ds d = false := by
  rw [isAbsorbed_eq_any]
  unfold move? declaresInterface
  cases named? d with
  | none => simp
  | some c => simp [List.findIdx?_eq_none_iff]

/-- A slot whose declaration is not absorbed is left as it is. -/
theorem slotsAt_succ_of_stays {merged : List Declaration} {k : Nat} (hd : merged[k]? = some d)
    (hstays : isAbsorbed ds d = false) : slotsAt ds merged (k + 1) = slotsAt ds merged k := by
  refine List.ext_getElem? fun j => ?_
  rw [getElem?_slotsAt, getElem?_slotsAt]
  by_cases hj : j = k
  · subst hj
    simp [hd, hstays]
  · have hlt : j < k + 1 ↔ j < k := by omega
    simp only [hlt]

/-- A slot whose declaration is absorbed becomes empty, whatever becomes of an interface. -/
theorem slotsAt_succ_of_moves {merged : List Declaration} {k : Nat} (hd : merged[k]? = some d)
    (hmoves : isAbsorbed ds d = true) (t : Nat) (change : Interface → Interface) :
    slotsAt ds (merged.modify t (·.mapInterface change)) (k + 1) =
      ((slotsAt ds merged k).set k none).modify t (Option.map (·.mapInterface change)) := by
  have hlength : (slotsAt ds merged k).length = merged.length := by simp [slotsAt]
  refine List.ext_getElem? fun j => ?_
  rw [getElem?_slotsAt, List.getElem?_modify, List.getElem?_modify, List.getElem?_set, hlength,
    getElem?_slotsAt]
  by_cases hj : k = j
  · subst hj
    obtain ⟨hlt, rfl⟩ := List.getElem?_eq_some_iff.mp hd
    by_cases ht : t = k
    · simp [hlt, hmoves, ht]
    · simp [hlt, hmoves, ht]
  · have hlt : j < k + 1 ↔ j < k := by omega
    simp only [hj, hlt, if_false]
    cases merged[j]? with
    | none => rfl
    | some e =>
      by_cases hempty : j < k ∧ isAbsorbed ds e = true
      · by_cases ht : t = j <;> simp [ht, hempty]
      · by_cases ht : t = j <;> simp [ht, hempty]

/-- Moving one category is merging it. -/
theorem move_slotsAt {merged : List Declaration} (hkeys : merged.map key = ds.map key)
    (hnamed : merged.map named? = ds.map named?) {k : Nat} {e : Declaration}
    (he : ds[k]? = some e) :
    (move? ds (e, k)).toList.foldl move (slotsAt ds merged k) =
      slotsAt ds (mergeInto merged e) (k + 1) := by
  obtain ⟨d, hd, hsame⟩ : ∃ d, merged[k]? = some d ∧ named? d = named? e := by
    have hk := congrArg (·[k]?) hnamed
    simp only [List.getElem?_map, he, Option.map_some] at hk
    exact Option.map_eq_some_iff.mp hk
  have habsorbed : isAbsorbed ds d = isAbsorbed ds e := by
    rw [isAbsorbed_eq_any, isAbsorbed_eq_any, hsame]
  cases hmove : move? ds (e, k) with
  | none =>
    have hstays : isAbsorbed ds e = false := move?_eq_none_iff.mp hmove
    have hmerged : isAbsorbed merged e = isAbsorbed ds e := by
      rw [Bool.eq_iff_iff, isAbsorbed_iff, isAbsorbed_iff, hkeys]
    rw [mergeInto_of_stays (hmerged.trans hstays),
      slotsAt_succ_of_stays hd (habsorbed.trans hstays)]
    rfl
  | some positions =>
    have hmoves : isAbsorbed ds e = true := by
      rw [← Bool.not_eq_false]
      intro hstays
      rw [move?_eq_none_iff.mpr hstays] at hmove
      cases hmove
    obtain ⟨c, hc, hposition⟩ := Option.bind_eq_some_iff.mp hmove
    obtain ⟨t, ht, rfl⟩ := Option.map_eq_some_iff.mp hposition
    have ht' : merged.findIdx? (·.key == ⟨.interface, c.2.extended⟩) = some t := by
      have hfind := congrArg (List.findIdx? (· == ⟨.interface, c.2.extended⟩)) hkeys
      rw [List.findIdx?_map, List.findIdx?_map] at hfind
      exact hfind.trans ht
    have hslot : (slotsAt ds merged k)[k]?.join.bind named? = some c := by
      simp [getElem?_slotsAt, hd, hsame, hc]
    rw [mergeInto_of_named? hc, modifyInterface, modifyFirst_eq_modify ht',
      slotsAt_succ_of_moves hd (habsorbed.trans hmoves), Option.toList_some, List.foldl_cons,
      List.foldl_nil, move, hslot]

/-- Moving categories one after the other is merging them so. -/
theorem foldl_move_slotsAt (before rest : List Declaration) {merged : List Declaration}
    (hds : ds = before ++ rest) (hkeys : merged.map key = ds.map key)
    (hnamed : merged.map named? = ds.map named?) :
    ((rest.zipIdx before.length).filterMap (move? ds)).foldl move
        (slotsAt ds merged before.length) =
      slotsAt ds (rest.foldl mergeInto merged) ds.length := by
  induction rest generalizing before merged with
  | nil => simp [hds]
  | cons e rest ih =>
    have he : ds[before.length]? = some e := by simp [hds]
    have hstep := move_slotsAt hkeys hnamed he
    have hrest := ih (before ++ [e]) (by simp [hds]) ((key_mergeInto merged e).trans hkeys)
      ((map_mergeInto named?_mapInterface merged e).trans hnamed)
    rw [List.length_append, List.length_singleton] at hrest
    rw [List.zipIdx_cons, List.foldl_cons, ← hrest, ← hstep]
    cases hmove : move? ds (e, before.length) with
    | none => rw [List.filterMap_cons_none hmove]; rfl
    | some positions => rw [List.filterMap_cons_some hmove]; rfl

theorem filterMap_slotsAt {merged : List Declaration} {k : Nat} (h : merged.length ≤ k) :
    (slotsAt ds merged k).filterMap id = merged.filter fun d => !isAbsorbed ds d := by
  have hslots : slotsAt ds merged k =
      merged.map fun d => if isAbsorbed ds d then none else some d := by
    refine List.ext_getElem? fun j => ?_
    rw [getElem?_slotsAt, List.getElem?_map]
    cases hj : merged[j]? with
    | none => rfl
    | some d =>
      have hlt : j < k := Nat.lt_of_lt_of_le (List.getElem?_eq_some_iff.mp hj).1 h
      simp [hlt]
  rw [hslots, List.filterMap_map, ← List.filterMap_eq_filter]
  refine List.filterMap_congr fun d _ => ?_
  cases hd : isAbsorbed ds d <;> simp [Option.guard, hd]

/-- What is left in the slots is what merging leaves. -/
theorem moveAll_eq (external : Resolver) (m : Module) :
    moveAll m.declarations = (apply external m).declarations := by
  have hstart : m.declarations.map some = slotsAt m.declarations m.declarations 0 := by
    refine List.ext_getElem? fun j => ?_
    simp [getElem?_slotsAt]
  have hmoves := foldl_move_slotsAt [] m.declarations (List.nil_append _).symm rfl rfl
  rw [List.length_nil, ← hstart] at hmoves
  have hlength : (m.declarations.foldl mergeInto m.declarations).length =
      m.declarations.length := by
    have hkeys := congrArg List.length (key_foldl_mergeInto m.declarations m.declarations)
    simpa using hkeys
  unfold moveAll
  rw [hmoves, filterMap_slotsAt hlength.le]
  rfl

/-! ### No member is lost -/

theorem entries_absorb_perm {name : QualifiedName} {c : Category} (h : d.kind = .interface) :
    (d.mapInterface (·.absorb name c)).entries.Perm (d.entries ++ c.members.entries) := by
  obtain ⟨own, body⟩ := d
  cases body with
  | interface i => exact Members.entries_append_perm i.members c.members
  | _ => cases h

/-- The members of a category are added to those of one interface. -/
theorem entries_mergeInto_perm (h : isAbsorbed ds d = true) :
    ((mergeInto ds d).flatMap entries).Perm (ds.flatMap entries ++ d.entries) := by
  obtain ⟨c, hcategory, hkey⟩ := isAbsorbed_iff.mp h
  obtain ⟨e, he, hkey⟩ := List.mem_map.mp hkey
  have hentries : d.entries = c.members.entries := by
    simp [entries, members?, category?_eq_some_iff.mp hcategory]
  have hmerge : mergeInto ds d = modifyInterface c.extended (·.absorb d.name c) ds := by
    simp [mergeInto, hcategory]
  rw [hmerge, modifyInterface, hentries]
  refine flatMap_modifyFirst_perm ⟨e, he, beq_iff_eq.mpr hkey⟩ fun a ha => ?_
  exact entries_absorb_perm (congrArg DeclKey.kind (beq_iff_eq.mp ha))

theorem entries_foldl_mergeInto_perm (cs ds : List Declaration) :
    ((cs.foldl mergeInto ds).flatMap entries).Perm
      (ds.flatMap entries ++ (cs.filter (isAbsorbed ds)).flatMap entries) := by
  induction cs generalizing ds with
  | nil => simp
  | cons e cs ih =>
    rw [List.foldl_cons]
    refine (ih (mergeInto ds e)).trans ?_
    rw [isAbsorbed_mergeInto]
    cases habsorbed : isAbsorbed ds e with
    | true =>
      rw [List.filter_cons_of_pos habsorbed, List.flatMap_cons, ← List.append_assoc]
      exact (entries_mergeInto_perm habsorbed).append_right _
    | false =>
      rw [List.filter_cons_of_neg (by simp [habsorbed]), mergeInto_of_stays habsorbed]

/-- The categories that are absorbed are as they were. -/
theorem filter_isAbsorbed_foldl (cs ds : List Declaration) :
    (cs.foldl mergeInto ds).filter (isAbsorbed ds) = ds.filter (isAbsorbed ds) := by
  rw [foldl_mergeInto]
  refine filter_mapFirsts (fun d => isAbsorbed_mapInterface ds d _) fun d hd => ?_
  obtain ⟨c, hcategory, -⟩ := isAbsorbed_iff.mp hd
  exact mapInterface_of_kind _ (by simp [kind, category?_eq_some_iff.mp hcategory])

/-- The members of all declarations are the same before and after, with their numbers. -/
theorem entries_apply_perm (external : Resolver) (m : Module) :
    ((apply external m).declarations.flatMap entries).Perm (m.declarations.flatMap entries) := by
  have hfilter := List.filter_append_perm (isAbsorbed m.declarations)
    (m.declarations.foldl mergeInto m.declarations)
  rw [filter_isAbsorbed_foldl] at hfilter
  have hall := (hfilter.flatMap_right entries).trans
    (entries_foldl_mergeInto_perm m.declarations m.declarations)
  rw [List.flatMap_append] at hall
  exact (List.perm_append_left_iff _).mp (hall.trans List.perm_append_comm)

/-! ### Problems and repeated interfaces -/

/-- The interface of a category is neither among the declarations nor outside. -/
def Stray (external : Resolver) (ds : List Declaration) (c : Category) : Prop :=
  ⟨.interface, c.extended⟩ ∉ ds.map key ∧ external ⟨.interface, c.extended⟩ = none

instance (external : Resolver) (ds : List Declaration) : DecidablePred (Stray external ds) :=
  fun _ => inferInstanceAs (Decidable (_ ∧ _))

theorem unresolved?_of_some (external : Resolver) (ds : List Declaration) {c : Category}
    (h : d.category? = some c) :
    unresolved? external ds d =
      if Stray external ds c then
        some (.unresolvedReference ⟨.category, d.name⟩ ⟨.interface, c.extended⟩)
      else none := by
  have hkey : d.key = ⟨.category, d.name⟩ := by
    simp [key, kind, category?_eq_some_iff.mp h]
  have hstray : Stray external ds c ↔ ¬ (declaresInterface ds c.extended = true ∨
      (external ⟨.interface, c.extended⟩).isSome = true) := by
    simp [Stray, declaresInterface]
  unfold unresolved?
  simp only [h, hkey, hstray, ite_not]

/-- One problem is noted for each stray category. -/
theorem filterMap_unresolved? (external : Resolver) (ds : List Declaration) :
    ds.filterMap (unresolved? external ds) =
      ((named ds).filter (Stray external ds ·.2)).map fun c =>
        .unresolvedReference ⟨.category, c.1⟩ ⟨.interface, c.2.extended⟩ := by
  unfold named
  rw [← List.filterMap_eq_map, ← List.filterMap_eq_filter, List.filterMap_filterMap,
    List.filterMap_filterMap]
  refine List.filterMap_congr fun d _ => ?_
  cases hcategory : d.category? with
  | none => simp [unresolved?, named?, hcategory]
  | some c =>
    rw [unresolved?_of_some external ds hcategory]
    by_cases hstray : Stray external ds c
    · simp [named?, hcategory, Option.guard, hstray]
    · simp [named?, hcategory, Option.guard, hstray]

/-- Of each name, the interface that absorbs is the one that is kept. -/
theorem interfaces_withoutRepeated (external : Resolver) (m : Module) :
    (apply external m).withoutRepeated.declarations.filter (·.kind = .interface) =
      (m.withoutRepeated.declarations.filter (·.kind = .interface)).map
        (absorbing m.declarations) := by
  let firsts := distinctBy key []
  let merged := mapFirsts key (absorbing m.declarations) [] m.declarations
  let isInterface : Declaration → Bool := (·.kind = .interface)
  have hkey : ∀ d e : Declaration, d.key = e.key → isInterface d = isInterface e := by
    intro d e h
    have hkind : d.kind = e.kind := congrArg DeclKey.kind h
    simp only [isInterface, hkind]
  have hstays : ∀ d, isInterface d = true → isAbsorbed m.declarations d = false := by
    intro d h
    obtain ⟨name, body⟩ := d
    cases body with
    | interface i => rfl
    | _ => cases h
  have hmerged :
      (apply external m).declarations.filter isInterface = merged.filter isInterface := by
    show ((m.declarations.foldl mergeInto m.declarations).filter _).filter isInterface = _
    rw [foldl_mergeInto, List.filter_filter]
    refine List.filter_congr fun d _ => ?_
    cases h : isInterface d with
    | true => rw [hstays d h]; rfl
    | false => rfl
  calc (firsts (apply external m).declarations).filter isInterface
      = firsts ((apply external m).declarations.filter isInterface) := filter_distinctBy hkey
    _ = firsts (merged.filter isInterface) := by rw [hmerged]
    _ = (firsts merged).filter isInterface := (filter_distinctBy hkey).symm
    _ = ((firsts m.declarations).map (absorbing m.declarations)).filter isInterface :=
        congrArg (List.filter isInterface) (distinctBy_mapFirsts (key_absorbing m.declarations))
    _ = ((firsts m.declarations).filter isInterface).map (absorbing m.declarations) := by
        rw [List.filter_map]
        refine congrArg (List.map _) (List.filter_congr fun d _ => ?_)
        exact hkey _ _ (key_absorbing m.declarations d)

/-- **Merging is exact.** Every declaration has its outcome, in order, and one problem is noted for
each stray category. No member of the module is lost or repeated, and of the interfaces of one name
it is the one that absorbs which is kept when repeated declarations are removed. Moving categories
between slots comes to the same. -/
theorem apply_exact (external : Resolver) (m : Module) :
    (apply external m).name = m.name ∧
      ((apply external m).declarations = m.declarations.zipIdx.filterMap fun p =>
        outcome m.declarations (m.declarations.take p.2) p.1) ∧
      moveAll m.declarations = (apply external m).declarations ∧
      ((apply external m).errors = m.errors ++
        ((named m.declarations).filter (Stray external m.declarations ·.2)).map fun c =>
          .unresolvedReference ⟨.category, c.1⟩ ⟨.interface, c.2.extended⟩) ∧
      ((apply external m).declarations.flatMap entries).Perm (m.declarations.flatMap entries) ∧
      (apply external m).withoutRepeated.declarations.filter (·.kind = .interface) =
        (m.withoutRepeated.declarations.filter (·.kind = .interface)).map
          (absorbing m.declarations) := by
  refine ⟨rfl, declarations_apply external m, moveAll_eq external m, ?_,
    entries_apply_perm external m, interfaces_withoutRepeated external m⟩
  rw [← filterMap_unresolved?]
  rfl

end Categories

end ObjcMetadata
