import ObjcMetadata.Proofs.Graph.Queue
import ObjcMetadata.Proofs.Stage.Inherited
/-!
What the removal of inherited members keeps.

The `Ancestor`s of a declaration are what its parents resolve to, what the parents of these
resolve to, and so on, whatever loops there are; only its own key is never followed. The pass takes
from each interface and protocol the members that an ancestor has as well, in the same list, keeps
the others in order, and changes nothing else (`apply_eq_map_uninherited`).

The ancestors need not be found in rounds. They can be found with a queue, and members may be
written back only where there are fewer of them than before (`revisedMembers`); this comes to the
same.
-/

namespace ObjcMetadata

/-! ### Some of the members -/

section

variable {P Q : Member → Prop} [DecidablePred P] [DecidablePred Q] {ms : Members}

/-- The members that meet a condition, list by list and in order. -/
def Members.filter (P : Member → Prop) [DecidablePred P] (ms : Members) : Members where
  instanceMethods := ms.instanceMethods.filter fun m => P (.instanceMethod m)
  classMethods := ms.classMethods.filter fun m => P (.classMethod m)
  properties := ms.properties.filter fun p => P (.property p)

theorem Members.filter_congr (h : ∀ x ∈ ms.entries, P x ↔ Q x) : ms.filter P = ms.filter Q := by
  obtain ⟨hinstance, hclass, hproperty⟩ := forall_mem_entries.mp h
  unfold Members.filter
  congr 1
  · exact List.filter_congr fun m hm => decide_eq_decide.mpr (hinstance m hm)
  · exact List.filter_congr fun m hm => decide_eq_decide.mpr (hclass m hm)
  · exact List.filter_congr fun p hp => decide_eq_decide.mpr (hproperty p hp)

theorem Members.filter_eq_self (h : ∀ x ∈ ms.entries, P x) : ms.filter P = ms := by
  rw [filter_congr fun x hx => iff_true_intro (h x hx)]
  simp [Members.filter]

/-- Members of which as many are left are all left. -/
theorem Members.filter_eq_self_of_size (h : (ms.filter P).size = ms.size) : ms.filter P = ms := by
  have hinstance := List.length_filter_le (fun m => P (.instanceMethod m)) ms.instanceMethods
  have hclass := List.length_filter_le (fun m => P (.classMethod m)) ms.classMethods
  have hproperty := List.length_filter_le (fun p => P (.property p)) ms.properties
  simp only [Members.filter, size] at h
  unfold Members.filter
  congr 1
  · exact List.filter_sublist.eq_of_length (by omega)
  · exact List.filter_sublist.eq_of_length (by omega)
  · exact List.filter_sublist.eq_of_length (by omega)

/-- What is left without some sources are the members that none of them has. -/
theorem Inherited.without_eq_filter (sources : List Members) (ms : Members) :
    without sources ms =
      ms.filter fun x => ∀ source ∈ sources, ∀ y ∈ source.entries, x.sameAs y = false := by
  unfold without Members.filter
  congr 1
  · refine List.filter_congr fun m _ => Bool.eq_iff_iff.mpr ?_
    simp [Members.forall_mem_entries, Member.sameAs]
  · refine List.filter_congr fun m _ => Bool.eq_iff_iff.mpr ?_
    simp [Members.forall_mem_entries, Member.sameAs]
  · refine List.filter_congr fun p _ => Bool.eq_iff_iff.mpr ?_
    simp [Members.forall_mem_entries, Member.sameAs]

end

namespace Inherited

open Relation Declaration Lookup

variable {lookup : Lookup} {d e : Declaration} {x : Member}

/-! ### Ancestors -/

/-- A declaration that another one inherits from, directly or not. -/
inductive Ancestor (lookup : Lookup) (d : Declaration) : Declaration → Prop where
  | parent {key : DeclKey} {e : Declaration} :
      key ∈ d.parents → key ≠ d.key → lookup.find? key = some e → Ancestor lookup d e
  | further {key : DeclKey} {e f : Declaration} :
      Ancestor lookup d e → key ∈ e.parents → key ≠ d.key → lookup.find? key = some f →
        Ancestor lookup d f

/-- Ancestors are what paths from the parents lead to that do not follow the declaration itself. -/
theorem ancestor_iff_follows :
    Ancestor lookup d e ↔ ∃ key, key ≠ d.key ∧ lookup.find? key = some e ∧
      ∃ a ∈ d.parents, ReflTransGen (Reach.Follows (lookup.linked parents) [d.key]) a key := by
  constructor
  · intro h
    induction h with
    | parent hparent hne hfind => exact ⟨_, hne, hfind, _, hparent, .refl⟩
    | further _ hparent hne hfind ih =>
      obtain ⟨key, hkey, hfind', a, ha, hleads⟩ := ih
      refine ⟨_, hne, hfind, a, ha, hleads.tail ⟨by simpa using hkey, ?_⟩⟩
      exact mem_linked_iff.mpr ⟨_, hfind', hparent⟩
  · rintro ⟨key, hne, hfind, a, ha, hleads⟩
    induction hleads generalizing e with
    | refl => exact .parent ha hne hfind
    | tail _ hstep ih =>
      obtain ⟨hnot, hlinked⟩ := hstep
      obtain ⟨f, hfind', hparent⟩ := mem_linked_iff.mp hlinked
      exact .further (ih (by simpa using hnot) hfind') hparent hne hfind

theorem mem_reached_iff_ancestor : e ∈ lookup.reached parents d ↔ Ancestor lookup d e := by
  rw [mem_reached_iff, ancestor_iff_follows]

/-- An ancestor has the same member in the same list. -/
def Repeats (lookup : Lookup) (d : Declaration) (x : Member) : Prop :=
  ∃ e, Ancestor lookup d e ∧ e.Provides x

theorem not_repeats_iff :
    ¬ Repeats lookup d x ↔ ∀ e ∈ lookup.reached parents d, ¬ e.Provides x := by
  simp only [Repeats, mem_reached_iff_ancestor, not_exists, not_and]

instance (lookup : Lookup) (d : Declaration) : DecidablePred (Repeats lookup d) := fun x =>
  decidable_of_iff (∃ e ∈ lookup.reached parents d, ∃ y ∈ e.entries, x.sameAs y = true) <|
    exists_congr fun _ => and_congr_left' mem_reached_iff_ancestor

/-! ### What is kept -/

/-- An interface or protocol without the members that an ancestor has too. -/
def uninherited (lookup : Lookup) (d : Declaration) : Declaration :=
  match d.body with
  | .interface i => d.withMembers (i.members.filter fun x => ¬ Repeats lookup d x)
  | .protocol p => d.withMembers (p.members.filter fun x => ¬ Repeats lookup d x)
  | _ => d

theorem without_members (lookup : Lookup) (d : Declaration) (ms : Members) :
    without (members lookup d) ms = ms.filter fun x => ¬ Repeats lookup d x := by
  rw [without_eq_filter]
  exact Members.filter_congr fun x _ => forall_members_iff.trans not_repeats_iff.symm

theorem drop_eq_uninherited (lookup : Lookup) (d : Declaration) :
    drop lookup d = uninherited lookup d := by
  unfold drop uninherited
  cases d.body with
  | interface i => exact congrArg d.withMembers (without_members lookup d i.members)
  | protocol p => exact congrArg d.withMembers (without_members lookup d p.members)
  | _ => rfl

/-! ### Finding ancestors with a queue -/

/-- The ancestors of a declaration in the order of a queue, the nearest first. -/
def ancestorsByQueue (lookup : Lookup) (d : Declaration) : List Declaration :=
  (Reach.search (lookup.linked parents)
    (fun _ hlinked => List.mem_toFinset.mpr (mem_keys_of_linked hlinked)) [d.key]
    d.parents).filterMap lookup.find?

theorem mem_ancestorsByQueue_iff : e ∈ ancestorsByQueue lookup d ↔ Ancestor lookup d e := by
  unfold ancestorsByQueue
  rw [List.mem_filterMap, ancestor_iff_follows]
  refine exists_congr fun key => ?_
  rw [Reach.mem_search_iff, List.mem_singleton]
  tauto

/-- What is left of members without those of some sources, unless all of them are left. -/
def fewer (sources : List Members) (own : Members) : Option Members :=
  if sources.isEmpty then none
  else
    let kept := without sources own
    if kept.size = own.size then none else some kept

theorem fewer_cases (sources : List Members) (own : Members) :
    fewer sources own = some (without sources own) ∨
      fewer sources own = none ∧ without sources own = own := by
  unfold fewer
  by_cases hsize : (without sources own).size = own.size
  · right
    refine ⟨by simp [hsize], ?_⟩
    rw [without_eq_filter] at hsize ⊢
    exact Members.filter_eq_self_of_size hsize
  · left
    have hsources : sources.isEmpty = false := by
      refine Bool.eq_false_iff.mpr fun hempty => hsize ?_
      rw [List.isEmpty_iff.mp hempty]
      simp [without]
    simp [hsources, hsize]

/-- The members that an interface or protocol is to have, if not those that it has. -/
def revisedMembers (lookup : Lookup) (d : Declaration) : Option Members :=
  let inherited := (ancestorsByQueue lookup d).filterMap members?
  match d.body with
  | .interface i => fewer inherited i.members
  | .protocol p => fewer inherited p.members
  | _ => none

/-- A declaration with the members that it is to have. -/
def revised (lookup : Lookup) (d : Declaration) : Declaration :=
  match revisedMembers lookup d with
  | some members => d.withMembers members
  | none => d

/-- The sources that a queue finds are those that rounds find. -/
theorem without_ancestorsByQueue (lookup : Lookup) (d : Declaration) (ms : Members) :
    without ((ancestorsByQueue lookup d).filterMap members?) ms =
      without (members lookup d) ms := by
  rw [without_eq_filter, without_eq_filter]
  refine Members.filter_congr fun x _ => forall_congr' fun source => imp_congr_left ?_
  simp only [members, List.mem_filterMap, mem_ancestorsByQueue_iff, mem_reached_iff_ancestor]

theorem revised_eq_drop (lookup : Lookup) (d : Declaration) : revised lookup d = drop lookup d := by
  -- Where nothing is written back, nothing would have been dropped.
  have hrevised : ∀ own, d.members? = some own →
      revisedMembers lookup d = fewer ((ancestorsByQueue lookup d).filterMap members?) own →
        revised lookup d = d.withMembers (without (members lookup d) own) := by
    intro own hown hfewer
    unfold revised
    rw [hfewer, ← without_ancestorsByQueue]
    rcases fewer_cases ((ancestorsByQueue lookup d).filterMap members?) own with
      hsome | ⟨hnone, hall⟩
    · rw [hsome]
    · rw [hnone, hall, withMembers_of_members? hown]
  unfold drop
  cases hbody : d.body with
  | interface i =>
    exact hrevised i.members (by simp [members?, hbody]) (by simp [revisedMembers, hbody])
  | protocol p =>
    exact hrevised p.members (by simp [members?, hbody]) (by simp [revisedMembers, hbody])
  | _ => simp [revised, revisedMembers, hbody]

/-! ### The pass -/

/-- **The pass keeps of each interface and protocol, in order, the members that no ancestor has**,
and changes nothing else. A key resolves to the first declaration of the module that has it, or else
outside of the module. Finding the ancestors with a queue, and writing members back only where some
are dropped, comes to the same. -/
theorem apply_eq_map_uninherited (cx : Context) (m : Module) :
    apply cx m = { m with declarations := m.declarations.map (uninherited (cx.lookup m)) } ∧
      (∀ key, (cx.lookup m).find? key =
        (m.declarations.find? (·.key == key)).or (cx.external.find? key)) ∧
      { m with declarations := m.declarations.map (revised (cx.lookup m)) } = apply cx m := by
  refine ⟨?_, find?_lookup cx m, ?_⟩
  · unfold apply
    rw [funext (drop_eq_uninherited (cx.lookup m))]
  · unfold apply
    rw [funext (revised_eq_drop (cx.lookup m))]

end Inherited

end ObjcMetadata
