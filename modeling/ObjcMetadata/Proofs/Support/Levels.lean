import Mathlib.Data.Finset.Card
import ObjcMetadata.Proofs.Support.Soundness
/-!
A search has enough levels.

Only a node with needs takes up a level, and while it is open it is not opened again. So a search
never runs out of levels if it starts with more of them than there are unopened nodes with needs;
then it fails only where it meets a node that cannot be looked at (`visit_error`), and it comes to
the same with even more levels (`visit_levels_eq`).
-/

namespace ObjcMetadata.Support

open Relation

variable {ν : Type} [DecidableEq ν] {demand : ν → Except TypeError (Option (List ν))}

/-- Whether a node is open. -/
def Marks.isOpen (marks : Marks ν) (node : ν) : Bool :=
  match marks.get? node with
  | some (.opened _) => true
  | _ => false

theorem Marks.isOpen_iff {marks : Marks ν} {node : ν} :
    marks.isOpen node = true ↔ ∃ depth, marks.get? node = some (.opened depth) := by
  unfold isOpen
  cases marks.get? node with
  | none => simp
  | some mark => cases mark <;> simp

/-- The nodes of a finite set that are not open. -/
def unopened (nodes : Finset ν) (marks : Marks ν) : Finset ν :=
  nodes.filter fun node => marks.isOpen node = false

theorem Extends.unopened_eq {before after : Marks ν} {pending : List ν}
    (h : Extends before after pending) (nodes : Finset ν) :
    unopened nodes after = unopened nodes before := by
  have hopen : ∀ node, after.isOpen node = before.isOpen node := by
    intro node
    rw [Bool.eq_iff_iff, Marks.isOpen_iff, Marks.isOpen_iff]
    exact exists_congr fun depth => h.opened_iff
  simp only [unopened, hopen]

/-- Opening a node takes it off the unopened ones. -/
theorem card_unopened_set_lt {nodes : Finset ν} {marks : Marks ν} {node : ν} (depth : Nat)
    (hmem : node ∈ nodes) (hnone : marks.get? node = none) :
    (unopened nodes (marks.set node (.opened depth))).card < (unopened nodes marks).card := by
  apply Finset.card_lt_card
  refine Finset.ssubset_iff_of_subset (fun other hother => ?_) |>.mpr ⟨node, ?_, ?_⟩
  · obtain ⟨hnodes, hclosed⟩ := Finset.mem_filter.mp hother
    refine Finset.mem_filter.mpr ⟨hnodes, ?_⟩
    by_cases heq : other = node
    · simp [heq, Marks.isOpen, hnone]
    · simpa [Marks.isOpen, heq] using hclosed
  · exact Finset.mem_filter.mpr ⟨hmem, by simp [Marks.isOpen, hnone]⟩
  · simp [unopened, Marks.isOpen]

theorem visitAll_error {visit : ν → Marks ν → Except TypeError (Visited ν)} {nodes : Finset ν}
    {levels : Nat} {e : TypeError}
    (hextends : ∀ node marks v, visit node marks = .ok v → Extends marks v.marks v.pending)
    (hvisit : ∀ node marks, visit node marks = .error e → (unopened nodes marks).card < levels →
      ∃ other, ReflTransGen (Needs demand) node other ∧ demand other = .error e)
    {needs : List ν} {marks : Marks ν} (h : visitAll visit needs marks = .error e)
    (hlevels : (unopened nodes marks).card < levels) :
    ∃ need ∈ needs, ∃ other, ReflTransGen (Needs demand) need other ∧ demand other = .error e := by
  induction needs generalizing marks with
  | nil => simp [visitAll] at h
  | cons need rest ih =>
    rcases visitAll_error_cases h with hneed | ⟨first, hfirst, hrest⟩
    · exact ⟨need, List.mem_cons_self, hvisit need marks hneed hlevels⟩
    · have hsame := (hextends need marks first hfirst).unopened_eq nodes
      obtain ⟨other, hmem, hfails⟩ := ih hrest (by rw [hsame]; exact hlevels)
      exact ⟨other, List.mem_cons_of_mem need hmem, hfails⟩

/-- **A visit with enough levels fails only where a needed node cannot be looked at.** The nodes
with needs must lie in a finite set, of which fewer may be unopened than there are levels. -/
theorem visit_error {nodes : Finset ν}
    (hnodes : ∀ node need needs, demand node = .ok (some (need :: needs)) → node ∈ nodes)
    {levels depth : Nat} {node : ν} {marks : Marks ν} {e : TypeError}
    (h : visit demand levels depth node marks = .error e)
    (hlevels : (unopened nodes marks).card < levels) :
    ∃ other, ReflTransGen (Needs demand) node other ∧ demand other = .error e := by
  induction levels generalizing depth node marks with
  | zero => exact absurd hlevels (Nat.not_lt_zero _)
  | succ levels ih =>
    rcases visit_error_cases h with hfails | ⟨needs, hnone, hdemand, hneeds⟩
    · exact ⟨node, .refl, hfails⟩
    · cases needs with
      | nil => simp [visitAll] at hneeds
      | cons need rest =>
        have hlt : (unopened nodes (marks.set node (.opened depth))).card < levels := by
          have hfewer := card_unopened_set_lt depth (hnodes node need rest hdemand) hnone
          omega
        obtain ⟨other, hmem, fails, hleads, hfails⟩ :=
          visitAll_error (fun _ _ _ => visit_extends) (fun _ _ => ih) hneeds hlt
        exact ⟨fails, hleads.head ⟨need :: rest, hdemand, hmem⟩, hfails⟩

theorem visitAll_congr {visit visit' : ν → Marks ν → Except TypeError (Visited ν)}
    {nodes : Finset ν} {levels : Nat}
    (hextends : ∀ node marks v, visit node marks = .ok v → Extends marks v.marks v.pending)
    (hvisit : ∀ node marks, (unopened nodes marks).card < levels →
      visit node marks = visit' node marks)
    {needs : List ν} {marks : Marks ν} (hlevels : (unopened nodes marks).card < levels) :
    visitAll visit needs marks = visitAll visit' needs marks := by
  induction needs generalizing marks with
  | nil => rfl
  | cons need rest ih =>
    unfold visitAll
    rw [← hvisit need marks hlevels]
    cases hfirst : visit need marks with
    | error e => rfl
    | ok first =>
      have hrest : (unopened nodes first.marks).card < levels := by
        rw [(hextends need marks first hfirst).unopened_eq nodes]
        exact hlevels
      simp only [ih hrest]

/-- **With enough levels, more of them make no difference.** -/
theorem visit_levels_eq {nodes : Finset ν}
    (hnodes : ∀ node need needs, demand node = .ok (some (need :: needs)) → node ∈ nodes)
    {levels levels' depth : Nat} {node : ν} {marks : Marks ν}
    (hlevels : (unopened nodes marks).card < levels)
    (hlevels' : (unopened nodes marks).card < levels') :
    visit demand levels depth node marks = visit demand levels' depth node marks := by
  induction levels generalizing levels' depth node marks with
  | zero => exact absurd hlevels (Nat.not_lt_zero _)
  | succ levels ih =>
    obtain ⟨levels', rfl⟩ := Nat.exists_eq_succ_of_ne_zero (Nat.ne_zero_of_lt hlevels')
    unfold visit
    cases hmark : marks.get? node with
    | some mark => rfl
    | none =>
      cases hdemand : demand node with
      | error e => rfl
      | ok lacks =>
        cases lacks with
        | none => rfl
        | some needs =>
          cases needs with
          | nil => rfl
          | cons need rest =>
            have hfewer := card_unopened_set_lt depth (hnodes node need rest hdemand) hmark
            have hboth : (unopened nodes (marks.set node (.opened depth))).card <
                min levels levels' := by omega
            have hsame : visitAll (visit demand levels (depth + 1)) (need :: rest)
                  (marks.set node (.opened depth)) =
                visitAll (visit demand levels' (depth + 1)) (need :: rest)
                  (marks.set node (.opened depth)) := by
              refine visitAll_congr (fun _ _ _ => visit_extends)
                (fun other marks' hless => ?_) hboth
              exact ih (Nat.lt_of_lt_of_le hless (Nat.min_le_left _ _))
                (Nat.lt_of_lt_of_le hless (Nat.min_le_right _ _))
            simp only [hsame]

end ObjcMetadata.Support
