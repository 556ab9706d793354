import ObjcMetadata.Proofs.Support.Levels
/-!
The marks between two searches.

A search that begins with nothing open ends with nothing open and hence with nothing pending
(`visit_atRest`): all its marks are settled, and the verdict on the visited node is the settled one.
That a node is settled as unsupported is right. Whether all that is settled as supported is right
can be read off the marks: it is so exactly if they are `Closed`, which is to say that what is
settled as supported needs only what is settled as supported (`AtRest.closed_iff`). A search with a
positive verdict keeps closed marks closed. One with a negative verdict need not.
-/

namespace ObjcMetadata.Support

open Relation

variable {ν : Type} [DecidableEq ν] {demand : ν → Except TypeError (Option (List ν))}

namespace Marks

/-- All marks are settled, and they are sound if whatever is doomed may be lost. -/
structure AtRest (demand : ν → Except TypeError (Option (List ν))) (marks : Marks ν) : Prop where
  settled : ∀ node mark, marks.get? node = some mark → ∃ supported, mark = .settled supported
  sound : marks.Sound demand (Doomed demand)

/-- What is settled as supported needs only what is settled as supported. -/
def Closed (demand : ν → Except TypeError (Option (List ν))) (marks : Marks ν) : Prop :=
  ∀ a b, marks.settled? a = some true → Needs demand a b → marks.settled? b = some true

theorem atRest_nil : AtRest demand ([] : Marks ν) :=
  ⟨fun node mark h => by simp [get?] at h, sound_nil⟩

theorem closed_nil : Closed demand ([] : Marks ν) :=
  fun a b h => by simp [settled?, get?] at h

variable {marks : Marks ν}

theorem AtRest.doomed (h : marks.AtRest demand) {node : ν}
    (hnode : marks.settled? node = some false) : Doomed demand node :=
  h.sound.doomed node (settled?_eq_some_iff.mp hnode)

theorem AtRest.demand_eq (h : marks.AtRest demand) {node : ν}
    (hnode : marks.settled? node = some true) : ∃ needs, demand node = .ok (some needs) := by
  obtain ⟨needs, hdemand, -⟩ := h.sound.needs node (.inl (settled?_eq_some_iff.mp hnode))
  exact ⟨needs, hdemand⟩

theorem AtRest.settled?_of_favours (h : marks.AtRest demand) {node : ν}
    (hnode : marks.Favours node) : marks.settled? node = some true := by
  obtain ⟨mark, hmark, hsupported⟩ := hnode
  obtain ⟨supported, rfl⟩ := h.settled node mark hmark
  cases supported with
  | false => cases hsupported
  | true => exact settled?_eq_some_iff.mpr hmark

/-- Closed marks are right about what is supported. -/
theorem AtRest.not_doomed (h : marks.AtRest demand) (hclosed : marks.Closed demand) {node : ν}
    (hnode : marks.settled? node = some true) : ¬ Doomed demand node := by
  rintro ⟨last, hleads, hlacks⟩
  have hlast : marks.settled? last = some true := by
    clear hlacks
    induction hleads with
    | refl => exact hnode
    | tail _ hneeds ih => exact hclosed _ _ ih hneeds
  obtain ⟨needs, hdemand⟩ := h.demand_eq hlast
  rw [hlacks] at hdemand
  cases hdemand

/-- **Marks at rest are right about what is supported exactly if they are closed.** -/
theorem AtRest.closed_iff (h : marks.AtRest demand) :
    marks.Closed demand ↔ ∀ node, marks.settled? node = some true → ¬ Doomed demand node := by
  constructor
  · intro hclosed node hnode
    exact h.not_doomed hclosed hnode
  · intro hright a b ha hb
    have hnot : ¬ Doomed demand b := fun hdoomed => hright a ha (.of_leads (.single hb) hdoomed)
    obtain ⟨needs, hdemand, hneeds⟩ := h.sound.needs a (.inl (settled?_eq_some_iff.mp ha))
    obtain ⟨needs', hdemand', hmem⟩ := hb
    have hsame : needs = needs' := Option.some.inj (Except.ok.inj (hdemand.symm.trans hdemand'))
    exact h.settled?_of_favours ((hneeds b (hsame ▸ hmem)).resolve_right hnot)

/-- Closed marks have lost nothing. -/
theorem AtRest.sound_of_closed (h : marks.AtRest demand) (hclosed : marks.Closed demand) :
    marks.Sound demand fun _ => False where
  doomed := h.sound.doomed
  needs node hnode := by
    obtain ⟨needs, hdemand, -⟩ := h.sound.needs node hnode
    refine ⟨needs, hdemand, fun need hmem => .inl ?_⟩
    have htrue := h.settled?_of_favours hnode.favours
    have hneed := hclosed node need htrue ⟨needs, hdemand, hmem⟩
    exact ⟨_, settled?_eq_some_iff.mp hneed, rfl⟩
  pending := h.sound.pending

/-- Marks at rest that have lost nothing are closed. -/
theorem AtRest.closed_of_sound (h : marks.AtRest demand) (hs : marks.Sound demand fun _ => False) :
    marks.Closed demand := by
  intro a b ha hb
  obtain ⟨needs, hdemand, hneeds⟩ := hs.needs a (.inl (settled?_eq_some_iff.mp ha))
  obtain ⟨needs', hdemand', hmem⟩ := hb
  have hsame : needs = needs' := Option.some.inj (Except.ok.inj (hdemand.symm.trans hdemand'))
  exact h.settled?_of_favours ((hneeds b (hsame ▸ hmem)).resolve_right not_false)

end Marks

/-! ### Searches that begin at rest -/

/-- What a search that begins at rest comes to. -/
structure Answered (demand : ν → Except TypeError (Option (List ν))) (node : ν) (marks : Marks ν)
    (v : Visited ν) : Prop where
  atRest : v.marks.AtRest demand
  keeps : ∀ other supported, marks.settled? other = some supported →
    v.marks.settled? other = some supported
  answer : v.marks.settled? node = some v.verdict.isSupported
  closed : v.verdict.isSupported → marks.Closed demand → v.marks.Closed demand

/-- A node that is called unsupported is settled as such at once. -/
theorem get?_of_unsupported {levels depth : Nat} {node : ν} {marks : Marks ν} {v : Visited ν}
    (h : visit demand levels depth node marks = .ok v) (hv : v.verdict = .unsupported) :
    v.marks.get? node = some (.settled false) := by
  rcases visit_cases h with ⟨mark, hmark, rfl⟩ | ⟨-, -, rfl⟩ |
    ⟨below, needs, visited, -, -, -, -, rfl⟩
  · cases mark with
    | opened depth => cases hv
    | pending low => cases hv
    | settled supported =>
      cases supported with
      | false => exact hmark
      | true => cases hv
  · simp
  · rcases verdict_cases visited depth with hneeds | ⟨low, hneeds, hlow⟩ | ⟨low, hneeds, hlt⟩
    · simp [close_of_unsupported hneeds]
    · simp [close_of_settled hneeds hlow] at hv
    · simp [close_of_pending hneeds hlt] at hv

/-- **A search that begins at rest ends at rest**, with a settled verdict on the node. -/
theorem visit_atRest {levels depth : Nat} {node : ν} {marks : Marks ν} {v : Visited ν}
    (h : visit demand levels depth node marks = .ok v) (hrest : marks.AtRest demand) :
    Answered demand node marks v := by
  have hext := visit_extends h
  have hopen : ∀ head depth, marks.get? head ≠ some (.opened depth) := by
    intro head depth hhead
    obtain ⟨supported, heq⟩ := hrest.settled head _ hhead
    cases heq
  obtain ⟨hsound, hfound⟩ := visit_found h hrest.sound
    (fun head depth hhead => absurd hhead (hopen head depth))
    fun _ other hdoomed => hdoomed
  have hrest' : v.marks.AtRest demand := by
    refine ⟨fun other mark hmark => ?_, hsound⟩
    cases mark with
    | opened depth => exact absurd (hext.opened_iff.mp hmark) (hopen other depth)
    | pending low =>
      obtain ⟨head, depth', -, hhead, -⟩ := hsound.pending other low hmark
      exact absurd (hext.opened_iff.mp hhead) (hopen head depth')
    | settled supported => exact ⟨supported, rfl⟩
  refine ⟨hrest', ?_, ?_, ?_⟩
  · intro other supported hother
    rw [Marks.settled?_eq_some_iff] at hother ⊢
    exact hext.keeps other _ hother
  · cases hverdict : v.verdict with
    | unsupported => exact Marks.settled?_eq_some_iff.mpr (get?_of_unsupported h hverdict)
    | supported low =>
      exact hrest'.settled?_of_favours
        (hfound.favoured (by rw [hverdict]; rfl) node (List.mem_singleton_self node))
  · intro hsupported hclosed
    refine hrest'.closed_of_sound (visit_found h (hrest.sound_of_closed hclosed)
      (fun head depth hhead => absurd hhead (hopen head depth)) fun hunsupported => ?_).1
    rw [hunsupported] at hsupported
    cases hsupported

end ObjcMetadata.Support
