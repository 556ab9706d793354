import Mathlib.Tactic.SplitIfs
import ObjcMetadata.Support.Search
/-!
A search only adds marks.

While a node is open its mark may still change, and what is pending may still be settled or
forgotten. None of this reaches beyond the search that opened the node: a node that has a mark when
a visit begins has the same mark when it ends (`visit_extends`), and a mark that the visit adds is
settled, unless the visit reports the node as pending. In particular the same nodes are open before
and after (`Extends.opened_iff`).
-/

namespace ObjcMetadata.Support

variable {ν : Type} [DecidableEq ν] {demand : ν → Except TypeError (Option (List ν))}

/-- How the marks after a search relate to those before it. -/
structure Extends (before after : Marks ν) (pending : List ν) : Prop where
  keeps : ∀ node mark, before.get? node = some mark → after.get? node = some mark
  settles : ∀ node mark, before.get? node = none → after.get? node = some mark →
    (∃ supported, mark = .settled supported) ∨ node ∈ pending
  pending : ∀ node ∈ pending,
    before.get? node = none ∧ ∃ low, after.get? node = some (.pending low)

namespace Extends

theorem refl (marks : Marks ν) : Extends marks marks [] where
  keeps _ _ h := h
  settles node mark hnone h := by simp [hnone] at h
  pending node h := by simp at h

theorem trans {a b c : Marks ν} {p q : List ν} (h : Extends a b p) (h' : Extends b c q) :
    Extends a c (q ++ p) where
  keeps node mark ha := h'.keeps node mark (h.keeps node mark ha)
  settles node mark ha hc := by
    cases hb : b.get? node with
    | none =>
      rcases h'.settles node mark hb hc with hsettled | hmem
      · exact .inl hsettled
      · exact .inr (List.mem_append_left p hmem)
    | some mark' =>
      have heq : mark' = mark := Option.some.inj ((h'.keeps node mark' hb).symm.trans hc)
      rcases h.settles node mark' ha hb with hsettled | hmem
      · exact .inl (heq ▸ hsettled)
      · exact .inr (List.mem_append_right q hmem)
  pending node hmem := by
    rcases List.mem_append.mp hmem with hq | hp
    · obtain ⟨hb, hlow⟩ := h'.pending node hq
      refine ⟨?_, hlow⟩
      cases ha : a.get? node with
      | none => rfl
      | some mark => rw [h.keeps node mark ha] at hb; exact hb
    · obtain ⟨ha, low, hb⟩ := h.pending node hp
      exact ⟨ha, low, h'.keeps node _ hb⟩

/-- A node is open after the search exactly when it was so before. -/
theorem opened_iff {before after : Marks ν} {pending : List ν} (h : Extends before after pending)
    {node : ν} {depth : Nat} :
    after.get? node = some (.opened depth) ↔ before.get? node = some (.opened depth) := by
  constructor
  · intro hafter
    cases hbefore : before.get? node with
    | none =>
      rcases h.settles node _ hbefore hafter with ⟨supported, heq⟩ | hmem
      · cases heq
      · obtain ⟨-, low, hlow⟩ := h.pending node hmem
        rw [hafter] at hlow
        cases hlow
    | some mark => exact (h.keeps node mark hbefore).symm.trans hafter
  · exact h.keeps node _

/-- A pending mark that the search does not report is older than the search. -/
theorem pending_before {before after : Marks ν} {pending : List ν}
    (h : Extends before after pending) {node : ν} {low : Nat}
    (hafter : after.get? node = some (.pending low)) (hnew : node ∉ pending) :
    before.get? node = some (.pending low) := by
  cases hbefore : before.get? node with
  | none =>
    rcases h.settles node _ hbefore hafter with ⟨supported, heq⟩ | hmem
    · cases heq
    · exact absurd hmem hnew
  | some mark => exact (h.keeps node mark hbefore).symm.trans hafter

end Extends

/-! ### Closing and visiting -/

theorem extends_set_settled {marks : Marks ν} {node : ν} {supported : Bool}
    (hnone : marks.get? node = none) : Extends marks (marks.set node (.settled supported)) [] where
  keeps other mark h := by
    have hne : other ≠ node := by
      rintro rfl
      simp [hnone] at h
    rw [Marks.get?_set, if_neg hne]
    exact h
  settles other mark hbefore hafter := by
    rw [Marks.get?_set] at hafter
    by_cases heq : other = node
    · rw [if_pos heq] at hafter
      exact .inl ⟨supported, (Option.some.inj hafter).symm⟩
    · rw [if_neg heq, hbefore] at hafter
      cases hafter
  pending other h := by simp at h

/-- Closing a node leaves no trace of its having been open. -/
theorem extends_close {node : ν} {depth : Nat} {marks : Marks ν} {needs : Visited ν}
    (hnone : marks.get? node = none)
    (h : Extends (marks.set node (.opened depth)) needs.marks needs.pending) :
    Extends marks (close node depth needs).marks (close node depth needs).pending := by
  have hbefore : ∀ other mark, marks.get? other = some mark →
      other ≠ node ∧ other ∉ needs.pending ∧ needs.marks.get? other = some mark := by
    intro other mark hother
    have hne : other ≠ node := by
      rintro rfl
      simp [hnone] at hother
    have hopened : (marks.set node (.opened depth)).get? other = some mark := by
      rw [Marks.get?_set, if_neg hne]
      exact hother
    refine ⟨hne, fun hmem => ?_, h.keeps other mark hopened⟩
    rw [(h.pending other hmem).1] at hopened
    cases hopened
  have hafter : ∀ other mark, marks.get? other = none → other ≠ node → other ∉ needs.pending →
      needs.marks.get? other = some mark → ∃ supported, mark = .settled supported := by
    intro other mark hother hne hnew hmark
    have hopened : (marks.set node (.opened depth)).get? other = none := by
      rw [Marks.get?_set, if_neg hne]
      exact hother
    exact (h.settles other mark hopened hmark).resolve_right hnew
  rcases verdict_cases needs depth with hverdict | ⟨low, hverdict, hlow⟩ | ⟨low, hverdict, hlt⟩
  · rw [close_of_unsupported hverdict]
    constructor
    · intro other mark hother
      obtain ⟨hne, hnew, hkept⟩ := hbefore other mark hother
      simp [Marks.get?_eraseAll, hne, hnew, hkept]
    · intro other mark hother hmark
      rw [Marks.get?_set, Marks.get?_eraseAll] at hmark
      split_ifs at hmark with heq hmem
      · exact .inl ⟨false, (Option.some.inj hmark).symm⟩
      · exact .inl (hafter other mark hother heq hmem hmark)
    · simp
  · rw [close_of_settled hverdict hlow]
    constructor
    · intro other mark hother
      obtain ⟨hne, hnew, hkept⟩ := hbefore other mark hother
      simp [Marks.get?_settleAll, hne, hnew, hkept]
    · intro other mark hother hmark
      rw [Marks.get?_set, Marks.get?_settleAll] at hmark
      split_ifs at hmark with heq hmem
      · exact .inl ⟨true, (Option.some.inj hmark).symm⟩
      · exact .inl ⟨true, (Option.some.inj hmark).symm⟩
      · exact .inl (hafter other mark hother heq hmem hmark)
    · simp
  · rw [close_of_pending hverdict hlt]
    constructor
    · intro other mark hother
      obtain ⟨hne, -, hkept⟩ := hbefore other mark hother
      simp [hne, hkept]
    · intro other mark hother hmark
      rw [Marks.get?_set] at hmark
      by_cases heq : other = node
      · exact .inr (heq ▸ List.mem_cons_self)
      · rw [if_neg heq] at hmark
        by_cases hmem : other ∈ needs.pending
        · exact .inr (List.mem_cons_of_mem _ hmem)
        · exact .inl (hafter other mark hother heq hmem hmark)
    · intro other hmem
      rcases List.mem_cons.mp hmem with rfl | hmem
      · exact ⟨hnone, low, by simp⟩
      · obtain ⟨hopened, low', hlow'⟩ := h.pending other hmem
        have hne : other ≠ node := by
          rintro rfl
          simp at hopened
        rw [Marks.get?_set, if_neg hne] at hopened
        exact ⟨hopened, low', by simp [hne, hlow']⟩

theorem visitAll_extends {visit : ν → Marks ν → Except TypeError (Visited ν)}
    (hvisit : ∀ node marks v, visit node marks = .ok v → Extends marks v.marks v.pending)
    {nodes : List ν} {marks : Marks ν} {v : Visited ν} (h : visitAll visit nodes marks = .ok v) :
    Extends marks v.marks v.pending := by
  induction nodes generalizing marks v with
  | nil =>
    simp only [visitAll, Except.ok.injEq] at h
    subst h
    exact .refl marks
  | cons node rest ih =>
    obtain ⟨first, hfirst, ⟨-, rfl⟩ | ⟨low, others, -, hothers, rfl⟩⟩ := visitAll_cons_cases h
    · exact hvisit node marks _ hfirst
    · exact (hvisit node marks first hfirst).trans (ih hothers)

/-- **A visit only adds marks**: those that are there stay, and it leaves no node open that was not
open before. -/
theorem visit_extends {levels depth : Nat} {node : ν} {marks : Marks ν} {v : Visited ν}
    (h : visit demand levels depth node marks = .ok v) : Extends marks v.marks v.pending := by
  induction levels generalizing depth node marks v with
  | zero => simp [visit] at h
  | succ levels ih =>
    rcases visit_cases h with ⟨mark, -, rfl⟩ | ⟨hnone, -, rfl⟩ |
      ⟨below, needs, visited, hbelow, hnone, -, hvisited, rfl⟩
    · exact .refl marks
    · exact extends_set_settled hnone
    · obtain rfl : levels = below := Nat.succ.inj hbelow
      exact extends_close hnone (visitAll_extends (fun _ _ _ => ih) hvisited)

end ObjcMetadata.Support
