import ObjcMetadata.Proofs.Support.Extension
/-!
A search evaluates no node twice.

That marks are also taken away does not matter for this. A search loses marks only when it closes a
node as unsupported, and then it opens nothing more: the verdict on every node that is still open is
no as well. So whatever a visit evaluates had no mark before, and as long as the verdict is yes it
has one afterwards (`visit_once`). A visit at depth zero leaves nothing pending
(`pending_eq_nil_of_outermost`), since there is no depth above it to rely on.
-/

namespace ObjcMetadata.Support

variable {ν : Type} [DecidableEq ν] {demand : ν → Except TypeError (Option (List ν))}
  {node : ν} {marks : Marks ν} {v : Visited ν}

/-- Each node is evaluated at most once, and only without a mark; with a positive verdict it has a
mark in the end. -/
structure Once (marks : Marks ν) (v : Visited ν) : Prop where
  nodup : v.evaluated.Nodup
  unmarked : ∀ node ∈ v.evaluated, marks.get? node = none
  marked : v.verdict.isSupported → ∀ node ∈ v.evaluated, v.marks.get? node ≠ none

/-- What one search evaluates is marked when the next one begins, which hence does not evaluate it
again. -/
theorem Once.append {first others : Visited ν} {low : Option Nat} (pending : List ν)
    (hfirst : Once marks first) (hothers : Once first.marks others)
    (hextends : Extends marks first.marks first.pending)
    (hextends' : Extends first.marks others.marks others.pending)
    (hverdict : first.verdict = .supported low) :
    Once marks ⟨others.verdict.relyingOn low, pending, others.evaluated ++ first.evaluated,
      others.marks⟩ where
  nodup := by
    refine List.nodup_append.mpr ⟨hothers.nodup, hfirst.nodup, ?_⟩
    rintro a hothers' b hfirst' rfl
    exact hfirst.marked (by rw [hverdict]; rfl) a hfirst' (hothers.unmarked a hothers')
  unmarked node hmem := by
    rcases List.mem_append.mp hmem with hmem | hmem
    · have hnone := hothers.unmarked node hmem
      cases hmark : marks.get? node with
      | none => rfl
      | some mark => rw [hextends.keeps node mark hmark] at hnone; exact hnone
    · exact hfirst.unmarked node hmem
  marked hsupported node hmem := by
    rcases List.mem_append.mp hmem with hmem | hmem
    · refine hothers.marked ?_ node hmem
      cases hv : others.verdict with
      | unsupported => simp [hv, Verdict.relyingOn, Verdict.isSupported] at hsupported
      | supported low' => rfl
    · obtain ⟨mark, hmark⟩ := Option.ne_none_iff_exists'.mp
        (hfirst.marked (by rw [hverdict]; rfl) node hmem)
      simp [hextends'.keeps node mark hmark]

/-- A node is not evaluated again while it is open. -/
theorem Once.close {depth : Nat} {needs : Visited ν} (hnone : marks.get? node = none)
    (h : Once (marks.set node (.opened depth)) needs) :
    Once marks (close node depth needs) := by
  have hevaluated : (Support.close node depth needs).evaluated = node :: needs.evaluated := by
    rcases verdict_cases needs depth with hv | ⟨low, hv, hlow⟩ | ⟨low, hv, hlt⟩
    · rw [close_of_unsupported hv]
    · rw [close_of_settled hv hlow]
    · rw [close_of_pending hv hlt]
  have hother : ∀ other ∈ needs.evaluated, other ≠ node ∧ marks.get? other = none := by
    intro other hmem
    have hunmarked := h.unmarked other hmem
    rw [Marks.get?_set] at hunmarked
    by_cases heq : other = node
    · simp [heq] at hunmarked
    · exact ⟨heq, by simpa [heq] using hunmarked⟩
  constructor
  · rw [hevaluated]
    exact List.nodup_cons.mpr ⟨fun hmem => (hother node hmem).1 rfl, h.nodup⟩
  · intro other hmem
    rcases List.mem_cons.mp (hevaluated ▸ hmem) with rfl | hmem
    · exact hnone
    · exact (hother other hmem).2
  · intro hsupported other hmem
    rw [hevaluated] at hmem
    rcases verdict_cases needs depth with hv | ⟨low, hv, hlow⟩ | ⟨low, hv, hlt⟩
    · simp [close_of_unsupported hv, Verdict.isSupported] at hsupported
    · rw [close_of_settled hv hlow, Marks.get?_set, Marks.get?_settleAll]
      rcases List.mem_cons.mp hmem with rfl | hmem
      · simp
      · have hmarked := h.marked (by rw [hv]; rfl) other hmem
        split_ifs <;> simp [hmarked]
    · rw [close_of_pending hv hlt, Marks.get?_set]
      rcases List.mem_cons.mp hmem with rfl | hmem
      · simp
      · have hmarked := h.marked (by rw [hv]; rfl) other hmem
        split_ifs <;> simp [hmarked]

theorem visitAll_once {visit : ν → Marks ν → Except TypeError (Visited ν)}
    (hextends : ∀ node marks v, visit node marks = .ok v → Extends marks v.marks v.pending)
    (hvisit : ∀ node marks v, visit node marks = .ok v → Once marks v)
    {nodes : List ν} (h : visitAll visit nodes marks = .ok v) : Once marks v := by
  induction nodes generalizing marks v with
  | nil =>
    simp only [visitAll, Except.ok.injEq] at h
    subst h
    exact ⟨List.nodup_nil, by simp, by simp⟩
  | cons node rest ih =>
    obtain ⟨first, hfirst, ⟨-, rfl⟩ | ⟨low, others, hverdict, hothers, rfl⟩⟩ :=
      visitAll_cons_cases h
    · exact hvisit node marks _ hfirst
    · exact Once.append _ (hvisit node marks first hfirst) (ih hothers)
        (hextends node marks first hfirst) (visitAll_extends hextends hothers) hverdict

/-- **A visit evaluates no node twice**, from whatever marks. -/
theorem visit_once {levels depth : Nat} (h : visit demand levels depth node marks = .ok v) :
    Once marks v := by
  induction levels generalizing depth node marks v with
  | zero => simp [visit] at h
  | succ levels ih =>
    rcases visit_cases h with ⟨mark, -, rfl⟩ | ⟨hnone, -, rfl⟩ |
      ⟨below, needs, visited, hbelow, hnone, -, hvisited, rfl⟩
    · exact ⟨List.nodup_nil, by simp, by simp⟩
    · exact ⟨by simp, by simpa using hnone, by simp [Verdict.isSupported]⟩
    · obtain rfl : levels = below := Nat.succ.inj hbelow
      exact .close hnone (visitAll_once (fun _ _ _ => visit_extends) (fun _ _ _ => ih) hvisited)

/-- A visit at depth zero relies on nothing above it. -/
theorem pending_eq_nil_of_outermost {levels : Nat} (h : visit demand levels 0 node marks = .ok v) :
    v.pending = [] := by
  rcases visit_cases h with ⟨mark, -, rfl⟩ | ⟨-, -, rfl⟩ |
    ⟨below, needs, visited, -, -, -, -, rfl⟩
  · rfl
  · rfl
  · rcases verdict_cases visited 0 with hv | ⟨low, hv, hlow⟩ | ⟨low, hv, hlt⟩
    · rw [close_of_unsupported hv]
    · rw [close_of_settled hv hlow]
    · exact absurd hlt (Nat.not_lt_zero low)

end ObjcMetadata.Support
