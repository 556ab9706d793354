/-!
Reachability in a graph given by its successors.

The set of nodes found so far grows by rounds: a round takes the candidates that are new, adds
them, and makes their successors the next candidates. A round that adds something is either the
first or follows one that added a node with successors, so one round more than there are nodes with
successors is enough; this bound is what `extend` takes.
-/

namespace ObjcMetadata.Reach

variable {α : Type} [DecidableEq α]

/-- The candidates that are not in `seen`, each once, in the order of their first occurrence. -/
def fresh (seen : List α) : List α → List α
  | [] => []
  | a :: rest => if a ∈ seen then fresh seen rest else a :: fresh (a :: seen) rest

theorem mem_fresh {seen candidates : List α} {a : α} :
    a ∈ fresh seen candidates ↔ a ∈ candidates ∧ a ∉ seen := by
  induction candidates generalizing seen with
  | nil => simp [fresh]
  | cons c rest ih =>
    unfold fresh
    by_cases hc : c ∈ seen
    · rw [if_pos hc, ih, List.mem_cons]
      constructor
      · exact fun h => ⟨.inr h.1, h.2⟩
      · rintro ⟨rfl | h, ha⟩
        · exact absurd hc ha
        · exact ⟨h, ha⟩
    · rw [if_neg hc, List.mem_cons, ih, List.mem_cons, List.mem_cons]
      by_cases hac : a = c
      · simp [hac, hc]
      · simp [hac]

/-- Adds to `seen` the candidates and what is reachable from the new ones, in at most `rounds`
rounds. Nothing is followed from a node that is already in `seen`. -/
def extend (next : α → List α) : (rounds : Nat) → (seen candidates : List α) → List α
  | 0, seen, _ => seen
  | rounds + 1, seen, candidates =>
    match fresh seen candidates with
    | [] => seen
    | new => extend next rounds (new ++ seen) (new.flatMap next)

/-- A path of successors, possibly empty, leads from `a` to `b`. -/
inductive Reaches (next : α → List α) : α → α → Prop where
  | refl (a : α) : Reaches next a a
  | step {a b c : α} : b ∈ next a → Reaches next b c → Reaches next a c

end ObjcMetadata.Reach
