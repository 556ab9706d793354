import ObjcMetadata.Proofs.Graph.Reach
/-!
Searching a graph with a queue.

The first node of the queue is dropped if it has been visited. Otherwise it is visited, and its
successors go to the back of the queue. This comes to an end: a visit to a node with successors
leaves one such node less to visit, and everything else makes the queue shorter. The nodes visited
are those that the queue leads to by paths that follow no node visited before (`mem_search_iff`),
which are the nodes that a search by rounds adds.
-/

namespace ObjcMetadata.Reach

open Relation

variable {α : Type} [DecidableEq α] {next : α → List α} {nodes : Finset α} {visited queue : List α}
  {a b : α}

/-! ### Visits -/

theorem unseen_cons_subset (nodes : Finset α) (a : α) (visited : List α) :
    unseen nodes (a :: visited) ⊆ unseen nodes visited := by
  refine Finset.monotone_filter_right nodes fun node _ hnode => ?_
  exact fun hmem => hnode (List.mem_cons_of_mem a hmem)

theorem card_unseen_cons_lt (ha : a ∈ nodes) (hnew : a ∉ visited) :
    (unseen nodes (a :: visited)).card < (unseen nodes visited).card := by
  refine Finset.card_lt_card ?_
  rw [Finset.ssubset_iff_of_subset (unseen_cons_subset nodes a visited)]
  exact ⟨a, Finset.mem_filter.mpr ⟨ha, hnew⟩, by simp [unseen]⟩

/-- The nodes that are visited when a queue is worked off, in the order of the visits. All nodes
with successors are in the finite set `nodes`. -/
def search (next : α → List α) (hnodes : ∀ node, next node ≠ [] → node ∈ nodes)
    (visited : List α) : (queue : List α) → List α
  | [] => []
  | a :: queue =>
    if a ∈ visited then search next hnodes visited queue
    else a :: search next hnodes (a :: visited) (queue ++ next a)
termination_by queue => ((unseen nodes visited).card, queue.length)
decreasing_by
  · exact Prod.Lex.right _ (Nat.lt_succ_self _)
  · next hnew =>
    -- A node without successors need not be in `nodes`; its visit only makes the queue shorter.
    by_cases hnext : next a = []
    · rcases (Finset.card_le_card (unseen_cons_subset nodes a visited)).lt_or_eq with hless | heq
      · exact Prod.Lex.left _ _ hless
      · rw [heq, hnext, List.append_nil]
        exact Prod.Lex.right _ (Nat.lt_succ_self _)
    · exact Prod.Lex.left _ _ (card_unseen_cons_lt (hnodes a hnext) hnew)

/-! ### What is visited -/

omit [DecidableEq α] in
/-- No path leads on from a node that has been visited. -/
theorem eq_of_follows (ha : a ∈ visited) (h : ReflTransGen (Follows next visited) a b) : b = a := by
  rcases h.cases_head with rfl | ⟨c, hstep, -⟩
  · rfl
  · exact absurd ha hstep.1

omit [DecidableEq α] in
theorem follows_of_append (new : List α)
    (h : ReflTransGen (Follows next (new ++ visited)) a b) :
    ReflTransGen (Follows next visited) a b := by
  have hless : Follows next (new ++ visited) ≤ Follows next visited :=
    fun _ _ hstep => ⟨fun hmem => hstep.1 (List.mem_append_right new hmem), hstep.2⟩
  exact ReflTransGen.mono hless a b h

/-- A path that does without some nodes, or else it comes to one of them and leads on from there
without them for good. -/
theorem follows_append_or (h : ReflTransGen (Follows next visited) a b) (new : List α) :
    (b ∉ new ∧ ReflTransGen (Follows next (new ++ visited)) a b) ∨
      ∃ c ∈ new, b = c ∨
        b ∉ new ∧ ∃ d ∈ next c, ReflTransGen (Follows next (new ++ visited)) d b := by
  induction h with
  | refl =>
    by_cases ha : a ∈ new
    · exact .inr ⟨a, ha, .inl rfl⟩
    · exact .inl ⟨ha, .refl⟩
  | @tail u v _ hstep ih =>
    by_cases hv : v ∈ new
    · exact .inr ⟨v, hv, .inl rfl⟩
    have hfollows (hu : u ∉ new) : Follows next (new ++ visited) u v :=
      ⟨fun hmem => (List.mem_append.mp hmem).elim hu hstep.1, hstep.2⟩
    rcases ih with ⟨hu, hleads⟩ | ⟨c, hc, rfl | ⟨hu, d, hd, hleads⟩⟩
    · exact .inl ⟨hv, hleads.tail (hfollows hu)⟩
    · exact .inr ⟨u, hc, .inr ⟨hv, v, hstep.2, .refl⟩⟩
    · exact .inr ⟨c, hc, .inr ⟨hv, d, hd, hleads.tail (hfollows hu)⟩⟩

omit [DecidableEq α] in
/-- Nothing new is come to from a node that has been visited. -/
theorem leads_skip_iff (hold : a ∈ visited) :
    (b ∉ visited ∧ ∃ c ∈ a :: queue, ReflTransGen (Follows next visited) c b) ↔
      b ∉ visited ∧ ∃ c ∈ queue, ReflTransGen (Follows next visited) c b := by
  refine and_congr_right fun hb => ⟨?_, ?_⟩
  · rintro ⟨c, hc, hleads⟩
    rcases List.mem_cons.mp hc with rfl | hc
    · exact absurd (eq_of_follows hold hleads ▸ hold) hb
    · exact ⟨c, hc, hleads⟩
  · rintro ⟨c, hc, hleads⟩
    exact ⟨c, List.mem_cons_of_mem a hc, hleads⟩

/-- What is come to when a node is visited and its successors wait with the others, wherever they
are put. -/
theorem leads_visit_iff {pending : List α} (hnew : a ∉ visited)
    (hpending : ∀ c, c ∈ pending ↔ c ∈ queue ∨ c ∈ next a) :
    (b ∉ visited ∧ ∃ c ∈ a :: queue, ReflTransGen (Follows next visited) c b) ↔
      b = a ∨ b ∉ a :: visited ∧
        ∃ c ∈ pending, ReflTransGen (Follows next (a :: visited)) c b := by
  rw [List.mem_cons, not_or]
  constructor
  · rintro ⟨hb, c, hc, hleads⟩
    rcases follows_append_or hleads [a] with ⟨hba, hleads⟩ | ⟨c', hc', hleads⟩
    · rw [List.mem_singleton] at hba
      refine .inr ⟨⟨hba, hb⟩, c, (hpending c).mpr (.inl ?_), hleads⟩
      refine List.mem_of_ne_of_mem (fun heq => ?_) hc
      exact hba (eq_of_follows List.mem_cons_self (heq ▸ hleads))
    · obtain rfl := List.mem_singleton.mp hc'
      rcases hleads with rfl | ⟨hba, d, hd, hleads⟩
      · exact .inl rfl
      · rw [List.mem_singleton] at hba
        exact .inr ⟨⟨hba, hb⟩, d, (hpending d).mpr (.inr hd), hleads⟩
  · rintro (rfl | ⟨⟨-, hb⟩, c, hc, hleads⟩)
    · exact ⟨hnew, b, List.mem_cons_self, .refl⟩
    · have hleads : ReflTransGen (Follows next visited) c b := follows_of_append [a] hleads
      refine ⟨hb, ?_⟩
      rcases (hpending c).mp hc with hc | hc
      · exact ⟨c, List.mem_cons_of_mem a hc, hleads⟩
      · exact ⟨a, List.mem_cons_self, hleads.head ⟨hnew, hc⟩⟩

/-- **The nodes visited** are those, not visited before, that the queue leads to without following
a node visited before. -/
theorem mem_search_iff {hnodes : ∀ node, next node ≠ [] → node ∈ nodes} :
    b ∈ search next hnodes visited queue ↔
      b ∉ visited ∧ ∃ a ∈ queue, ReflTransGen (Follows next visited) a b := by
  -- Both sides change alike at each node of the queue. After a visit, the paths that used to follow
  -- the node start from its successors, which are in the queue by then.
  fun_induction search next hnodes visited queue with
  | case1 visited => simp
  | case2 visited a queue hold ih => rw [ih, leads_skip_iff hold]
  | case3 visited a queue hnew ih =>
    rw [List.mem_cons, ih]
    exact (leads_visit_iff hnew fun c => List.mem_append).symm

end ObjcMetadata.Reach
