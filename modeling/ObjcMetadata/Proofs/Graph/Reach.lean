import Mathlib.Data.Finset.Max
import Mathlib.Logic.Relation
import ObjcMetadata.Graph.Reach
/-!
What growing a set of nodes by rounds finds.

A round that makes new candidates uses up a node with successors that was not seen before. So with
more rounds than there are such nodes, it does not matter how many more there are
(`extend_rounds_eq`), and what is found is what was seen and all that is reachable from the
candidates without following a node that was seen (`mem_extend_iff`). Where the successors of what
was seen have been seen too, that is all that is reachable (`mem_extend_iff_of_closed`). Paths that
never end among finitely many nodes come to a loop (`exists_recurrent`).
-/

namespace ObjcMetadata.Reach

open Relation

variable {α : Type} [DecidableEq α] {next : α → List α} {rounds rounds' : Nat}
  {seen candidates : List α} {a b : α}

/-! ### Rounds -/

theorem extend_nil (next : α → List α) (rounds : Nat) (seen : List α) :
    extend next rounds seen [] = seen := by
  cases rounds <;> rfl

/-- A round adds what is new and goes on with its successors. -/
theorem extend_succ (next : α → List α) (rounds : Nat) (seen candidates : List α) :
    extend next (rounds + 1) seen candidates =
      extend next rounds (fresh seen candidates ++ seen)
        ((fresh seen candidates).flatMap next) := by
  rw [extend]
  split
  · next hnone => rw [hnone, List.flatMap_nil, extend_nil, List.nil_append]
  · next new hnew => rfl

theorem subset_extend : seen ⊆ extend next rounds seen candidates := by
  induction rounds generalizing seen candidates with
  | zero => exact List.Subset.refl seen
  | succ rounds ih =>
    rw [extend_succ]
    exact List.Subset.trans (List.subset_append_right _ seen) ih

theorem nodup_fresh (seen candidates : List α) : (fresh seen candidates).Nodup := by
  induction candidates generalizing seen with
  | nil => exact List.nodup_nil
  | cons c rest ih =>
    unfold fresh
    split
    · exact ih seen
    · exact List.nodup_cons.mpr ⟨fun hmem => (mem_fresh.mp hmem).2 List.mem_cons_self, ih _⟩

theorem nodup_extend (h : seen.Nodup) : (extend next rounds seen candidates).Nodup := by
  induction rounds generalizing seen candidates with
  | zero => exact h
  | succ rounds ih =>
    rw [extend_succ]
    exact ih ((nodup_fresh seen candidates).append h fun _ hnew => (mem_fresh.mp hnew).2)

/-- The nodes of a finite set that have not been seen. -/
def unseen (nodes : Finset α) (seen : List α) : Finset α :=
  nodes.filter fun node => node ∉ seen

/-- A round that makes new candidates sees one more node with successors. -/
theorem card_unseen_lt {nodes : Finset α} (hnodes : ∀ node, next node ≠ [] → node ∈ nodes)
    (hnext : (fresh seen candidates).flatMap next ≠ []) :
    (unseen nodes (fresh seen candidates ++ seen)).card < (unseen nodes seen).card := by
  obtain ⟨b, hb⟩ := List.exists_mem_of_ne_nil _ hnext
  obtain ⟨a, ha, hab⟩ := List.mem_flatMap.mp hb
  obtain ⟨-, hnew⟩ := mem_fresh.mp ha
  apply Finset.card_lt_card
  refine Finset.ssubset_iff_of_subset (fun node hnode => ?_) |>.mpr ⟨a, ?_, ?_⟩
  · obtain ⟨hmem, hunseen⟩ := Finset.mem_filter.mp hnode
    exact Finset.mem_filter.mpr ⟨hmem, fun h => hunseen (List.mem_append_right _ h)⟩
  · exact Finset.mem_filter.mpr ⟨hnodes a (List.ne_nil_of_mem hab), hnew⟩
  · simp [unseen, ha]

/-- **With enough rounds, more of them make no difference.** -/
theorem extend_rounds_eq {nodes : Finset α} (hnodes : ∀ node, next node ≠ [] → node ∈ nodes)
    (hrounds : (unseen nodes seen).card < rounds) (hrounds' : (unseen nodes seen).card < rounds') :
    extend next rounds seen candidates = extend next rounds' seen candidates := by
  induction rounds generalizing rounds' seen candidates with
  | zero => exact absurd hrounds (Nat.not_lt_zero _)
  | succ rounds ih =>
    obtain ⟨rounds', rfl⟩ := Nat.exists_eq_succ_of_ne_zero (Nat.ne_zero_of_lt hrounds')
    rw [Nat.succ_eq_add_one, extend_succ, extend_succ]
    by_cases hnext : (fresh seen candidates).flatMap next = []
    · rw [hnext, extend_nil, extend_nil]
    · have hless := card_unseen_lt hnodes hnext
      exact ih (by omega) (by omega)

/-! ### What is found -/

/-- A step of the search, from a node that was not seen. -/
def Follows (next : α → List α) (seen : List α) (a b : α) : Prop :=
  a ∉ seen ∧ b ∈ next a

theorem follows_of_mem_extend (h : b ∈ extend next rounds seen candidates) :
    b ∈ seen ∨ ∃ a ∈ candidates, ReflTransGen (Follows next seen) a b := by
  induction rounds generalizing seen candidates with
  | zero => exact .inl h
  | succ rounds ih =>
    rw [extend_succ] at h
    rcases ih h with hmem | ⟨c, hc, hleads⟩
    · rcases List.mem_append.mp hmem with hnew | hseen
      · exact .inr ⟨b, (mem_fresh.mp hnew).1, .refl⟩
      · exact .inl hseen
    · obtain ⟨a, ha, hac⟩ := List.mem_flatMap.mp hc
      obtain ⟨hcandidate, hunseen⟩ := mem_fresh.mp ha
      refine .inr ⟨a, hcandidate, ReflTransGen.head ⟨hunseen, hac⟩ ?_⟩
      have hfewer : Follows next (fresh seen candidates ++ seen) ≤ Follows next seen :=
        fun x y hxy => ⟨fun hmem => hxy.1 (List.mem_append_right _ hmem), hxy.2⟩
      exact ReflTransGen.mono hfewer c b hleads

theorem candidates_subset_extend (hrounds : 0 < rounds) :
    candidates ⊆ extend next rounds seen candidates := by
  obtain ⟨rounds, rfl⟩ := Nat.exists_eq_succ_of_ne_zero (Nat.ne_zero_of_lt hrounds)
  intro a ha
  rw [Nat.succ_eq_add_one, extend_succ]
  refine subset_extend ?_
  by_cases hseen : a ∈ seen
  · exact List.mem_append_right _ hseen
  · exact List.mem_append_left _ (mem_fresh.mpr ⟨ha, hseen⟩)

/-- With enough rounds, the successors of all that is found are found. -/
theorem mem_extend_of_follows {nodes : Finset α} (hnodes : ∀ node, next node ≠ [] → node ∈ nodes)
    (hrounds : (unseen nodes seen).card < rounds) (ha : a ∈ extend next rounds seen candidates)
    (hab : Follows next seen a b) : b ∈ extend next rounds seen candidates := by
  induction rounds generalizing seen candidates with
  | zero => exact absurd hrounds (Nat.not_lt_zero _)
  | succ rounds ih =>
    obtain ⟨hunseen, hb⟩ := hab
    rw [extend_succ] at ha ⊢
    by_cases hnext : (fresh seen candidates).flatMap next = []
    · rw [hnext, extend_nil] at ha
      rcases List.mem_append.mp ha with hnew | hseen
      · exact absurd (List.mem_flatMap.mpr ⟨a, hnew, hb⟩) (hnext ▸ List.not_mem_nil)
      · exact absurd hseen hunseen
    · have hless := card_unseen_lt hnodes hnext
      by_cases hnew : a ∈ fresh seen candidates
      · exact candidates_subset_extend (by omega) (List.mem_flatMap.mpr ⟨a, hnew, hb⟩)
      · refine ih (by omega) ha ⟨fun hmem => ?_, hb⟩
        exact (List.mem_append.mp hmem).elim hnew hunseen

/-- **With enough rounds, the search finds what was seen, and all that is reachable from the
candidates without following a node that was seen.** -/
theorem mem_extend_iff {nodes : Finset α} (hnodes : ∀ node, next node ≠ [] → node ∈ nodes)
    (hrounds : (unseen nodes seen).card < rounds) :
    b ∈ extend next rounds seen candidates ↔
      b ∈ seen ∨ ∃ a ∈ candidates, ReflTransGen (Follows next seen) a b := by
  constructor
  · exact follows_of_mem_extend
  · rintro (hseen | ⟨a, ha, hleads⟩)
    · exact subset_extend hseen
    · induction hleads with
      | refl => exact candidates_subset_extend (Nat.zero_lt_of_lt hrounds) ha
      | tail _ hstep ih => exact mem_extend_of_follows hnodes hrounds ih hstep

/-! ### Paths -/

omit [DecidableEq α] in
/-- A path that ends elsewhere leaves its start for good. -/
theorem exists_leaving {r : α → α → Prop} (h : ReflTransGen r a b) :
    b = a ∨ ∃ c, r a c ∧ ReflTransGen (fun u v => u ≠ a ∧ r u v) c b := by
  induction h with
  | refl => exact .inl rfl
  | @tail u v _ hstep ih =>
    right
    by_cases hu : u = a
    · exact ⟨v, hu ▸ hstep, .refl⟩
    · obtain ⟨c, hc, hleads⟩ := ih.resolve_left hu
      exact ⟨c, hc, hleads.tail ⟨hu, hstep⟩⟩

omit [DecidableEq α] in
/-- Where paths can always go on to another of finitely many nodes, they come to one that all paths
from it lead back to. -/
theorem exists_recurrent {r : α → α → Prop} {P : α → Prop} (nodes : Finset α)
    (hnodes : ∀ a, P a → a ∈ nodes) {start : α} (hstart : P start)
    (hnext : ∀ a, ReflTransGen r start a → P a → ∃ b, TransGen r a b ∧ P b) :
    ∃ a, ReflTransGen r start a ∧ P a ∧ ∀ b, TransGen r a b → P b → TransGen r b a := by
  classical
  -- Among the nodes that are come to, take one from which the fewest are.
  let later (a : α) : Finset α := nodes.filter fun b => TransGen r a b ∧ P b
  have hlater : ∀ a b, b ∈ later a ↔ TransGen r a b ∧ P b := by
    intro a b
    simp only [later, Finset.mem_filter, and_iff_right_iff_imp]
    exact fun h => hnodes b h.2
  let reached : Finset α := nodes.filter fun a => ReflTransGen r start a ∧ P a
  have hreached : ∀ a, a ∈ reached ↔ ReflTransGen r start a ∧ P a := by
    intro a
    simp only [reached, Finset.mem_filter, and_iff_right_iff_imp]
    exact fun h => hnodes a h.2
  obtain ⟨low, hlow, hfewest⟩ := reached.exists_min_image (fun a => (later a).card)
    ⟨start, (hreached start).mpr ⟨.refl, hstart⟩⟩
  obtain ⟨hleads, hP⟩ := (hreached low).mp hlow
  have hsame : ∀ b ∈ later low, later b = later low := by
    intro b hb
    obtain ⟨hlb, hPb⟩ := (hlater low b).mp hb
    refine Finset.eq_of_subset_of_card_le (fun c hc => ?_) ?_
    · obtain ⟨hbc, hPc⟩ := (hlater b c).mp hc
      exact (hlater low c).mpr ⟨hlb.trans hbc, hPc⟩
    · exact hfewest b ((hreached b).mpr ⟨hleads.trans hlb.to_reflTransGen, hPb⟩)
  obtain ⟨a, hla, hPa⟩ := hnext low hleads hP
  have ha := (hlater low a).mpr ⟨hla, hPa⟩
  refine ⟨a, hleads.trans hla.to_reflTransGen, hPa, fun b hab hPb => ?_⟩
  have hb := (hlater a b).mpr ⟨hab, hPb⟩
  rw [hsame a ha] at hb
  rw [← hsame b hb] at ha
  exact ((hlater b a).mp ha).1

/-! ### Seen sets that are closed -/

omit [DecidableEq α] in
theorem reaches_iff : Reaches next a b ↔ ReflTransGen (fun x y => y ∈ next x) a b := by
  constructor
  · intro h
    induction h with
    | refl a => exact .refl
    | step hb _ ih => exact ih.head hb
  · intro h
    induction h using ReflTransGen.head_induction_on with
    | refl => exact .refl b
    | head hstep _ ih => exact .step hstep ih

omit [DecidableEq α] in
theorem Reaches.trans {c : α} (h : Reaches next a b) (h' : Reaches next b c) :
    Reaches next a c :=
  reaches_iff.mpr ((reaches_iff.mp h).trans (reaches_iff.mp h'))

/-- A path ends in a closed set, or it follows no node of the set. -/
theorem follows_or_mem_of_reaches (hseen : ∀ a ∈ seen, ∀ b ∈ next a, b ∈ seen)
    (h : Reaches next a b) : b ∈ seen ∨ ReflTransGen (Follows next seen) a b := by
  induction reaches_iff.mp h with
  | refl => exact .inr .refl
  | @tail c d hleads hstep ih =>
    rcases ih (reaches_iff.mpr hleads) with hmem | hfollows
    · exact .inl (hseen c hmem d hstep)
    · by_cases hmem : c ∈ seen
      · exact .inl (hseen c hmem d hstep)
      · exact .inr (hfollows.tail ⟨hmem, hstep⟩)

/-- Where the successors of what was seen have been seen too, nothing is missed by not following
it. -/
theorem leads_iff_of_closed (hseen : ∀ a ∈ seen, ∀ b ∈ next a, b ∈ seen) :
    (b ∈ seen ∨ ∃ a ∈ candidates, ReflTransGen (Follows next seen) a b) ↔
      b ∈ seen ∨ ∃ a ∈ candidates, Reaches next a b := by
  constructor
  · refine Or.imp_right ?_
    rintro ⟨a, ha, hfollows⟩
    have hless : Follows next seen ≤ fun x y => y ∈ next x := fun _ _ hstep => hstep.2
    exact ⟨a, ha, reaches_iff.mpr (ReflTransGen.mono hless a b hfollows)⟩
  · rintro (hmem | ⟨a, ha, hreaches⟩)
    · exact .inl hmem
    · exact (follows_or_mem_of_reaches hseen hreaches).imp_right fun hfollows => ⟨a, ha, hfollows⟩

/-- **With enough rounds, a search that begins with a closed set finds all that is reachable from
the candidates.** -/
theorem mem_extend_iff_of_closed {nodes : Finset α}
    (hnodes : ∀ node, next node ≠ [] → node ∈ nodes)
    (hrounds : (unseen nodes seen).card < rounds) (hseen : ∀ a ∈ seen, ∀ b ∈ next a, b ∈ seen) :
    b ∈ extend next rounds seen candidates ↔ b ∈ seen ∨ ∃ a ∈ candidates, Reaches next a b :=
  (mem_extend_iff hnodes hrounds).trans (leads_iff_of_closed hseen)

end ObjcMetadata.Reach
