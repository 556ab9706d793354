import ObjcMetadata.Proofs.Graph.Queue
import ObjcMetadata.Proofs.Stage.Removal
/-!
The search for a surviving base, one base after the other.

The search climbs the chain of bases (`chain`), in whatever graph of bases a lookup spans, and it
has no bound of its own: a round ends it or follows one more base (`Climb.round`). It comes to an
end because a base is followed only from a name to be removed that was not seen before. So no more
bases are followed than there are names to be removed (`Climb.exists_ends`), and the answer is that
of `survivingBase`, whose steps are enough (`Climb.Ends.survivingBaseFrom_eq`).

On the chain, the answer is the first name that stays. There is none if the chain ends before it
comes to such a name, or if it comes to a name again: from then on it only repeats names to be
removed (`mem_of_repeat`).
-/

namespace ObjcMetadata.Removal

open Relation Reach

variable {names : List QualifiedName} {resolve : Resolver} {start last : QualifiedName}

/-! ### The chain of bases -/

/-- The base that a name resolves to, if it resolves to an interface with a base. -/
def baseOf? (resolve : Resolver) (name : QualifiedName) : Option QualifiedName :=
  (resolve ⟨.interface, name⟩).bind Declaration.base?

theorem baseOf?_eq_none_iff {name : QualifiedName} :
    baseOf? resolve name = none ↔ resolve ⟨.interface, name⟩ = none ∨
      ∃ d, resolve ⟨.interface, name⟩ = some d ∧ d.base? = none := by
  unfold baseOf?
  cases resolve ⟨.interface, name⟩ <;> simp

/-- The name that a number of bases lead to from a name, if there are that many. -/
def chain (resolve : Resolver) (start : QualifiedName) : Nat → Option QualifiedName
  | 0 => some start
  | k + 1 => (chain resolve start k).bind (baseOf? resolve)

/-- A chain may be taken up where it has come to. -/
theorem chain_add (resolve : Resolver) (start : QualifiedName) (j k : Nat) :
    chain resolve start (j + k) = (chain resolve start j).bind (chain resolve · k) := by
  induction k with
  | zero => simp [chain]
  | succ k ih =>
    rw [← Nat.add_assoc, chain, ih, Option.bind_assoc]
    rfl

/-- What comes after two places of a chain with one name is the same. -/
theorem chain_add_eq {i k : Nat} (h : chain resolve start i = chain resolve start k) (m : Nat) :
    chain resolve start (i + m) = chain resolve start (k + m) := by
  rw [chain_add, h, ← chain_add]

/-- The chain passes a number of names, and they are all to be removed. -/
def Passes (names : List QualifiedName) (resolve : Resolver) (start : QualifiedName) (k : Nat) :
    Prop :=
  ∀ i < k, ∃ a ∈ names, chain resolve start i = some a

theorem Passes.succ {k : Nat} (h : Passes names resolve start k)
    (hk : ∃ a ∈ names, chain resolve start k = some a) : Passes names resolve start (k + 1) := by
  intro i hi
  rcases Nat.lt_succ_iff_lt_or_eq.mp hi with hi | rfl
  · exact h i hi
  · exact hk

/-- A chain that repeats a name to be removed never comes to any other. -/
theorem mem_of_repeat {i k : Nat} (hik : i < k) (h : Passes names resolve start k)
    (hrepeat : chain resolve start i = chain resolve start k) (m : Nat) :
    ∃ a ∈ names, chain resolve start m = some a := by
  induction m using Nat.strongRecOn with
  | ind m ih =>
    rcases Nat.lt_or_ge m k with hm | hm
    · exact h m hm
    · -- Behind the repetition, the chain is where it was before.
      obtain ⟨n, rfl⟩ := Nat.exists_eq_add_of_le hm
      rw [← chain_add_eq hrepeat]
      exact ih (i + n) (Nat.add_lt_add_right hik n)

/-- The chain passes names to be removed up to one more of them, and there it ends or has been
before. -/
structure DeadEnd (names : List QualifiedName) (resolve : Resolver) (start : QualifiedName)
    (k : Nat) (name : QualifiedName) : Prop where
  current : chain resolve start k = some name
  mem : name ∈ names
  passes : Passes names resolve start k
  ends : baseOf? resolve name = none ∨ ∃ i < k, chain resolve start i = some name

/-- A chain with a dead end comes to no name that stays. -/
theorem DeadEnd.mem_of_chain {k m : Nat} {name : QualifiedName}
    (h : DeadEnd names resolve start k name) (hlast : chain resolve start m = some last) :
    last ∈ names := by
  rcases h.ends with hnone | ⟨i, hi, hrepeat⟩
  · rcases Nat.lt_trichotomy m k with hm | rfl | hm
    · obtain ⟨a, ha, hname⟩ := h.passes m hm
      cases hlast.symm.trans hname
      exact ha
    · cases hlast.symm.trans h.current
      exact h.mem
    · obtain ⟨n, rfl⟩ := Nat.exists_eq_add_of_le (Nat.succ_le_of_lt hm)
      rw [chain_add, chain, h.current, Option.bind_some, hnone] at hlast
      cases hlast
  · obtain ⟨a, ha, hname⟩ := mem_of_repeat hi h.passes (hrepeat.trans h.current.symm) m
    cases hlast.symm.trans hname
    exact ha

/-- Climbing leads to what the chain comes to behind names to be removed. -/
theorem leads_iff_chain :
    ReflTransGen (Climbs names resolve) start last ↔
      ∃ k, chain resolve start k = some last ∧ Passes names resolve start k := by
  constructor
  · intro hleads
    induction hleads with
    | refl => exact ⟨0, rfl, nofun⟩
    | @tail current base _ hclimbs ih =>
      obtain ⟨k, hcurrent, hpasses⟩ := ih
      refine ⟨k + 1, ?_, hpasses.succ ⟨current, hclimbs.1, hcurrent⟩⟩
      rw [chain, hcurrent]
      exact hclimbs.2
  · rintro ⟨k, hlast, hpasses⟩
    induction k generalizing last with
    | zero =>
      cases hlast
      exact .refl
    | succ k ih =>
      obtain ⟨current, hmem, hcurrent⟩ := hpasses k (Nat.lt_succ_self k)
      rw [chain, hcurrent] at hlast
      have hleads := ih hcurrent fun i hi => hpasses i (Nat.lt_succ_of_lt hi)
      exact hleads.tail ⟨hmem, hlast⟩

/-- The surviving base is the first name on the chain that stays. -/
theorem survivingBase_eq_some_iff_chain :
    survivingBase names resolve start = some last ↔
      ∃ k, chain resolve start k = some last ∧ last ∉ names ∧ Passes names resolve start k := by
  rw [survivingBase_eq_some_iff, leads_iff_chain, ← exists_and_left]
  exact exists_congr fun k => and_left_comm

/-! ### The rounds of the search -/

/-- Where the search stands. -/
structure Climb where
  seen : List QualifiedName
  current : QualifiedName

namespace Climb

variable {c next : Climb} {n k : Nat} {answer : Option QualifiedName}

/-- A round of the search: the answer, or where the search stands after following a base. -/
def round (names : List QualifiedName) (resolve : Resolver) (c : Climb) :
    Option QualifiedName ⊕ Climb :=
  if c.current ∉ names then .inl (some c.current)
  else if c.current ∈ c.seen then .inl none
  else
    match baseOf? resolve c.current with
    | none => .inl none
    | some base => .inr ⟨c.current :: c.seen, base⟩

/-- The search ends with an answer after following a number of bases. -/
inductive Ends (names : List QualifiedName) (resolve : Resolver) :
    Climb → Nat → Option QualifiedName → Prop where
  | stop {c : Climb} {answer : Option QualifiedName} :
      c.round names resolve = .inl answer → Ends names resolve c 0 answer
  | follow {c next : Climb} {n : Nat} {answer : Option QualifiedName} :
      c.round names resolve = .inr next → Ends names resolve next n answer →
      Ends names resolve c (n + 1) answer

/-- A base is followed only from a new name that is to be removed. -/
theorem round_eq_inr_iff :
    c.round names resolve = .inr next ↔
      c.current ∈ names ∧ c.current ∉ c.seen ∧
        ∃ base, baseOf? resolve c.current = some base ∧ next = ⟨c.current :: c.seen, base⟩ := by
  unfold round
  split_ifs with hnames hseen
  · simp [hseen]
  · cases baseOf? resolve c.current <;> simp [hnames, hseen, eq_comm]
  · simp [hnames]

/-- The search answers with a name that stays. It answers with none at a name to be removed that it
has seen before or that leads no further. -/
theorem round_eq_inl (h : c.round names resolve = .inl answer) :
    c.current ∉ names ∧ answer = some c.current ∨
      c.current ∈ names ∧ answer = none ∧
        (c.current ∈ c.seen ∨ baseOf? resolve c.current = none) := by
  unfold round at h
  split_ifs at h with hnames hseen
  · exact .inr ⟨hnames, (Sum.inl.inj h).symm, .inl hseen⟩
  · cases hbase : baseOf? resolve c.current with
    | none =>
      rw [hbase] at h
      exact .inr ⟨hnames, (Sum.inl.inj h).symm, .inr rfl⟩
    | some base =>
      rw [hbase] at h
      cases h
  · exact .inl ⟨hnames, (Sum.inl.inj h).symm⟩

/-- Following a base leaves one name less to follow a base from. -/
theorem card_unseen_round_lt (h : c.round names resolve = .inr next) :
    (unseen names.toFinset next.seen).card < (unseen names.toFinset c.seen).card := by
  obtain ⟨hmem, hnew, base, -, rfl⟩ := round_eq_inr_iff.mp h
  exact card_unseen_cons_lt (List.mem_toFinset.mpr hmem) hnew

/-- **The search ends.** It follows at most as many bases as there are names to be removed that it
has not seen. -/
theorem exists_ends (names : List QualifiedName) (resolve : Resolver) (c : Climb) :
    ∃ n ≤ (unseen names.toFinset c.seen).card, ∃ answer, Ends names resolve c n answer := by
  induction hcard : (unseen names.toFinset c.seen).card using Nat.strongRecOn generalizing c with
  | ind card ih =>
    cases hround : c.round names resolve with
    | inl answer => exact ⟨0, Nat.zero_le card, answer, .stop hround⟩
    | inr next =>
      have hless := hcard ▸ card_unseen_round_lt hround
      obtain ⟨n, hn, answer, hends⟩ := ih _ hless next rfl
      exact ⟨n + 1, Nat.lt_of_le_of_lt hn hless, answer, .follow hround hends⟩

/-- A bounded search goes through a round with each of its steps. -/
theorem survivingBaseFrom_succ (names : List QualifiedName) (resolve : Resolver) (steps : Nat)
    (c : Climb) :
    survivingBaseFrom names resolve (steps + 1) c.seen c.current =
      (c.round names resolve).elim id fun next =>
        survivingBaseFrom names resolve steps next.seen next.current := by
  rw [survivingBaseFrom, round]
  split_ifs
  · rfl
  · unfold baseOf?
    cases (resolve ⟨.interface, c.current⟩).bind Declaration.base? <;> rfl
  · rfl

/-- With more steps than bases are followed, bounding the search makes no difference. -/
theorem Ends.survivingBaseFrom_eq {steps : Nat} (h : Ends names resolve c n answer)
    (hsteps : n < steps) : survivingBaseFrom names resolve steps c.seen c.current = answer := by
  induction h generalizing steps with
  | stop hstop =>
    obtain ⟨steps, rfl⟩ := Nat.exists_eq_add_one.mpr hsteps
    rw [survivingBaseFrom_succ, hstop, Sum.elim_inl, id]
  | follow hfollow _ ih =>
    obtain ⟨steps, rfl⟩ := Nat.exists_eq_add_one.mpr (Nat.zero_lt_of_lt hsteps)
    rw [survivingBaseFrom_succ, hfollow, Sum.elim_inr]
    exact ih (Nat.lt_of_succ_lt_succ hsteps)

/-- The search ends in one way only. -/
theorem Ends.unique {n' : Nat} {answer' : Option QualifiedName}
    (h : Ends names resolve c n answer) (h' : Ends names resolve c n' answer') :
    n = n' ∧ answer = answer' := by
  induction h generalizing n' with
  | stop hstop =>
    cases h' with
    | stop hstop' => exact ⟨rfl, Sum.inl.inj (hstop.symm.trans hstop')⟩
    | follow hfollow => cases hstop.symm.trans hfollow
  | follow hfollow _ ih =>
    cases h' with
    | stop hstop => cases hfollow.symm.trans hstop
    | follow hfollow' hends =>
      cases hfollow.symm.trans hfollow'
      obtain ⟨rfl, rfl⟩ := ih hends
      exact ⟨rfl, rfl⟩

/-! ### Where the search stands on the chain -/

/-- The search has come to a place on the chain, and it has seen the names before. -/
structure At (names : List QualifiedName) (resolve : Resolver) (start : QualifiedName) (k : Nat)
    (c : Climb) : Prop where
  current : chain resolve start k = some c.current
  passes : Passes names resolve start k
  seen : ∀ a ∈ c.seen, ∃ i < k, chain resolve start i = some a

theorem at_start : At names resolve start 0 ⟨[], start⟩ where
  current := rfl
  passes := nofun
  seen := nofun

theorem At.round (h : At names resolve start k c) (hround : c.round names resolve = .inr next) :
    At names resolve start (k + 1) next := by
  obtain ⟨hmem, -, base, hbase, rfl⟩ := round_eq_inr_iff.mp hround
  constructor
  case current => rw [chain, h.current, Option.bind_some, hbase]
  case passes => exact h.passes.succ ⟨c.current, hmem, h.current⟩
  case seen =>
    intro a ha
    rcases List.mem_cons.mp ha with rfl | ha
    · exact ⟨k, Nat.lt_succ_self k, h.current⟩
    · obtain ⟨i, hi, hname⟩ := h.seen a ha
      exact ⟨i, Nat.lt_succ_of_lt hi, hname⟩

/-- Without an answer, the search ends at a dead end of the chain. -/
theorem Ends.exists_deadEnd (h : Ends names resolve c n none) (hat : At names resolve start k c) :
    ∃ k name, DeadEnd names resolve start k name := by
  generalize hanswer : (none : Option QualifiedName) = answer at h
  induction h generalizing k with
  | stop hstop =>
    cases hanswer
    rcases round_eq_inl hstop with ⟨-, hsome⟩ | ⟨hmem, -, hend⟩
    · cases hsome
    · exact ⟨k, _, hat.current, hmem, hat.passes, (hend.imp_left (hat.seen _)).symm⟩
  | follow hfollow _ ih => exact ih (hat.round hfollow) hanswer

end Climb

/-! ### The answer of the search -/

/-- The search ends with the surviving base, or with none, after following no more bases than there
are names to be removed. -/
theorem Climb.exists_ends_survivingBase (names : List QualifiedName) (resolve : Resolver)
    (start : QualifiedName) :
    ∃ n ≤ names.toFinset.card,
      Climb.Ends names resolve ⟨[], start⟩ n (survivingBase names resolve start) := by
  obtain ⟨n, hn, answer, hends⟩ := Climb.exists_ends names resolve ⟨[], start⟩
  have hcard : n ≤ names.toFinset.card := Nat.le_trans hn (Finset.card_filter_le _ _)
  have hsteps : n < names.length + 1 :=
    Nat.lt_succ_of_le (Nat.le_trans hcard (List.toFinset_card_le names))
  obtain rfl : survivingBase names resolve start = answer := hends.survivingBaseFrom_eq hsteps
  exact ⟨n, hcard, hends⟩

/-- There is no surviving base just if the chain has a dead end. -/
theorem survivingBase_eq_none_iff_deadEnd :
    survivingBase names resolve start = none ↔ ∃ k name, DeadEnd names resolve start k name := by
  constructor
  · intro hnone
    obtain ⟨n, -, hends⟩ := Climb.exists_ends_survivingBase names resolve start
    rw [hnone] at hends
    exact hends.exists_deadEnd Climb.at_start
  · rintro ⟨k, name, hend⟩
    refine Option.eq_none_iff_forall_ne_some.mpr fun last hlast => ?_
    obtain ⟨m, hchain, hstays, -⟩ := survivingBase_eq_some_iff_chain.mp hlast
    exact hstays (hend.mem_of_chain hchain)

/-- **The search for a surviving base** ends. It follows no more bases than there are names to be
removed, and it comes to the answer of `survivingBase` in one way only. The answer is the first name
on the chain that stays. There is none just if the chain passes names to be removed, up to one that
is not resolved, that has no base or that the chain has passed before. -/
theorem survivingBase_exact (names : List QualifiedName) (resolve : Resolver)
    (start : QualifiedName) :
    (∃ n ≤ names.toFinset.card, ∀ bases answer,
      Climb.Ends names resolve ⟨[], start⟩ bases answer ↔
        bases = n ∧ answer = survivingBase names resolve start) ∧
    (∀ last, survivingBase names resolve start = some last ↔
      ∃ k, chain resolve start k = some last ∧ last ∉ names ∧
        ∀ i < k, ∃ a ∈ names, chain resolve start i = some a) ∧
    (survivingBase names resolve start = none ↔
      ∃ k name, chain resolve start k = some name ∧ name ∈ names ∧
        (∀ i < k, ∃ a ∈ names, chain resolve start i = some a) ∧
        (resolve ⟨.interface, name⟩ = none ∨
          (∃ d, resolve ⟨.interface, name⟩ = some d ∧ d.base? = none) ∨
          ∃ i < k, chain resolve start i = some name)) := by
  obtain ⟨n, hn, hends⟩ := Climb.exists_ends_survivingBase names resolve start
  refine ⟨⟨n, hn, fun bases answer => ?_⟩, fun last => survivingBase_eq_some_iff_chain, ?_⟩
  · constructor
    · exact fun h => h.unique hends
    · rintro ⟨rfl, rfl⟩
      exact hends
  · rw [survivingBase_eq_none_iff_deadEnd]
    refine exists_congr fun k => exists_congr fun name => ?_
    rw [← or_assoc, ← baseOf?_eq_none_iff]
    constructor
    · rintro ⟨hcurrent, hmem, hpasses, hends⟩
      exact ⟨hcurrent, hmem, hpasses, hends⟩
    · rintro ⟨hcurrent, hmem, hpasses, hends⟩
      exact ⟨hcurrent, hmem, hpasses, hends⟩

end ObjcMetadata.Removal
