import ObjcMetadata.Pipeline
/-!
Runs that may be abandoned.

When the abort flag is up can be told from plain runs alone: a stage sees what a plain run of the
stages before it makes, and nothing lowers a flag that is up (`Pipeline.flagAfter`). A run that may
be abandoned is then a plain run of the stages in front of the first one that finds the flag up,
and of all stages if none does; a flag that goes up during the last stage is found by nobody
(`Pipeline.runUntil_exact`).
-/

namespace ObjcMetadata

namespace Pipeline

/-! ### The flag in a plain run -/

/-- The pipeline of the first stages. -/
def take (p : Pipeline) (k : Nat) : Pipeline where
  stages := p.stages.take k

/-- Whether the stage at a position raises the flag in a plain run that gets there. -/
def raisesAt (p : Pipeline) (cx : Context) (m : Module) (position : Nat) : Bool :=
  match p.stages[position]?, (p.take position).run cx m with
  | some stage, .ok m' => stage.raisesAbort cx m'
  | _, _ => false

/-- Whether the flag is up when some of the stages have been applied: it was up before, or one of
them has raised it. -/
def flagAfter (p : Pipeline) (cx : Context) (aborted : Bool) (m : Module) (applied : Nat) : Bool :=
  aborted || (List.range applied).any (p.raisesAt cx m)

variable {p : Pipeline} {cx : Context} {aborted : Bool} {m m' : Module} {stage : Stage}
  {rest stages : List Stage} {applied k : Nat}

theorem run_cons (stage : Stage) (rest : List Stage) (cx : Context) (m : Module) :
    run ⟨stage :: rest⟩ cx m = (stage.apply cx m).bind (run ⟨rest⟩ cx) :=
  rfl

theorem raisesAt_succ (happly : stage.apply cx m = .ok m') (position : Nat) :
    raisesAt ⟨stage :: rest⟩ cx m (position + 1) = raisesAt ⟨rest⟩ cx m' position := by
  simp only [raisesAt, take, List.getElem?_cons_succ, List.take_succ_cons, run_cons, happly,
    Except.bind]

theorem flagAfter_zero (p : Pipeline) (cx : Context) (aborted : Bool) (m : Module) :
    p.flagAfter cx aborted m 0 = aborted := by
  simp [flagAfter]

theorem flagAfter_succ (p : Pipeline) (cx : Context) (aborted : Bool) (m : Module) (applied : Nat) :
    p.flagAfter cx aborted m (applied + 1) =
      (p.flagAfter cx aborted m applied || p.raisesAt cx m applied) := by
  simp [flagAfter, List.range_succ, Bool.or_assoc]

/-- The flag is up later if it is up now. -/
theorem flagAfter_mono {later : Nat} (h : applied ≤ later)
    (hup : p.flagAfter cx aborted m applied = true) : p.flagAfter cx aborted m later = true := by
  induction h with
  | refl => exact hup
  | step _ ih => rw [flagAfter_succ, ih, Bool.true_or]

/-- Behind the first stage, the flag is that of a run of the other stages, with the module and the
flag that the first one leaves. -/
theorem flagAfter_cons (happly : stage.apply cx m = .ok m') (applied : Nat) :
    flagAfter ⟨stage :: rest⟩ cx false m (applied + 1) =
      flagAfter ⟨rest⟩ cx (stage.raisesAbort cx m) m' applied := by
  induction applied with
  | zero =>
    rw [flagAfter_succ, flagAfter_zero, flagAfter_zero, Bool.false_or]
    rfl
  | succ applied ih => rw [flagAfter_succ, ih, raisesAt_succ happly, flagAfter_succ]

/-! ### Where a run ends -/

/-- While the flag is down, the next stage is applied. -/
theorem runStagesUntil_cons (stage : Stage) (rest : List Stage) (cx : Context) (applied : Nat)
    (m : Module) :
    runStagesUntil cx (stage :: rest) applied false m = (stage.apply cx m).bind fun m' =>
      runStagesUntil cx rest (applied + 1) (stage.raisesAbort cx m) m' := by
  rw [runStagesUntil, if_neg Bool.false_ne_true]
  cases stage.apply cx m <;> rfl

/-- The first stage that finds the flag up is not applied, and no stage behind it is. -/
theorem runStagesUntil_of_up (hk : k < stages.length)
    (hup : flagAfter ⟨stages⟩ cx aborted m k = true)
    (hleast : ∀ j < k, flagAfter ⟨stages⟩ cx aborted m j = false) :
    runStagesUntil cx stages applied aborted m =
      (run ⟨stages.take k⟩ cx m).map fun m' => (.abandoned m' (applied + k), true) := by
  induction stages generalizing applied aborted m k with
  | nil => exact absurd hk (Nat.not_lt_zero k)
  | cons stage rest ih =>
    cases k with
    | zero =>
      obtain rfl : aborted = true := by rwa [flagAfter_zero] at hup
      rfl
    | succ k =>
      obtain rfl : aborted = false := by rw [← hleast 0 (Nat.succ_pos k), flagAfter_zero]
      rw [runStagesUntil_cons, List.take_succ_cons, run_cons]
      cases happly : stage.apply cx m with
      | error e => rfl
      | ok m' =>
        have hrest : ∀ j < k, flagAfter ⟨rest⟩ cx (stage.raisesAbort cx m) m' j = false := by
          intro j hj
          rw [← flagAfter_cons happly, hleast (j + 1) (Nat.succ_lt_succ hj)]
        rw [flagAfter_cons happly] at hup
        rw [Except.bind, Except.bind, ih (Nat.lt_of_succ_lt_succ hk) hup hrest, Nat.add_right_comm]
        rfl

/-- If no stage finds the flag up, all stages are applied. -/
theorem runStagesUntil_of_down
    (hdown : ∀ j < stages.length, flagAfter ⟨stages⟩ cx aborted m j = false) :
    runStagesUntil cx stages applied aborted m = (run ⟨stages⟩ cx m).map fun m' =>
      (.completed m', flagAfter ⟨stages⟩ cx aborted m stages.length) := by
  induction stages generalizing applied aborted m with
  | nil =>
    rw [List.length_nil, flagAfter_zero]
    rfl
  | cons stage rest ih =>
    obtain rfl : aborted = false := by rw [← hdown 0 (Nat.succ_pos _), flagAfter_zero]
    rw [runStagesUntil_cons, run_cons, List.length_cons]
    cases happly : stage.apply cx m with
    | error e => rfl
    | ok m' =>
      have hrest : ∀ j < rest.length,
          flagAfter ⟨rest⟩ cx (stage.raisesAbort cx m) m' j = false := by
        intro j hj
        rw [← flagAfter_cons happly, hdown (j + 1) (Nat.succ_lt_succ hj)]
      rw [Except.bind, Except.bind, ih hrest, flagAfter_cons happly]

/-- **A run is abandoned before the first stage that finds the flag up**, with what the stages in
front of it make of the module. If there is no such stage it is completed and makes what a plain
run makes, in particular if the flag is down before the last stage, whatever that one does to it.
Where a stage fails that a plain run reaches, both runs fail alike. -/
theorem runUntil_exact (p : Pipeline) (cx : Context) (aborted : Bool) (m : Module) :
    (∀ k < p.size, p.flagAfter cx aborted m k = true →
        (∀ j < k, p.flagAfter cx aborted m j = false) →
        p.runUntil cx aborted m =
          ((p.take k).run cx m).map fun m' => (.abandoned m' k, true)) ∧
      ((∀ k < p.size, p.flagAfter cx aborted m k = false) →
        p.runUntil cx aborted m =
          (p.run cx m).map fun m' => (.completed m', p.flagAfter cx aborted m p.size)) ∧
      (∀ last, p.size = last + 1 → p.flagAfter cx aborted m last = false →
        p.runUntil cx aborted m =
          (p.run cx m).map fun m' => (.completed m', p.raisesAt cx m last)) := by
  have hcompleted : (∀ k < p.size, p.flagAfter cx aborted m k = false) →
      p.runUntil cx aborted m =
        (p.run cx m).map fun m' => (.completed m', p.flagAfter cx aborted m p.size) :=
    fun hdown => runStagesUntil_of_down hdown
  refine ⟨?_, hcompleted, ?_⟩
  · intro k hk hup hleast
    rw [runUntil, runStagesUntil_of_up hk hup hleast, Nat.zero_add]
    rfl
  · intro last hsize hdown
    have hbefore : ∀ k < p.size, p.flagAfter cx aborted m k = false := by
      intro k hk
      refine Bool.eq_false_iff.mpr fun hup => ?_
      rw [flagAfter_mono (by omega) hup] at hdown
      cases hdown
    rw [hcompleted hbefore, hsize, flagAfter_succ, hdown, Bool.false_or]

/-! ### A stage that asks to stop -/

namespace Cautious

/-- Removes repeated declarations and asks that no stage follows if there are any. -/
def distinguish : Stage where
  name := "deduplicate-or-stop"
  apply _ m := .ok m.withoutRepeated
  raisesAbort _ m := m.withoutRepeated.size < m.size

/-- A module that declares an interface twice, and a category that extends it. -/
def given : Module where
  name := "M"
  declarations :=
    [⟨⟨"M", "View"⟩, .interface {}⟩, ⟨⟨"M", "View"⟩, .interface {}⟩,
      ⟨⟨"M", "Extras"⟩, .category { extended := ⟨"M", "View"⟩ }⟩]

/-- The stage in the midst of others. -/
def within : Pipeline where
  stages := [.exceptions ExceptionRule.iosSdk, distinguish, .categories, .inherited]

/-- The stage behind all others. -/
def behind : Pipeline where
  stages := [.exceptions ExceptionRule.iosSdk, .categories, distinguish]

end Cautious

/-- The run with the stage in the midst is abandoned behind it, the other one is completed. -/
theorem runUntil_exact_cautious :
    Cautious.within.runUntil ⟨.initial, .empty⟩ false Cautious.given =
        .ok (.abandoned Cautious.given.withoutRepeated 2, true) ∧
      ∃ m', Cautious.behind.run ⟨.initial, .empty⟩ Cautious.given = .ok m' ∧
        Cautious.behind.runUntil ⟨.initial, .empty⟩ false Cautious.given =
          .ok (.completed m', true) := by
  constructor
  · exact (runUntil_exact Cautious.within ⟨.initial, .empty⟩ false Cautious.given).1 2
      (by decide) rfl (by decide)
  · exact ⟨_, rfl, (runUntil_exact Cautious.behind ⟨.initial, .empty⟩ false
      Cautious.given).2.2 2 rfl rfl⟩

end Pipeline

end ObjcMetadata
