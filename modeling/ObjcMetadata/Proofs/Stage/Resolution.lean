import ObjcMetadata.Proofs.Declaration.Closure
import ObjcMetadata.Proofs.Pipeline
import ObjcMetadata.Proofs.Support.Resolution
/-!
Processing depends only on what is resolved.

Two contexts `Agree` if they have one pool and resolve all keys outside alike, whatever keys their
lookups have in store. No stage tells such contexts apart (`Stage.Resolving`), so neither does a
pipeline of any options (`Pipeline.process_congr`).
-/

namespace ObjcMetadata

open Support

/-- Two contexts have one pool and resolve all keys outside alike. -/
structure Context.Agree (cx cx' : Context) : Prop where
  pool : cx.pool = cx'.pool
  find? : cx.external.find? = cx'.external.find?

variable {cx cx' : Context}

theorem Context.Agree.lookup (h : cx.Agree cx') (m : Module) :
    (cx.lookup m).find? = (cx'.lookup m).find? := by
  funext key
  simp only [Context.lookup, Lookup.orElse, h.find?]

/-! ### Support -/

namespace Unsupported

theorem queries_trim : Analyzer.Queries trim := by
  intro a b d hab
  unfold trim
  rcases Answer.agree_iff.mp (Analyzer.queries_judgeDecl a b d hab) with
    ⟨e, ha, hb⟩ | ⟨answer, a', b', ha, hb, hjudged⟩
  · simp only [ha, hb]
    exact .error e
  · simp only [ha, hb]
    cases answer with
    | false => exact .ok hjudged
    | true =>
      cases d.members? with
      | none => exact .ok hjudged
      | some members =>
        rcases Answer.agree_iff.mp (Analyzer.queries_selectMembers a' b' members hjudged) with
          ⟨e, ha', hb'⟩ | ⟨kept, a'', b'', ha', hb', hselected⟩
        · simp only [ha', hb']
          exact .error e
        · simp only [ha', hb']
          exact .ok hselected

theorem queries_trimAll : Analyzer.Queries trimAll := by
  intro a b ds hab
  induction ds generalizing a b with
  | nil => exact .ok hab
  | cons d rest ih =>
    unfold trimAll
    rcases Answer.agree_iff.mp (queries_trim a b d hab) with
      ⟨e, ha, hb⟩ | ⟨kept, a', b', ha, hb, hnext⟩
    · simp only [ha, hb]
      exact .error e
    · rcases Answer.agree_iff.mp (ih a' b' hnext) with
        ⟨e, ha', hb'⟩ | ⟨others, a'', b'', ha', hb', hlast⟩
      · simp only [ha, hb, ha', hb']
        exact .error e
      · simp only [ha, hb, ha', hb']
        exact .ok hlast

end Unsupported

/-! ### Stages -/

/-- A stage that does not tell contexts that agree apart. -/
def Stage.Resolving (stage : Stage) : Prop :=
  ∀ cx cx' m, cx.Agree cx' → stage.apply cx m = stage.apply cx' m

namespace Stage

theorem resolving_exceptions (rules : List ExceptionRule) : (exceptions rules).Resolving :=
  fun _ _ _ _ => rfl

theorem resolving_removal (names : List QualifiedName) : (removal names).Resolving := by
  intro cx cx' m h
  simp only [removal, h.find?]

theorem resolving_unsupported : unsupported.Resolving := by
  intro cx cx' m h
  have hagree : Analyzer.Agree { graph := Unsupported.view cx m }
      { graph := Unsupported.view cx' m } := ⟨⟨h.pool, h.lookup m⟩, rfl⟩
  simp only [unsupported, Unsupported.apply_eq]
  rcases Answer.agree_iff.mp (Unsupported.queries_trimAll _ _ m.declarations hagree) with
    ⟨e, hcx, hcx'⟩ | ⟨kept, _, _, hcx, hcx', -⟩
  · rw [hcx, hcx']
  · rw [hcx, hcx']
    rfl

theorem resolving_categories : categories.Resolving := by
  intro cx cx' m h
  simp only [categories, h.find?]

theorem resolving_inherited : inherited.Resolving := by
  intro cx cx' m h
  have hdrop : Inherited.drop (cx.lookup m) = Inherited.drop (cx'.lookup m) := by
    funext d
    simp only [Inherited.drop, Inherited.members, Lookup.reached_congr (h.lookup m)]
  simp only [inherited, Inherited.apply, hdrop]

theorem resolving_repeated : repeated.Resolving :=
  fun _ _ _ _ => rfl

end Stage

/-! ### Pipelines -/

namespace Pipeline

theorem run_congr {stages : List Stage} (hstages : ∀ stage ∈ stages, stage.Resolving)
    (h : cx.Agree cx') (m : Module) : run ⟨stages⟩ cx m = run ⟨stages⟩ cx' m := by
  induction stages generalizing m with
  | nil => rfl
  | cons stage rest ih =>
    have hrest : ∀ m, run ⟨rest⟩ cx m = run ⟨rest⟩ cx' m :=
      ih fun s hs => hstages s (List.mem_cons_of_mem stage hs)
    simp only [run] at hrest
    simp only [run, List.foldlM_cons, hstages stage List.mem_cons_self cx cx' m h, hrest]

/-- **A module is processed alike in contexts that agree**, whatever the options. -/
theorem process_congr (o : Options) (h : cx.Agree cx') (m : Module) :
    o.pipeline.process cx m = o.pipeline.process cx' m := by
  have hstages : ∀ stage ∈ o.pipeline.stages, stage.Resolving :=
    Options.forall_mem_stages (Stage.resolving_exceptions _) (Stage.resolving_removal _)
      Stage.resolving_unsupported Stage.resolving_categories Stage.resolving_inherited
      Stage.resolving_repeated
  unfold process
  rw [run_congr hstages h m]

end Pipeline

end ObjcMetadata
