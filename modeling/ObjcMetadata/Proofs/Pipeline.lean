import ObjcMetadata.Batch.Run
import ObjcMetadata.Proofs.Stage.Reduct
/-!
What a pipeline leaves of a module.

A pipeline of total stages leaves a reduct of every module (`Pipeline.run_reduct`), and the pipeline
of every choice of options consists of such stages. Its last stage makes the keys distinct, so a
module whose types are in the pool is always processed and closed (`processModule_reduces`),
whether its keys are repeated, its references lead anywhere or its bases form loops.
-/

namespace ObjcMetadata

open Declaration

variable {o : Options} {cx : Context} {m : Module}

/-! ### Runs -/

theorem Pipeline.run_append (stages rest : List Stage) (cx : Context) (m : Module) :
    Pipeline.run ⟨stages ++ rest⟩ cx m =
      (Pipeline.run ⟨stages⟩ cx m).bind (Pipeline.run ⟨rest⟩ cx) := by
  simp only [Pipeline.run, List.foldlM_append]
  rfl

/-- **A run of total stages** succeeds and leaves a reduct. -/
theorem Pipeline.run_reduct {stages : List Stage} (h : ∀ stage ∈ stages, stage.Total cx)
    (hm : m.Inside cx.pool) :
    ∃ m', Pipeline.run ⟨stages⟩ cx m = .ok m' ∧ m.Reduct cx.pool m' := by
  induction stages generalizing m with
  | nil => exact ⟨m, rfl, .refl m⟩
  | cons stage rest ih =>
    obtain ⟨next, happly, hfirst⟩ := h stage List.mem_cons_self m hm
    obtain ⟨m', hrun, hrest⟩ := ih (fun s hs => h s (List.mem_cons_of_mem stage hs))
      (hfirst.inside hm)
    refine ⟨m', ?_, hfirst.trans hrest⟩
    simp only [Pipeline.run, List.foldlM_cons, happly]
    exact hrun

namespace Options

/-- What holds of every kind of stage holds of all stages of a pipeline. -/
theorem forall_mem_stages {P : Stage → Prop} (exceptions : P (.exceptions ExceptionRule.iosSdk))
    (removal : P (.removal o.remove)) (unsupported : P .unsupported) (categories : P .categories)
    (inherited : P .inherited) (repeated : P .repeated) : ∀ stage ∈ o.pipeline.stages, P stage := by
  have hunless : ∀ (b : Bool) (stage : Stage), P stage →
      ∀ s ∈ (if b then [] else [stage]), P s := by
    intro b stage hstage s hs
    cases b with
    | true => cases hs
    | false => exact List.mem_singleton.mp hs ▸ hstage
  intro stage hstage
  simp only [pipeline, List.mem_append, List.mem_singleton] at hstage
  rcases hstage with ((((rfl | h) | h) | h) | h) | rfl
  · exact exceptions
  · exact hunless _ _ removal stage h
  · exact hunless _ _ unsupported stage h
  · exact hunless _ _ categories stage h
  · exact hunless _ _ inherited stage h
  · exact repeated

theorem total_pipeline (hpool : cx.pool.Closed) (hfixed : cx.pool.contains .instancetype = true)
    (hexternal : ∀ key d, cx.external.find? key = some d → d.Inside cx.pool) :
    ∀ stage ∈ o.pipeline.stages, stage.Total cx := by
  have hexceptions : (Stage.exceptions ExceptionRule.iosSdk).Total cx := by
    refine Stage.total_exceptions ?_
    simp [ExceptionRule.iosSdk, ExceptionRule.added, hfixed]
  exact forall_mem_stages hexceptions (Stage.total_removal o.remove)
    (Stage.total_unsupported hpool hexternal) Stage.total_categories Stage.total_inherited
    Stage.total_repeated

/-- The stages in front of the merging of categories, and those behind it except for the last. -/
theorem pipeline_stages (o : Options) :
    ∃ before after : List Stage, o.pipeline.stages =
      before ++ ((if o.noMergeCategories then [] else [.categories]) ++
        (after ++ [.repeated])) := by
  refine ⟨[.exceptions ExceptionRule.iosSdk] ++
    (if o.remove.isEmpty then [] else [.removal o.remove]) ++
    (if o.keepUnsupported then [] else [.unsupported]),
    if o.keepDuplicates then [] else [.inherited], ?_⟩
  simp only [pipeline, List.append_assoc]

/-- Merging, if it is not switched off, leaves nothing to merge. -/
theorem run_merging (hm : m.Inside cx.pool) :
    ∃ m', Pipeline.run ⟨if o.noMergeCategories then [] else [.categories]⟩ cx m = .ok m' ∧
      m.Reduct cx.pool m' ∧ (o.noMergeCategories = false → m'.Merged) := by
  cases hmerge : o.noMergeCategories with
  | true => exact ⟨m, rfl, .refl m, by simp⟩
  | false =>
    obtain ⟨m', happly, hreduct⟩ := Stage.total_categories m hm
    obtain rfl : Categories.apply cx.external.find? m = m' := Except.ok.inj happly
    exact ⟨_, rfl, hreduct, fun _ => Stage.merged_categories _ m⟩

/-- **The pipeline of any options** leaves a reduct of every module whose types are in the pool,
with distinct keys. -/
theorem run_pipeline (hpool : cx.pool.Closed) (hfixed : cx.pool.contains .instancetype = true)
    (hexternal : ∀ key d, cx.external.find? key = some d → d.Inside cx.pool)
    (hm : m.Inside cx.pool) :
    ∃ m', o.pipeline.run cx m = .ok m' ∧ m.Reduct cx.pool m' ∧ m'.keys.Nodup ∧
      (o.noMergeCategories = false → m'.Merged) := by
  obtain ⟨before, after, hstages⟩ := o.pipeline_stages
  have htotal := @total_pipeline o cx hpool hfixed hexternal
  rw [hstages] at htotal
  have hbefore : ∀ s ∈ before, s.Total cx := fun s hs => htotal s (List.mem_append_left _ hs)
  have hafter : ∀ s ∈ after, s.Total cx := fun s hs => htotal s
    (List.mem_append_right _ (List.mem_append_right _ (List.mem_append_left _ hs)))
  obtain ⟨m₁, hrun₁, hreduct₁⟩ := Pipeline.run_reduct hbefore hm
  obtain ⟨m₂, hrun₂, hreduct₂, hmerged⟩ := run_merging (o := o) (hreduct₁.inside hm)
  obtain ⟨m₃, hrun₃, hreduct₃⟩ :=
    Pipeline.run_reduct hafter (hreduct₂.inside (hreduct₁.inside hm))
  have hreduct₄ : m₃.Reduct cx.pool m₃.withoutRepeated := .of_sublist distinctBy_sublist
  refine ⟨m₃.withoutRepeated, ?_, hreduct₁.trans (hreduct₂.trans (hreduct₃.trans hreduct₄)),
    nodup_map_distinctBy.1, fun hmerge => hreduct₄.merged (hreduct₃.merged (hmerged hmerge))⟩
  have hpipeline : o.pipeline = ⟨o.pipeline.stages⟩ := rfl
  rw [hpipeline, hstages, Pipeline.run_append, hrun₁, Except.bind, Pipeline.run_append, hrun₂,
    Except.bind, Pipeline.run_append, hrun₃]
  rfl

end Options

/-! ### Processing -/

theorem Pipeline.process_of_run {p : Pipeline} {m' : Module} (hrun : p.run cx m = .ok m')
    (hkeys : m'.keys.Nodup) :
    p.process cx m = .ok (.ok ⟨m'.name, ⟨m'.declarations⟩, m'.errors⟩) := by
  rw [process, hrun, Except.map, Module.finalize_of_nodup hkeys]

/-- Nothing fails but the judging of types that are not in the pool. -/
theorem process_total (hpool : cx.pool.Closed) (hfixed : cx.pool.contains .instancetype = true)
    (hexternal : ∀ key d, cx.external.find? key = some d → d.Inside cx.pool)
    (hm : m.Inside cx.pool) : ∃ result, o.pipeline.process cx m = .ok (.ok result) := by
  obtain ⟨m', hrun, -, hkeys, -⟩ := Options.run_pipeline (o := o) hpool hfixed hexternal hm
  exact ⟨_, Pipeline.process_of_run hrun hkeys⟩

/-- **Every module whose types are in the pool is processed.** Its name and the order of its keys
are kept, no key is repeated in the result, the problems noted before come first, and if categories
are merged, no category in the result extends an interface in the result. -/
theorem processModule_reduces (o : Options) (pool : Pool) (external : Lookup) (m : Module)
    (hpool : pool.Closed) (hfixed : pool.contains .instancetype = true)
    (hexternal : ∀ key d, external.find? key = some d → d.Inside pool)
    (hm : ∀ d ∈ m.declarations, d.Inside pool) :
    ∃ result, processModule o pool external m = .ok (.ok result) ∧
      result.name = m.name ∧
      (result.declarations.map key).Nodup ∧
      (result.declarations.map key).Sublist m.keys ∧
      m.errors <+: result.errors ∧
      (o.noMergeCategories = false → ∀ d ∈ result.declarations, ∀ c, d.category? = some c →
        ∀ e ∈ result.declarations, e.key ≠ ⟨.interface, c.extended⟩) := by
  obtain ⟨m', hrun, hreduct, hnodup, hmerged⟩ :=
    @Options.run_pipeline o ⟨pool, external⟩ m hpool hfixed hexternal hm
  refine ⟨⟨m'.name, ⟨m'.declarations⟩, m'.errors⟩, Pipeline.process_of_run hrun hnodup,
    hreduct.name, hnodup, hreduct.keys, hreduct.errors, ?_⟩
  intro hmerge d hd c hc e he hkey
  exact hmerged hmerge d hd c hc (hkey ▸ List.mem_map_of_mem he)

/-! ### A tangled module -/

namespace Tangled

/-- A pool with an interface type that resolves nowhere. -/
def types : Pool :=
  Pool.initial.internAll [.interface ⟨"N", "Nowhere"⟩ []]

/-- Two interfaces that are each other's base, one of them declared twice, a category that extends
it, and a variable of the type that resolves nowhere. -/
def given : Module where
  name := "M"
  declarations :=
    [⟨⟨"M", "A"⟩, .interface { base := some ⟨"M", "B"⟩ }⟩,
      ⟨⟨"M", "B"⟩, .interface { base := some ⟨"M", "A"⟩ }⟩,
      ⟨⟨"M", "C"⟩, .category { extended := ⟨"M", "A"⟩ }⟩,
      ⟨⟨"M", "A"⟩, .interface {}⟩,
      ⟨⟨"M", "v"⟩, .var ⟨30⟩⟩]
  errors := [.unresolvedReference ⟨.var, ⟨"M", "v"⟩⟩ ⟨.interface, ⟨"N", "Nowhere"⟩⟩]

end Tangled

/-- The class that is declared twice is left once, the category is merged into it, and the variable
is dropped. -/
theorem processModule_tangled_reduces :
    Tangled.types.Closed ∧ Tangled.types.contains .instancetype = true ∧
      (∀ key d, Lookup.empty.find? key = some d → d.Inside Tangled.types) ∧
      (∀ d ∈ Tangled.given.declarations, d.Inside Tangled.types) ∧
      ∃ result, processModule {} Tangled.types .empty Tangled.given = .ok (.ok result) ∧
        result.declarations.map key = [⟨.interface, ⟨"M", "A"⟩⟩, ⟨.interface, ⟨"M", "B"⟩⟩] ∧
        result.name = "M" ∧ (result.declarations.map key).Nodup ∧
        (result.declarations.map key).Sublist Tangled.given.keys ∧
        Tangled.given.errors <+: result.errors ∧
        ∀ d ∈ result.declarations, ∀ c, d.category? = some c →
          ∀ e ∈ result.declarations, e.key ≠ ⟨.interface, c.extended⟩ := by
  have hpool : Tangled.types.Closed := by decide +kernel
  have hfixed : Tangled.types.contains .instancetype = true := by decide +kernel
  have hexternal : ∀ key d, Lookup.empty.find? key = some d → d.Inside Tangled.types := by
    intro key d hfind
    cases hfind
  have hm : ∀ d ∈ Tangled.given.declarations, d.Inside Tangled.types := by decide +kernel
  obtain ⟨result, hresult, hname, hnodup, hkeys, herrors, hmerged⟩ :=
    processModule_reduces {} Tangled.types .empty Tangled.given hpool hfixed hexternal hm
  have hleft : (processModule {} Tangled.types .empty Tangled.given).map
      (·.map fun result => result.declarations.map key) =
        .ok (.ok [⟨.interface, ⟨"M", "A"⟩⟩, ⟨.interface, ⟨"M", "B"⟩⟩]) := by decide +kernel
  rw [hresult, Except.map, Except.map, Except.ok.injEq, Except.ok.injEq] at hleft
  exact ⟨hpool, hfixed, hexternal, hm, result, hresult, hleft, hname, hnodup, hkeys, herrors,
    hmerged rfl⟩

end ObjcMetadata
