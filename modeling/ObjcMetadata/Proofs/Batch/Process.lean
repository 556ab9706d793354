import ObjcMetadata.Proofs.Pipeline
/-!
What processing makes of one module.

With support in force, processing corrects a module and removes names (`Options.corrected`), takes
away what is unsupported, and then completes what is left (`Options.completed`). In a module without
repeated keys the first part amends declarations and drops those with names to be removed, and the
last part only amends (`process_processed`).
-/

namespace ObjcMetadata

open Support Declaration

variable {o : Options} {cx : Context} {m : Module}

/-! ### The parts of a pipeline -/

namespace Options

/-- A module as it is before its support is judged. -/
def corrected (o : Options) (cx : Context) (m : Module) : Module :=
  Removal.apply o.remove cx.external.find? (ExceptionRule.applyAll ExceptionRule.iosSdk m)

/-- A module as it is in the end, from what is supported of it. -/
def completed (o : Options) (cx : Context) (m : Module) : Module :=
  let merged := if o.noMergeCategories then m else Categories.apply cx.external.find? m
  let lean := if o.keepDuplicates then merged else Inherited.apply cx merged
  lean.withoutRepeated

/-- How a removed base is replaced in a module. -/
def rebase (o : Options) (cx : Context) (m : Module) : QualifiedName → Option QualifiedName :=
  Removal.survivingBase o.remove
    ((ExceptionRule.applyAll ExceptionRule.iosSdk m).index.resolveOr cx.external.find?)

theorem removal_of_isEmpty {names : List QualifiedName} (h : names.isEmpty = true)
    (external : Resolver) (m : Module) : Removal.apply names external m = m := by
  simp [Removal.apply, Removal.declarationsAfter, h]

/-- The stages in front of the one that judges support. -/
def correctingStages (o : Options) : List Stage :=
  .exceptions ExceptionRule.iosSdk :: if o.remove.isEmpty then [] else [.removal o.remove]

/-- The stages behind the one that judges support. -/
def completingStages (o : Options) : List Stage :=
  let merging : List Stage := if o.noMergeCategories then [] else [.categories]
  let dropping : List Stage := if o.keepDuplicates then [] else [.inherited]
  merging ++ dropping ++ [.repeated]

theorem pipeline_eq (hkeep : o.keepUnsupported = false) :
    o.pipeline = ⟨o.correctingStages ++ .unsupported :: o.completingStages⟩ := by
  simp [pipeline, correctingStages, completingStages, hkeep]

theorem run_correctingStages (o : Options) (cx : Context) (m : Module) :
    Pipeline.run ⟨o.correctingStages⟩ cx m = .ok (o.corrected cx m) := by
  simp only [correctingStages, corrected]
  split
  · next h =>
    rw [removal_of_isEmpty h]
    rfl
  · rfl

theorem run_completingStages (o : Options) (cx : Context) (m : Module) :
    Pipeline.run ⟨o.completingStages⟩ cx m = .ok (o.completed cx m) := by
  simp only [completingStages, completed]
  cases o.noMergeCategories <;> cases o.keepDuplicates <;> rfl

theorem pipeline_run (hkeep : o.keepUnsupported = false) :
    o.pipeline.run cx m = (Unsupported.apply cx (o.corrected cx m)).map (o.completed cx) := by
  have hjudging : Pipeline.run ⟨.unsupported :: o.completingStages⟩ cx (o.corrected cx m) =
      (Unsupported.apply cx (o.corrected cx m)).bind (Pipeline.run ⟨o.completingStages⟩ cx) := rfl
  rw [pipeline_eq hkeep, Pipeline.run_append, run_correctingStages, Except.bind, hjudging]
  cases Unsupported.apply cx (o.corrected cx m) with
  | error e => rfl
  | ok m' => exact run_completingStages o cx m'

/-- A declaration is not to be removed, and it is amended. -/
structure Corrects (o : Options) (cx : Context) (m : Module) (d d' : Declaration) : Prop where
  name : d.name ∉ o.remove
  amended : Amended (o.rebase cx m) [.instancetype] d d'

theorem Corrects.key {d d' : Declaration} (h : o.Corrects cx m d d') : d'.key = d.key :=
  h.amended.key

theorem revision_corrected (hkeys : (m.declarations.map key).Nodup) :
    Revision (o.Corrects cx m) (fun key => key.name ∉ o.remove) m.declarations
      (o.corrected cx m).declarations := by
  have hrules := revision_iosSdk m
  refine (hrules.mono (fun _ _ h => h) fun _ _ => trivial).comp (fun _ _ h => h.key) ?_
    (Removal.revision_declarationsAfter (hkeys.sublist hrules.keys) [.instancetype])
  rintro d d' d'' hamended ⟨hname, hamended'⟩
  have hsame : d'.name = d.name := congrArg DeclKey.name hamended.key
  exact ⟨hsame ▸ hname, hamended.trans hamended'⟩

/-- Completion revises a module without repeated keys. -/
theorem revision_completed (hkeys : (m.declarations.map key).Nodup) :
    Revision (Amended some (m.declarations.flatMap ownTypes)) allStay m.declarations
      (o.completed cx m).declarations := by
  have hmerged : Revision (Amended some (m.declarations.flatMap ownTypes)) allStay m.declarations
      (if o.noMergeCategories then m else Categories.apply cx.external.find? m).declarations := by
    split
    · exact .refl _
    · exact revision_categories cx.external.find? m
  have hlean : ∀ merged : Module,
      Revision (Amended some (m.declarations.flatMap ownTypes)) allStay merged.declarations
        (if o.keepDuplicates then merged else Inherited.apply cx merged).declarations := by
    intro merged
    split
    · exact .refl _
    · exact revision_inherited cx merged _
  have hboth := hmerged.trans (hlean _)
  simp only [completed, Module.withoutRepeated]
  rw [distinctBy_eq_self (hkeys.sublist hboth.keys) (by simp)]
  exact hboth

end Options

/-! ### Processing -/

/-- What the processing of a module comes to: `kept` is left when support has been judged, and the
analyzer ends as `after`. -/
structure Processed (o : Options) (cx : Context) (m : Module) (kept : List Declaration)
    (after : Analyzer) (result : FinalModule) : Prop where
  judged : Unsupported.trimAll { graph := Unsupported.view cx (o.corrected cx m) }
    (o.corrected cx m).declarations = .ok (kept, after)
  completed : Revision (Amended some (kept.flatMap ownTypes)) allStay kept result.declarations

theorem Processed.trimming {kept : List Declaration} {after : Analyzer} {result : FinalModule}
    (h : Processed o cx m kept after result) :
    Unsupported.Trimming { graph := Unsupported.view cx (o.corrected cx m) }
      (o.corrected cx m).declarations kept after :=
  Unsupported.trimAll_trimming h.judged (Analyzer.resting_fresh _) (Unsupported.resolves_view cx _)

/-- Where support has been judged, a module without repeated keys is completed and closed. -/
theorem process_of_judged (hkeep : o.keepUnsupported = false)
    (hkeys : (m.declarations.map key).Nodup) {kept : List Declaration} {after : Analyzer}
    (h : Unsupported.trimAll { graph := Unsupported.view cx (o.corrected cx m) }
      (o.corrected cx m).declarations = .ok (kept, after)) :
    ∃ result, o.pipeline.process cx m = .ok (.ok result) ∧
      Processed o cx m kept after result := by
  have htrimming :=
    Unsupported.trimAll_trimming h (Analyzer.resting_fresh _) (Unsupported.resolves_view cx _)
  have hkeys' : (kept.map key).Nodup :=
    hkeys.sublist (htrimming.keys.trans (Options.revision_corrected hkeys).keys)
  let left : Module := { o.corrected cx m with declarations := kept }
  have hcompleted : Revision (Amended some (kept.flatMap ownTypes)) allStay kept
      (o.completed cx left).declarations :=
    Options.revision_completed (m := left) hkeys'
  have hrun : o.pipeline.run cx m = .ok (o.completed cx left) := by
    rw [Options.pipeline_run hkeep, Unsupported.apply_eq, h]
    rfl
  exact ⟨_, Pipeline.process_of_run hrun (hkeys'.sublist hcompleted.keys), h, hcompleted⟩

/-- **A result comes from what was kept when support was judged**, by a revision. -/
theorem process_processed (hkeep : o.keepUnsupported = false)
    (hkeys : (m.declarations.map key).Nodup) {result : FinalModule}
    (h : o.pipeline.process cx m = .ok (.ok result)) :
    ∃ kept after, Processed o cx m kept after result := by
  cases hjudged : Unsupported.trimAll { graph := Unsupported.view cx (o.corrected cx m) }
      (o.corrected cx m).declarations with
  | error e =>
    unfold Pipeline.process at h
    rw [Options.pipeline_run hkeep, Unsupported.apply_eq, hjudged] at h
    cases h
  | ok pair =>
    obtain ⟨kept, after⟩ := pair
    obtain ⟨result', hresult, hprocessed⟩ := process_of_judged hkeep hkeys hjudged
    obtain rfl : result' = result := Except.ok.inj (Except.ok.inj (hresult.symm.trans h))
    exact ⟨kept, after, hprocessed⟩

end ObjcMetadata
