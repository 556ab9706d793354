import ObjcMetadata.Proofs.Batch.Process
import ObjcMetadata.Proofs.Stage.Change
/-!
A module as it is when inherited members are dropped.

All stages but the last two make a module ready (`Options.readyStages`). A ready module comes from
the module as it was given: what it loses and gains of links and members is told by one change
(`Options.change`, `changes_ready`). Its declarations name no removed name, and what stays of them
in the result is what they do not inherit (`process_ready`).
-/

namespace ObjcMetadata

open Support Declaration

variable {o : Options} {cx : Context} {m ready : Module} {d : Declaration}

/-! ### Stages -/

namespace Options

/-- The stages in front of the one that drops inherited members. -/
def readyStages (o : Options) : List Stage :=
  o.correctingStages ++ (if o.keepUnsupported then [] else [.unsupported]) ++
    (if o.noMergeCategories then [] else [.categories])

/-- What the last two stages make of a module. -/
def finished (o : Options) (cx : Context) (m : Module) : Module :=
  (if o.keepDuplicates then m else Inherited.apply cx m).withoutRepeated

theorem run_finishing (o : Options) (cx : Context) (m : Module) :
    Pipeline.run ⟨(if o.keepDuplicates then [] else [.inherited]) ++ [.repeated]⟩ cx m =
      .ok (o.finished cx m) := by
  unfold finished
  cases o.keepDuplicates <;> rfl

theorem run_eq_finished (o : Options) (cx : Context) (m : Module) :
    o.pipeline.run cx m = (Pipeline.run ⟨o.readyStages⟩ cx m).map (o.finished cx) := by
  have hstages : o.pipeline =
      ⟨o.readyStages ++ ((if o.keepDuplicates then [] else [.inherited]) ++ [.repeated])⟩ := by
    simp [pipeline, readyStages, correctingStages]
  rw [hstages, Pipeline.run_append]
  cases Pipeline.run ⟨o.readyStages⟩ cx m with
  | error e => rfl
  | ok m' => exact run_finishing o cx m'

/-- What is left of a module when its support has been judged, if it is. -/
inductive Left (o : Options) (cx : Context) (m : Module) : Module → Prop where
  | all : o.keepUnsupported = true → Left o cx m (o.corrected cx m)
  | judged {kept : List Declaration} {after : Analyzer} : o.keepUnsupported = false →
      Unsupported.trimAll { graph := Unsupported.view cx (o.corrected cx m) }
        (o.corrected cx m).declarations = .ok (kept, after) →
      Left o cx m { o.corrected cx m with declarations := kept }

/-- A ready module is one of which support has been judged, with categories merged. -/
theorem exists_left (h : Pipeline.run ⟨o.readyStages⟩ cx m = .ok ready) :
    ∃ left, Left o cx m left ∧
      ready = if o.noMergeCategories then left else Categories.apply cx.external.find? left := by
  have hmerging : ∀ left,
      Pipeline.run ⟨if o.noMergeCategories then [] else [.categories]⟩ cx left =
        .ok (if o.noMergeCategories then left else Categories.apply cx.external.find? left) := by
    intro left
    cases o.noMergeCategories <;> rfl
  rw [readyStages, List.append_assoc, Pipeline.run_append, run_correctingStages, Except.bind,
    Pipeline.run_append] at h
  cases hkeep : o.keepUnsupported with
  | true =>
    rw [hkeep] at h
    exact ⟨_, .all hkeep, Except.ok.inj (h.symm.trans (hmerging _))⟩
  | false =>
    have hjudging : Pipeline.run ⟨if o.keepUnsupported then [] else [.unsupported]⟩ cx
        (o.corrected cx m) = Unsupported.apply cx (o.corrected cx m) := by
      rw [hkeep]
      simp [Pipeline.run, Stage.unsupported]
    rw [hjudging, Unsupported.apply_eq] at h
    cases htrim : Unsupported.trimAll { graph := Unsupported.view cx (o.corrected cx m) }
        (o.corrected cx m).declarations with
    | error e =>
      rw [htrim] at h
      cases h
    | ok result =>
      rw [htrim] at h
      exact ⟨_, .judged hkeep htrim, Except.ok.inj (h.symm.trans (hmerging _))⟩

/-! ### Changes -/

/-- What becomes of links and members until a module is ready. -/
def change (o : Options) (cx : Context) (m : Module) : Change where
  unlinks p := p.name ∈ o.remove
  links key p :=
    (∃ d ∈ m.declarations, d.key = key ∧ ∃ base ∈ o.remove, ⟨.interface, base⟩ ∈ d.parents ∧
      ∃ last, o.rebase cx m base = some last ∧ p = ⟨.interface, last⟩) ∨
    (o.noMergeCategories = false ∧ ∃ c ∈ m.declarations, c.Extends key ∧ p ∈ c.parents)
  loses key x :=
    (ExceptionRule.change ExceptionRule.iosSdk).loses key x ∨
    (o.keepUnsupported = false ∧ ¬ x.Meets (Unsupported.view cx (o.corrected cx m)).Admits)
  gains key x :=
    (ExceptionRule.change ExceptionRule.iosSdk).gains key x ∨
    (o.noMergeCategories = false ∧ ∃ c ∈ m.declarations, c.Extends key ∧ x ∈ c.entries)

/-- A declaration of this key is not to be removed, and it is supported if that counts. -/
def Stays (o : Options) (cx : Context) (m : Module) (key : DeclKey) : Prop :=
  key.name ∉ o.remove ∧
    (o.keepUnsupported = false →
      ¬ (Unsupported.view cx (o.corrected cx m)).Unsupported (.decl key))

/-- Only interfaces take on parents. -/
theorem not_links_of_kind {key p : DeclKey} (hkind : key.kind ≠ .interface) :
    ¬ (o.change cx m).links key p := by
  rintro (⟨d, -, rfl, base, -, hbase, -⟩ | ⟨-, c, -, hextends, -⟩)
  · exact hkind (kind_of_base? (base?_of_mem_parents hbase))
  · exact hkind hextends.kind.2

/-- Only interfaces gain members. -/
theorem not_gains_of_kind {key : DeclKey} {x : Member} (hkind : key.kind ≠ .interface) :
    ¬ (o.change cx m).gains key x := by
  rintro (⟨_, _, -, ⟨interface, -, rfl⟩, -⟩ | ⟨-, c, -, hextends, -⟩)
  · exact hkind rfl
  · exact hkind hextends.kind.2

theorem changes_corrected (o : Options) (cx : Context) (hkeys : (m.declarations.map key).Nodup) :
    Revision (Changed (o.change cx m)) (o.Stays cx m) m.declarations
        (o.corrected cx m).declarations ∧
      ∀ d ∈ (o.corrected cx m).declarations, Removal.Clear o.remove d := by
  have hrules := ExceptionRule.changes_applyAll ExceptionRule.iosSdk m
  have hkeys' := hkeys.sublist (revision_iosSdk m).keys
  obtain ⟨hremoval, hclear⟩ := Removal.changes_declarationsAfter o.remove
    ((ExceptionRule.applyAll ExceptionRule.iosSdk m).index.resolveOr cx.external.find?) hkeys'
  refine ⟨(hrules.within ⟨?_, ?_, ?_, ?_⟩ fun _ _ => trivial).trans
    (hremoval.within ⟨?_, ?_, ?_, ?_⟩ fun _ h => h.1), hclear⟩
  · exact fun _ h => h.elim
  · exact fun _ _ h => h.elim
  · exact fun _ _ h => .inl h
  · exact fun _ _ h => .inl h
  · exact fun _ h => h
  · rintro key p ⟨d', hd', rfl, base, hbase, hd'base, last, hlast, rfl⟩
    obtain ⟨d, hd, hchanged⟩ := hrules.source d' hd'
    have hparent : ⟨.interface, base⟩ ∈ d'.parents := mem_parents.mpr (.inl ⟨base, hd'base, rfl⟩)
    have hgiven := (hchanged.parents_from _ hparent).resolve_right id
    exact .inl ⟨d, hd, hchanged.key.symm, base, hbase, hgiven, last, hlast, rfl⟩
  · exact fun _ _ h => h.elim
  · exact fun _ _ h => h.elim

theorem changes_left (hkeys : (m.declarations.map key).Nodup) {left : Module}
    (h : Left o cx m left) :
    Revision (Changed (o.change cx m)) (o.Stays cx m) m.declarations left.declarations ∧
      ∀ d ∈ left.declarations, Removal.Clear o.remove d := by
  obtain ⟨hcorrected, hclear⟩ := changes_corrected o cx hkeys
  cases h with
  | all => exact ⟨hcorrected, hclear⟩
  | judged hkeep htrim =>
    have hpass := Unsupported.changes_trimAll htrim (Analyzer.resting_fresh _)
      (Unsupported.resolves_view cx _)
    constructor
    · refine hcorrected.trans (hpass.within ⟨?_, ?_, ?_, ?_⟩ fun _ h => h.2 hkeep)
      · exact fun _ h => h.elim
      · exact fun _ _ h => h.elim
      · exact fun _ _ h => .inr ⟨hkeep, h⟩
      · exact fun _ _ h => h.elim
    · intro d' hd'
      obtain ⟨d, hd, hchanged⟩ := hpass.source d' hd'
      obtain ⟨hname, hparents⟩ := hclear d hd
      refine ⟨?_, fun p hp => hparents p ((hchanged.parents_from p hp).resolve_right id)⟩
      have hname' : d'.name = d.name := congrArg DeclKey.name hchanged.key
      rwa [hname']

/-- **A ready module comes from the module as it was given**, and it names nothing that is
removed. -/
theorem changes_ready (hkeys : (m.declarations.map key).Nodup)
    (h : Pipeline.run ⟨o.readyStages⟩ cx m = .ok ready) :
    Revision (Changed (o.change cx m)) (o.Stays cx m) m.declarations ready.declarations ∧
      ∀ d ∈ ready.declarations, Removal.Clear o.remove d := by
  obtain ⟨left, hleft, rfl⟩ := exists_left h
  obtain ⟨hchanges, hclear⟩ := changes_left hkeys hleft
  cases hmerge : o.noMergeCategories with
  | true => exact ⟨hchanges, hclear⟩
  | false =>
    have hmerged := Categories.changes_apply cx.external.find? left
    -- What a category hands over it has been given.
    have hcategory : ∀ c ∈ left.declarations, ∀ key, c.Extends key →
        ∃ c' ∈ m.declarations, c'.Extends key ∧ (∀ p ∈ c.parents, p ∈ c'.parents) ∧
          ∀ x ∈ c.entries, x ∈ c'.entries := by
      intro c hc key hextends
      obtain ⟨c', hc', hchanged⟩ := hchanges.source c hc
      have hextends' : c'.Extends key := hchanged.extends_iff.mp hextends
      have hkind : c'.key.kind ≠ .interface := fun heq =>
        absurd (hextends'.kind.1.symm.trans heq) (by decide)
      refine ⟨c', hc', hextends', fun p hp => ?_, fun x hx => ?_⟩
      · exact (hchanged.parents_from p hp).resolve_right (not_links_of_kind hkind)
      · exact (hchanged.entries_from x hx).resolve_right (not_gains_of_kind hkind)
    constructor
    · refine hchanges.trans (hmerged.within ⟨?_, ?_, ?_, ?_⟩ fun _ _ => trivial)
      · exact fun _ h => h.elim
      · rintro key p ⟨c, hc, hextends, hp⟩
        obtain ⟨c', hc', hextends', hparents, -⟩ := hcategory c hc key hextends
        exact .inr ⟨hmerge, c', hc', hextends', hparents p hp⟩
      · exact fun _ _ h => h.elim
      · rintro key x ⟨c, hc, hextends, hx⟩
        obtain ⟨c', hc', hextends', -, hentries⟩ := hcategory c hc key hextends
        exact .inr ⟨hmerge, c', hc', hextends', hentries x hx⟩
    · intro d' hd'
      obtain ⟨d, hd, hchanged⟩ := hmerged.source d' hd'
      have hname : d'.name = d.name := congrArg DeclKey.name hchanged.key
      refine ⟨hname ▸ (hclear d hd).1, ?_⟩
      intro p hp
      rcases hchanged.parents_from p hp with hp | ⟨c, hc, -, hp⟩
      · exact (hclear d hd).2 p hp
      · exact (hclear c hc).2 p hp

/-! ### What is judged and what is ready -/

/-- What is left comes from what is judged, with the same base. -/
theorem exists_corrected_of_left {left : Module} (h : Left o cx m left)
    (hd : d ∈ left.declarations) :
    ∃ d' ∈ (o.corrected cx m).declarations, d'.key = d.key ∧ d'.base? = d.base? := by
  cases h with
  | all => exact ⟨d, hd, rfl, rfl⟩
  | judged hkeep htrim =>
    have htrimming := Unsupported.trimAll_trimming htrim (Analyzer.resting_fresh _)
      (Unsupported.resolves_view cx _)
    obtain ⟨d', hd', -, htrimmed⟩ := htrimming.exists_of_mem hd
    obtain ⟨members, rfl⟩ := htrimmed.shape
    exact ⟨d', hd', (d'.key_withMembers members).symm, by simp⟩

/-- What is ready comes from what is judged, with the same base. -/
theorem exists_corrected_of_ready (h : Pipeline.run ⟨o.readyStages⟩ cx m = .ok ready)
    (hd : d ∈ ready.declarations) :
    ∃ d' ∈ (o.corrected cx m).declarations, d'.key = d.key ∧ d'.base? = d.base? := by
  obtain ⟨left, hleft, rfl⟩ := exists_left h
  cases hmerge : o.noMergeCategories with
  | true =>
    rw [hmerge] at hd
    exact exists_corrected_of_left hleft hd
  | false =>
    rw [hmerge] at hd
    obtain ⟨e, he, hamended⟩ := (revision_categories cx.external.find? left).source d hd
    obtain ⟨d', hd', hkey, hbase⟩ := exists_corrected_of_left hleft he
    refine ⟨d', hd', hkey.trans hamended.key.symm, ?_⟩
    rw [hbase, hamended.base, Option.bind_fun_some]

theorem keys_left (hkeys : (m.declarations.map key).Nodup) {left : Module}
    (h : Left o cx m left) : (left.declarations.map key).Sublist (m.declarations.map key) := by
  have hcorrected : ((o.corrected cx m).declarations.map key).Sublist (m.declarations.map key) :=
    (revision_corrected hkeys).keys
  cases h with
  | all => exact hcorrected
  | judged hkeep htrim =>
    have htrimming := Unsupported.trimAll_trimming htrim (Analyzer.resting_fresh _)
      (Unsupported.resolves_view cx _)
    exact htrimming.keys.trans hcorrected

theorem keys_ready (hkeys : (m.declarations.map key).Nodup)
    (h : Pipeline.run ⟨o.readyStages⟩ cx m = .ok ready) :
    (ready.declarations.map key).Sublist (m.declarations.map key) := by
  obtain ⟨left, hleft, rfl⟩ := exists_left h
  have hleft := keys_left hkeys hleft
  cases o.noMergeCategories with
  | true => exact hleft
  | false => exact (revision_categories cx.external.find? left).keys.trans hleft

/-- The base of an interface in a ready module is the one that replaces its base as given. -/
theorem base?_of_ready (hkeys : (m.declarations.map key).Nodup)
    (h : Pipeline.run ⟨o.readyStages⟩ cx m = .ok ready) (hd : d ∈ m.declarations)
    {d' : Declaration} (hd' : d' ∈ ready.declarations) (hkey : d'.key = d.key) :
    d'.base? = d.base?.bind (o.rebase cx m) := by
  obtain ⟨e, he, hkey', hbase⟩ := exists_corrected_of_ready h hd'
  obtain ⟨g, hg, -, hamended⟩ := (revision_corrected hkeys).source e he
  obtain rfl : g = d :=
    List.inj_on_of_nodup_map hkeys hg hd (hamended.key.symm.trans (hkey'.trans hkey))
  rw [← hbase, hamended.base]

/-- The base of an interface in a ready module is its base where support is judged. -/
theorem refers_of_ready (hkeys : (m.declarations.map key).Nodup)
    (h : Pipeline.run ⟨o.readyStages⟩ cx m = .ok ready) (hd : d ∈ ready.declarations)
    {base : QualifiedName} (hbase : d.base? = some base) :
    (Unsupported.view cx (o.corrected cx m)).Refers (.decl d.key) (.decl ⟨.interface, base⟩) := by
  obtain ⟨d', hd', hkey, hbase'⟩ := exists_corrected_of_ready h hd
  have hfind := Revision.find?_key_of_mem (hkeys.sublist (revision_corrected hkeys).keys) hd'
  refine .base ?_ (hbase'.trans hbase)
  rw [Unsupported.find?_view, ← hkey, hfind]
  rfl

/-- What is ready is supported, if the analyzer is consistent in the end. -/
theorem supports_of_ready (hkeep : o.keepUnsupported = false)
    (hconsistent : ∀ kept after,
      Unsupported.trimAll { graph := Unsupported.view cx (o.corrected cx m) }
        (o.corrected cx m).declarations = .ok (kept, after) → after.Consistent)
    (h : Pipeline.run ⟨o.readyStages⟩ cx m = .ok ready) (hd : d ∈ ready.declarations) :
    ¬ (Unsupported.view cx (o.corrected cx m)).Unsupported (.decl d.key) ∧
      ∀ x ∈ d.entries, x.Meets (Unsupported.view cx (o.corrected cx m)).Admits := by
  obtain ⟨left, hleft, rfl⟩ := exists_left h
  have hsupports : ∀ e ∈ left.declarations,
      (Unsupported.view cx (o.corrected cx m)).Supports e := by
    intro e he
    cases hleft with
    | all hkeep' => exact absurd (hkeep.symm.trans hkeep') (by decide)
    | judged _ htrim =>
      have htrimming := Unsupported.trimAll_trimming htrim (Analyzer.resting_fresh _)
        (Unsupported.resolves_view cx _)
      exact htrimming.supports (hconsistent _ _ htrim) he
  have hentries : ∀ e ∈ left.declarations, ∀ x ∈ e.entries,
      x.Meets (Unsupported.view cx (o.corrected cx m)).Admits := by
    intro e he x hx
    obtain ⟨members, hmembers, hx⟩ := exists_of_mem_entries hx
    exact Members.meet_iff.mp ((hsupports e he).2 members hmembers) x hx
  cases hmerge : o.noMergeCategories with
  | true =>
    rw [hmerge] at hd
    exact ⟨(hsupports d hd).1, hentries d hd⟩
  | false =>
    rw [hmerge] at hd
    have hmerged := Categories.changes_apply cx.external.find? left
    obtain ⟨e, he, hchanged⟩ := hmerged.source d hd
    refine ⟨hchanged.key ▸ (hsupports e he).1, ?_⟩
    intro x hx
    rcases hchanged.entries_from x hx with hx | ⟨c, hc, -, hx⟩
    · exact hentries e he x hx
    · exact hentries c hc x hx

/-! ### Results -/

/-- A declaration of a ready module as it is in the result. -/
def final (o : Options) (cx : Context) (ready : Module) (d : Declaration) : Declaration :=
  if o.keepDuplicates then d else Inherited.drop (cx.lookup ready) d

@[simp] theorem key_final (o : Options) (cx : Context) (ready : Module) (d : Declaration) :
    (o.final cx ready d).key = d.key := by
  unfold final
  split <;> simp

@[simp] theorem parents_final (o : Options) (cx : Context) (ready : Module) (d : Declaration) :
    (o.final cx ready d).parents = d.parents := by
  unfold final
  split <;> simp

/-- **What a ready declaration has is in the result, or it is inherited.** -/
theorem mem_final_or_inherited {x : Member} (hx : x ∈ d.entries) :
    x ∈ (o.final cx ready d).entries ∨
      ∃ e ∈ (cx.lookup ready).reached parents d, e.Provides x := by
  unfold final
  split
  · exact .inl hx
  · exact Inherited.mem_drop_or_reached hx

theorem mem_of_mem_final {x : Member} (hx : x ∈ (o.final cx ready d).entries) : x ∈ d.entries := by
  unfold final at hx
  split at hx
  · exact hx
  · exact Inherited.mem_of_mem_drop hx

/-- Nothing in the result is inherited, if inherited members are dropped. -/
theorem not_provides_of_mem_final (hkeep : o.keepDuplicates = false) (hkind : d.kind ≠ .category)
    {x : Member} (hx : x ∈ (o.final cx ready d).entries) :
    ∀ e ∈ (cx.lookup ready).reached parents d, ¬ e.Provides x := by
  rw [final, hkeep] at hx
  exact ((Inherited.mem_entries_drop hkind).mp hx).2

end Options

/-- **A result is what a ready module leaves.** -/
theorem process_ready (hkeys : (m.declarations.map key).Nodup) {result : FinalModule}
    (h : o.pipeline.process cx m = .ok (.ok result)) :
    ∃ ready, Pipeline.run ⟨o.readyStages⟩ cx m = .ok ready ∧
      result.declarations = ready.declarations.map (o.final cx ready) := by
  cases hready : Pipeline.run ⟨o.readyStages⟩ cx m with
  | error e =>
    unfold Pipeline.process at h
    rw [Options.run_eq_finished, hready] at h
    cases h
  | ok ready =>
    refine ⟨ready, rfl, ?_⟩
    have hnodup := hkeys.sublist (Options.keys_ready hkeys hready)
    have hfinal : (o.finished cx ready).declarations =
        ready.declarations.map (o.final cx ready) := by
      have hsame : ready.declarations.map (o.final cx ready) =
          (if o.keepDuplicates then ready else Inherited.apply cx ready).declarations := by
        unfold Options.final
        cases o.keepDuplicates with
        | true => simp
        | false => rfl
      rw [hsame]
      refine distinctBy_eq_self ?_ (by simp)
      rw [← hsame, List.map_map]
      simpa [Function.comp_def] using hnodup
    have hrun : o.pipeline.run cx m = .ok (o.finished cx ready) := by
      rw [Options.run_eq_finished, hready]
      rfl
    have hprocess := Pipeline.process_of_run hrun nodup_map_distinctBy.1
    obtain rfl := Except.ok.inj (Except.ok.inj (h.symm.trans hprocess))
    exact hfinal

end ObjcMetadata
