import Mathlib.Data.Set.List
import ObjcMetadata.Proofs.Batch.Views
import ObjcMetadata.Proofs.Sequence
import ObjcMetadata.Proofs.Support.Encoding
/-!
Whether the results of a batch refer only to each other.

With support in force, whatever a declaration in a result names (`Pool.Names`) is declared in the
batch. It is also in the result of the module that declares it, unless references lead there to a
name to be removed that does not resolve in that module's view (`processModules_closed`). So without
removals the results are closed, and with removals they need not be (`processModules_removal_open`):
each module resolves the others' declarations as they were given, and what a module removes others
may still name. All this is said of declarations in modules whose analyzer is consistent in the end.
-/

namespace ObjcMetadata

open Relation Support Declaration

/-! ### What a declaration names -/

/-- A declaration names a key if a type below its own types does, otherwise than as a protocol, or
if the key is that of its base. -/
inductive Pool.Names (pool : Pool) (d : Declaration) : DeclKey → Prop where
  | type {root id : TypeId} {node : TypeNode} {key : DeclKey} :
      root ∈ d.ownTypes → Reach.Reaches pool.successors root id → pool.node? id = some node →
      key ∈ node.references → key.kind ≠ .protocol → Names pool d key
  | base {base : QualifiedName} : d.base? = some base → Names pool d ⟨.interface, base⟩

variable {g : Graph} {key : DeclKey} {d : Declaration}

theorem refers_of_references {id : TypeId} {node : TypeNode} (hnode : g.pool.node? id = some node)
    (hkey : key ∈ node.references) (hkind : key.kind ≠ .protocol) :
    g.Refers (.type id) (.decl key) := by
  have hprotocol : ∀ {protocols : List QualifiedName},
      key ∈ protocols.map (DeclKey.mk .protocol) → g.Refers (.type id) (.decl key) := by
    intro protocols hmem
    obtain ⟨name, -, rfl⟩ := List.mem_map.mp hmem
    exact absurd rfl hkind
  unfold TypeNode.references at hkey
  cases node with
  | object protocols => exact hprotocol hkey
  | classObject protocols => exact hprotocol hkey
  | interface name protocols =>
    rcases List.mem_cons.mp hkey with rfl | hmem
    · exact .interface hnode
    · exact hprotocol hmem
  | struct name => exact List.mem_singleton.mp hkey ▸ .struct hnode
  | union name => exact List.mem_singleton.mp hkey ▸ .union hnode
  | _ => cases hkey

theorem mem_declDemand_of_ownTypes {id : TypeId} (hmembers : d.members? = none)
    (hid : id ∈ d.ownTypes) : .type id ∈ declDemand d := by
  unfold members? at hmembers
  unfold ownTypes at hid
  unfold declDemand
  cases hbody : d.body <;> simp_all

/-- What a supported declaration names is supported. -/
theorem not_unsupported_of_names {e : Declaration} (h : g.Supports d)
    (hfind : g.lookup.find? d.key = some e) (hneeds : declDemand e = declDemand d)
    (hnames : g.pool.Names d key) : ¬ g.Unsupported (.decl key) := by
  have hdemand : ∀ next ∈ declDemand d, ¬ g.Unsupported next := by
    intro next hnext hunsupported
    obtain ⟨last, hleads, hlacks⟩ := hunsupported
    exact h.1 ⟨last, hleads.head (Graph.refers_decl_iff.mpr ⟨e, hfind, hneeds ▸ hnext⟩), hlacks⟩
  cases hnames with
  | @type root id node _ hroot hreaches hnode hkey hkind =>
    have hadmits : ¬ g.Unsupported (.type root) := by
      cases hmembers : d.members? with
      | none => exact hdemand _ (mem_declDemand_of_ownTypes hmembers hroot)
      | some members =>
        rw [ownTypes_of_members? hmembers] at hroot
        exact (h.2 members hmembers).types root hroot
    rintro ⟨last, hleads, hlacks⟩
    have hrefers := refers_of_references hnode hkey hkind
    exact hadmits ⟨last, ((Graph.leads_of_reaches hreaches).tail hrefers).trans hleads, hlacks⟩
  | @base base hbase =>
    refine hdemand _ ?_
    rw [declDemand_of_interface (kind_of_base? hbase), hbase]
    exact List.mem_singleton_self _

/-! ### What survives -/

variable {o : Options} {cx : Context} {m : Module} {kept : List Declaration} {after : Analyzer}
  {result : FinalModule}

/-- A supported declaration is in the result. -/
theorem Processed.survives (h : Processed o cx m kept after result) {e : Declaration}
    (hfind : (o.corrected cx m).declarations.find? (·.key == key) = some e)
    (hkind : key.kind ≠ .category)
    (hsupported : ¬ (Unsupported.view cx (o.corrected cx m)).Unsupported (.decl key)) :
    ∃ d ∈ result.declarations, d.key = key := by
  have htrimming := h.trimming
  have hkey : e.key = key := by simpa using List.find?_some hfind
  obtain ⟨supported, hknown⟩ :=
    Option.isSome_iff_exists.mp (htrimming.known e (List.mem_of_find?_eq_some hfind))
  rw [hkey] at hknown
  cases supported with
  | false =>
    have hunsupported : after.graph.Unsupported (.decl key) := htrimming.resting.unsupported hknown
    rw [htrimming.graph] at hunsupported
    exact absurd hunsupported hsupported
  | true =>
    rcases htrimming.find? key with ⟨-, hlost⟩ | ⟨-, d, -, hd, -⟩
    · rw [hlost hknown] at hfind
      cases hfind
    · have hdkey : d.key = key := by simpa using List.find?_some hd
      obtain ⟨d', hd', hamended⟩ := h.completed.result d (List.mem_of_find?_eq_some hd) trivial
        (fun hcategory => hkind (hdkey ▸ hcategory))
      exact ⟨d', hd', hamended.key.trans hdkey⟩

/-- What is in a result is supported, if the analyzer is consistent in the end. -/
theorem Processed.supported (h : Processed o cx m kept after result)
    (hconsistent : after.Consistent) (hd : d ∈ result.declarations) :
    ¬ (Unsupported.view cx (o.corrected cx m)).Unsupported (.decl d.key) := by
  obtain ⟨e, he, hamended⟩ := h.completed.source d hd
  rw [hamended.key]
  exact (h.trimming.supports hconsistent he).1

/-- What a declaration in a result names is supported, if the analyzer is consistent in the end. -/
theorem Processed.names (h : Processed o cx m kept after result)
    (hkeys : (m.declarations.map Declaration.key).Nodup) (hconsistent : after.Consistent)
    (hd : d ∈ result.declarations) (hnames : cx.pool.Names d key) :
    ¬ (Unsupported.view cx (o.corrected cx m)).Unsupported (.decl key) := by
  have htrimming := h.trimming
  have hsupported : ∀ e ∈ kept, cx.pool.Names e key →
      ¬ (Unsupported.view cx (o.corrected cx m)).Unsupported (.decl key) := by
    intro e he hnames'
    obtain ⟨d', hd', -, htrimmed⟩ := htrimming.exists_of_mem he
    have hkeys' := hkeys.sublist (@Options.revision_corrected o cx m hkeys).keys
    have hfind := Revision.find?_key_of_mem hkeys' hd'
    obtain ⟨members, rfl⟩ := htrimmed.shape
    refine not_unsupported_of_names (e := d') (htrimming.supports hconsistent he) ?_
      (declDemand_withMembers d' members).symm hnames'
    rw [Unsupported.find?_view, key_withMembers, hfind]
    rfl
  obtain ⟨e, he, hamended⟩ := h.completed.source d hd
  cases hnames with
  | type hroot hreaches hnode hkey hkind =>
    rcases hamended.types _ hroot with hroot | hroot
    · exact hsupported e he (.type hroot hreaches hnode hkey hkind)
    · obtain ⟨e', he', hroot⟩ := List.mem_flatMap.mp hroot
      exact hsupported e' he' (.type hroot hreaches hnode hkey hkind)
  | base hbase =>
    rw [hamended.base, Option.bind_fun_some] at hbase
    exact hsupported e he (.base hbase)

namespace Batch

variable {pool : Pool} {modules : List Module}

/-- Support is judged consistently in a module of a batch: what its analyzer knows in the end to be
supported refers only to what it knows to be supported. -/
def JudgesConsistently (o : Options) (pool : Pool) (modules : List Module) (i : Nat) (m : Module) :
    Prop :=
  ∀ kept after, Unsupported.trimAll { graph := view o pool modules i m }
    (o.corrected (context pool modules i) m).declarations = .ok (kept, after) → after.Consistent

/-- Where nothing is dropped as unsupported, support is judged consistently. -/
theorem judgesConsistently_of_kept {i : Nat}
    (hkept : (Unsupported.trimAll { graph := view o pool modules i m }
      (o.corrected (context pool modules i) m).declarations).map Prod.fst =
        .ok (o.corrected (context pool modules i) m).declarations) :
    JudgesConsistently o pool modules i m := by
  intro kept after h
  rw [h] at hkept
  have htrimming :=
    Unsupported.trimAll_trimming h (Analyzer.resting_fresh _) (Unsupported.resolves_view _ _)
  exact htrimming.consistent (Except.ok.inj hkept) (Analyzer.consistent_fresh _)

/-- **A batch is processed** just if each of its modules is. The answers are in its order. -/
theorem processModules_eq_ok_iff {answers : List (Except ModuleError FinalModule)} :
    processModules o pool modules = .ok answers ↔
      ∀ i, modules[i]?.map (o.pipeline.process (context pool modules i)) =
        answers[i]?.map .ok := by
  unfold processModules
  rw [mapM_eq_ok_iff, List.ext_getElem?_iff]
  refine forall_congr' fun i => ?_
  rw [List.getElem?_map, List.getElem?_map, List.getElem?_zipIdx]
  cases modules[i]? <;> simp [context]

section Results

variable {results : List FinalModule}
  (hresults : processModules o pool modules = .ok (results.map .ok))

include hresults

theorem process_eq_getElem? (i : Nat) :
    modules[i]?.map (o.pipeline.process (context pool modules i)) =
      results[i]?.map fun result => .ok (.ok result) := by
  rw [processModules_eq_ok_iff.mp hresults i, List.getElem?_map, Option.map_map]
  rfl

/-- The module at a position has the result at that position. -/
theorem exists_result {i : Nat} (hm : modules[i]? = some m) :
    ∃ result, results[i]? = some result ∧
      o.pipeline.process (context pool modules i) m = .ok (.ok result) := by
  have hsame := process_eq_getElem? hresults i
  rw [hm, Option.map_some] at hsame
  obtain ⟨result, hresult, hprocess⟩ := Option.map_eq_some_iff.mp hsame.symm
  exact ⟨result, hresult, hprocess.symm⟩

theorem process_of_getElem? {i : Nat} (hm : modules[i]? = some m)
    (hresult : results[i]? = some result) :
    o.pipeline.process (context pool modules i) m = .ok (.ok result) := by
  obtain ⟨result', hresult', hprocess⟩ := exists_result hresults hm
  obtain rfl : result = result' := Option.some.inj (hresult.symm.trans hresult')
  exact hprocess

end Results

/-- **All modules of a batch have results**, if all types are in the pool. -/
theorem exists_results (hpool : pool.Closed)
    (hfixed : pool.contains .instancetype = true)
    (hinside : ∀ m ∈ modules, ∀ d ∈ m.declarations, d.Inside pool) :
    ∃ results : List FinalModule, processModules o pool modules = .ok (results.map .ok) := by
  have hlifts : (modules.zipIdx.map fun entry =>
      o.pipeline.process (context pool modules entry.2) entry.1) ∈
        Set.range (List.map fun result => .ok (.ok result)) := by
    rw [Set.range_list_map]
    intro answer hanswer
    obtain ⟨⟨m, i⟩, hentry, rfl⟩ := List.mem_map.mp hanswer
    have hexternal : ∀ key d, (context pool modules i).external.find? key = some d →
        d.Inside pool := by
      intro key d hfind
      obtain ⟨j, -, ⟨m', hm', hd⟩, -⟩ := declares_of_findExcluding? hfind
      exact hinside m' (List.mem_of_getElem? hm') d hd
    obtain ⟨result, hresult⟩ :=
      process_total (o := o) hpool hfixed hexternal (hinside m (List.fst_mem_of_mem_zipIdx hentry))
    exact ⟨result, hresult.symm⟩
  obtain ⟨results, hresults⟩ := hlifts
  refine ⟨results, mapM_eq_ok_iff.mpr ?_⟩
  rw [List.map_map]
  exact hresults.symm

theorem kind_of_names (hnames : pool.Names d key) : key.kind ≠ .category := by
  cases hnames with
  | @type _ _ _ _ _ _ hnode hkey hkind =>
    exact kind_of_refers (refers_of_references (g := ⟨pool, .empty⟩) hnode hkey hkind)
  | base hbase => simp

/-- A name to be removed does not resolve in the view of its own module. -/
theorem find?_view_of_removed_own (hkeys : DistinctKeys modules) {j : Nat} {m' : Module}
    (hm' : modules[j]? = some m') (hd : d ∈ m'.declarations) (hname : d.name ∈ o.remove) :
    (view o pool modules j m').lookup.find? d.key = none := by
  refine Option.eq_none_iff_forall_ne_some.mpr ?_
  intro e hfind
  obtain ⟨l, d', hd', hkey, ⟨hl, -⟩ | ⟨-, hstays, -⟩⟩ := find?_view_source hkeys hm' hfind
  · exact hl (hkeys.unique hd' ⟨m', hm', hd⟩ hkey).1
  · exact hstays hname

/-- What is supported in one view survives in the module that declares it, or is lost there. -/
theorem survives_or_loses (hkeep : o.keepUnsupported = false) (hkeys : DistinctKeys modules)
    {i j : Nat} {m' : Module} {result' : FinalModule} (hm : modules[i]? = some m)
    (hm' : modules[j]? = some m') (hne : j ≠ i)
    (hprocess : o.pipeline.process (context pool modules j) m' = .ok (.ok result'))
    (hd : d ∈ m'.declarations) (hkind : d.kind ≠ .category)
    (hsupported : ¬ (view o pool modules i m).Unsupported (.decl d.key)) :
    (∃ e ∈ result'.declarations, e.key = d.key) ∨
      Loses (view o pool modules j m') o.remove d.key := by
  by_cases hname : d.name ∈ o.remove
  · exact .inr ⟨d.key, .refl, hname, find?_view_of_removed_own hkeys hm' hd hname⟩
  by_cases hunsupported : (view o pool modules j m').Unsupported (.decl d.key)
  · exact .inr (loses_of_unsupported hkeys hm hm' hne hkind hsupported hunsupported)
  · obtain ⟨kept, after, hprocessed⟩ :=
      process_processed hkeep (hkeys.nodup (List.mem_of_getElem? hm')) hprocess
    obtain ⟨e, hfind, -, -⟩ := @find?_view_own o pool modules j m' d hkeys hm' hd hname hkind
    exact .inl (hprocessed.survives hfind hkind hunsupported)

/-- What is lost in a view does not survive there. -/
theorem ne_of_loses (hkeep : o.keepUnsupported = false) (hkeys : DistinctKeys modules) {j : Nat}
    {m' : Module} {result' : FinalModule} (hm' : modules[j]? = some m')
    (hprocess : o.pipeline.process (context pool modules j) m' = .ok (.ok result'))
    (hconsistent : JudgesConsistently o pool modules j m')
    (hloses : Loses (view o pool modules j m') o.remove key) :
    ∀ e ∈ result'.declarations, e.key ≠ key := by
  intro e he hkey
  obtain ⟨kept, after, hprocessed⟩ :=
    process_processed hkeep (hkeys.nodup (List.mem_of_getElem? hm')) hprocess
  obtain ⟨gone, hleads, -, hnone⟩ := hloses
  have hsupported := hprocessed.supported (hconsistent kept after hprocessed.judged) he
  rw [hkey] at hsupported
  exact hsupported ⟨_, hleads, .unresolved hnone⟩

/-- What a declaration in a result names is declared in the batch, and it survives or is lost in the
module that declares it. -/
theorem survives_or_loses_of_names (hkeep : o.keepUnsupported = false)
    (hkeys : DistinctKeys modules) {results : List FinalModule}
    (hresults : processModules o pool modules = .ok (results.map .ok))
    {i : Nat} (hm : modules[i]? = some m) (hresult : results[i]? = some result)
    (hconsistent : JudgesConsistently o pool modules i m)
    (hd : d ∈ result.declarations) (hnames : pool.Names d key) :
    ∃ j m' result', modules[j]? = some m' ∧ results[j]? = some result' ∧
      (∃ e ∈ m'.declarations, e.key = key) ∧
      ((∃ e ∈ result'.declarations, e.key = key) ∨
        Loses (view o pool modules j m') o.remove key) := by
  have hnodup := hkeys.nodup (List.mem_of_getElem? hm)
  have hprocess := process_of_getElem? hresults hm hresult
  obtain ⟨kept, after, hprocessed⟩ := process_processed hkeep hnodup hprocess
  have hsupported : ¬ (view o pool modules i m).Unsupported (.decl key) :=
    hprocessed.names hnodup (hconsistent kept after hprocessed.judged) hd hnames
  have hkind := kind_of_names hnames
  obtain ⟨e, hfind⟩ := Graph.resolves_of_leads hsupported .refl
  rw [find?_view, Option.or_eq_some_iff] at hfind
  rcases hfind with hown | ⟨-, hother⟩
  · obtain ⟨d', hd', hkey, -⟩ :=
      (Options.revision_corrected hnodup).find?_source (fun _ _ h => h.key) hown
    exact ⟨i, m, result, hm, hresult, ⟨d', hd', hkey⟩,
      .inl (hprocessed.survives hown hkind hsupported)⟩
  · obtain ⟨j, hne, ⟨m', hm', hd'⟩, rfl⟩ := (findExcluding?_eq_some_iff hkeys).mp hother
    obtain ⟨result', hresult', hprocess'⟩ := exists_result hresults hm'
    exact ⟨j, m', result', hm', hresult', ⟨e, hd', rfl⟩,
      survives_or_loses hkeep hkeys hm hm' hne hprocess' hd' hkind hsupported⟩

/-- **The results of a batch without repeated keys refer only to each other**, as far as support is
judged consistently, unless references lead to a name to be removed: what a declaration in a result
names is declared by a module of the batch and is in its result, unless in the view of that module
references lead from it to a name to be removed that does not resolve; and then it is not there. If
all types are in the pool, there are results for all modules. -/
theorem processModules_closed (o : Options) (pool : Pool) (modules : List Module)
    (hkeep : o.keepUnsupported = false) (hkeys : DistinctKeys modules) :
    (pool.Closed → pool.contains .instancetype = true →
      (∀ m ∈ modules, ∀ d ∈ m.declarations, d.Inside pool) →
      ∃ results : List FinalModule, processModules o pool modules = .ok (results.map .ok)) ∧
    ∀ results : List FinalModule, processModules o pool modules = .ok (results.map .ok) →
      ∀ i m result, modules[i]? = some m → results[i]? = some result →
        JudgesConsistently o pool modules i m →
        ∀ d ∈ result.declarations, ∀ key, pool.Names d key →
          ∃ j m' result', modules[j]? = some m' ∧ results[j]? = some result' ∧
            (∃ e ∈ m'.declarations, e.key = key) ∧
            ((∃ e ∈ result'.declarations, e.key = key) ∨
              Loses (view o pool modules j m') o.remove key) ∧
            (JudgesConsistently o pool modules j m' →
              Loses (view o pool modules j m') o.remove key →
              ∀ e ∈ result'.declarations, e.key ≠ key) := by
  constructor
  · intro hpool hfixed hinside
    exact exists_results hpool hfixed hinside
  · intro results hresults i m result hm hresult hconsistent d hd key hnames
    obtain ⟨j, m', result', hm', hresult', hdeclares, hsurvives⟩ :=
      survives_or_loses_of_names hkeep hkeys hresults hm hresult hconsistent hd hnames
    refine ⟨j, m', result', hm', hresult', hdeclares, hsurvives, ?_⟩
    intro hconsistent' hloses
    have hprocess' := process_of_getElem? hresults hm' hresult'
    exact ne_of_loses hkeep hkeys hm' hprocess' hconsistent' hloses

/-! ### Two modules -/

namespace Shared

/-- The struct of the example. -/
def structName : QualifiedName :=
  ⟨"A", "S"⟩

def types : Pool :=
  Pool.initial.internAll [.struct structName]

/-- A function that returns the struct. -/
def function : Declaration :=
  ⟨⟨"B", "f"⟩, .function [⟨30⟩] {}⟩

/-- One module declares the struct, and the other the function. -/
def batch : List Module :=
  [{ name := "A", declarations := [⟨structName, .struct [⟨"n", ⟨4⟩⟩]⟩] },
    { name := "B", declarations := [function] }]

theorem distinctKeys : DistinctKeys batch := by
  unfold DistinctKeys
  decide

theorem names : types.Names function ⟨.struct, structName⟩ := by
  have hnode : types.node? ⟨30⟩ = some (.struct structName) := by decide +kernel
  exact .type (List.mem_singleton_self _) (.refl _) hnode (List.mem_singleton_self _) (by decide)

/-- Nothing is dropped from the second module, so it is judged consistently. -/
theorem judgesConsistently :
    JudgesConsistently {} types batch 1 { name := "B", declarations := [function] } :=
  judgesConsistently_of_kept (by decide +kernel)

end Shared

/-- If nothing is to be removed, what the function returns is in a result. -/
theorem processModules_shared_closed :
    DistinctKeys Shared.batch ∧
      ∃ results : List FinalModule, processModules {} Shared.types Shared.batch =
        .ok (results.map .ok) ∧
        ∃ result ∈ results, ∃ e ∈ result.declarations, e.key = ⟨.struct, Shared.structName⟩ := by
  obtain ⟨htotal, hclosed⟩ :=
    processModules_closed {} Shared.types Shared.batch rfl Shared.distinctKeys
  obtain ⟨results, hresults⟩ :=
    htotal (by decide +kernel) (by decide +kernel) (by decide +kernel)
  have hsecond : ∃ result, results[1]? = some result ∧ Shared.function ∈ result.declarations := by
    have hkept : (processModules {} Shared.types Shared.batch).map
        (·[1]?.map (·.map FinalModule.declarations)) =
          .ok (some (.ok [Shared.function])) := by decide +kernel
    rw [hresults, Except.map, Except.ok.injEq, List.getElem?_map, Option.map_map] at hkept
    obtain ⟨result, hresult, hdeclarations⟩ := Option.map_eq_some_iff.mp hkept
    refine ⟨result, hresult, ?_⟩
    rw [Except.ok.inj hdeclarations]
    exact List.mem_singleton_self _
  obtain ⟨result, hresult, hfunction⟩ := hsecond
  obtain ⟨j, m', result', hm', hresult', -, hsurvives, -⟩ :=
    hclosed results hresults 1 _ result rfl hresult Shared.judgesConsistently _ hfunction _
      Shared.names
  refine ⟨Shared.distinctKeys, results, hresults, result', List.mem_of_getElem? hresult', ?_⟩
  exact hsurvives.resolve_right fun ⟨gone, _, hremoved, _⟩ => List.not_mem_nil hremoved

/-- If the struct is to be removed, its own module drops it, and the other still resolves it. -/
theorem processModules_removal_open :
    ({ remove := [Shared.structName] } : Options).keepUnsupported = false ∧
      DistinctKeys Shared.batch ∧
      ∃ results : List FinalModule,
        processModules { remove := [Shared.structName] } Shared.types Shared.batch =
          .ok (results.map .ok) ∧
        ¬ ∀ result ∈ results, ∀ d ∈ result.declarations, ∀ key, Shared.types.Names d key →
          ∃ result' ∈ results, ∃ e ∈ result'.declarations, e.key = key := by
  have hresults : processModules { remove := [Shared.structName] } Shared.types Shared.batch =
      .ok [.ok ⟨"A", ⟨[]⟩, []⟩, .ok ⟨"B", ⟨[Shared.function]⟩, []⟩] := by decide +kernel
  refine ⟨rfl, Shared.distinctKeys, [⟨"A", ⟨[]⟩, []⟩, ⟨"B", ⟨[Shared.function]⟩, []⟩], hresults, ?_⟩
  intro hclosed
  obtain ⟨result', hresult', e, he, hkey⟩ := hclosed _ (List.mem_cons_of_mem _ List.mem_cons_self)
    Shared.function (List.mem_singleton_self _) _ Shared.names
  have hnowhere : ∀ result' ∈ [(⟨"A", ⟨[]⟩, []⟩ : FinalModule), ⟨"B", ⟨[Shared.function]⟩, []⟩],
      ∀ e ∈ result'.declarations, e.key ≠ ⟨.struct, Shared.structName⟩ := by decide
  exact hnowhere result' hresult' e he hkey

end Batch

end ObjcMetadata
