import ObjcMetadata.Proofs.Batch.Closure
import ObjcMetadata.Proofs.Stage.Resolution
/-!
The modules of a batch one by one.

What a module of a batch sees of the others is a table of their declarations, in the order of the
batch, however often keys are repeated inside of modules and across them (`findExcluding?_others`).
So a batch is no more than its modules, each processed alone with such a table
(`processModules_alone`), as long as each of them has an answer alone. A type from another pool ends
the whole run, and then the other modules are left without the results that they have alone
(`processModules_foreign_unanswered`).
-/

namespace ObjcMetadata

/-! ### Owners -/

section Owners

variable {α β : Type} {f : α → List β}

theorem map_snd_flatMap_zipIdx (xs : List α) (k : Nat) :
    ((xs.zipIdx k).flatMap fun entry => (f entry.1).map (entry.2, ·)).map (·.2) =
      xs.flatMap f := by
  induction xs generalizing k with
  | nil => rfl
  | cons x rest ih =>
    rw [List.zipIdx_cons, List.flatMap_cons, List.map_append, ih, List.flatMap_cons]
    simp

/-- What is tagged with other positions than one comes from the other elements. -/
theorem filter_flatMap_zipIdx (xs : List α) (k i : Nat) :
    (((xs.zipIdx k).flatMap fun entry => (f entry.1).map (entry.2, ·)).filter
      (·.1 ≠ k + i)).map (·.2) = (xs.eraseIdx i).flatMap f := by
  induction xs generalizing k i with
  | nil => simp
  | cons x rest ih =>
    rw [List.zipIdx_cons, List.flatMap_cons, List.filter_append, List.map_append]
    cases i with
    | zero =>
      have hhead : ((f x).map (k, ·)).filter (·.1 ≠ k + 0) = [] := by simp
      have htail : ((rest.zipIdx (k + 1)).flatMap fun entry =>
          (f entry.1).map (entry.2, ·)).filter (·.1 ≠ k + 0) =
            (rest.zipIdx (k + 1)).flatMap fun entry => (f entry.1).map (entry.2, ·) := by
        rw [List.filter_eq_self]
        intro tagged htagged
        obtain ⟨entry, hentry, htagged⟩ := List.mem_flatMap.mp htagged
        obtain ⟨b, -, rfl⟩ := List.mem_map.mp htagged
        have hle := List.le_snd_of_mem_zipIdx hentry
        simp only [Nat.add_zero, ne_eq, decide_not, Bool.not_eq_eq_eq_not, Bool.not_true,
          decide_eq_false_iff_not]
        omega
      rw [hhead, htail, map_snd_flatMap_zipIdx, List.eraseIdx_cons_zero]
      rfl
    | succ i =>
      have hhead : ((f x).map (k, ·)).filter (·.1 ≠ k + (i + 1)) = (f x).map (k, ·) := by simp
      have hsame : k + (i + 1) = k + 1 + i := by omega
      rw [hhead, hsame, ih, List.eraseIdx_cons_succ, List.flatMap_cons]
      simp

end Owners

namespace Batch

/-- The declarations of all modules of a batch but one, in the order of the batch. -/
def others (modules : List Module) (i : Nat) : DeclTable :=
  .ofList ((modules.eraseIdx i).flatMap Module.declarations)

/-- **A module sees the others as a table of their declarations.** -/
theorem findExcluding?_others (modules : List Module) (i : Nat) (key : DeclKey) :
    (Snapshot.ofModules modules).findExcluding? i key = (others modules i).get? key := by
  have hothers := filter_flatMap_zipIdx
    (f := fun m : Module => m.declarations.filter (·.key = key)) modules 0 i
  rw [Nat.zero_add, ← Snapshot.owned_ofModules] at hothers
  calc (Snapshot.ofModules modules).findExcluding? i key
      = ((((Snapshot.ofModules modules).owned key).filter (·.1 ≠ i)).map (·.2)).head? := by
        rw [Snapshot.findExcluding?_eq, List.head?_map, List.head?_filter]
    _ = (((modules.eraseIdx i).flatMap Module.declarations).filter (·.key = key)).head? := by
        rw [hothers, List.filter_flatMap]
    _ = (others modules i).get? key := by
        rw [List.head?_filter, others, DeclTable.get?_ofList]
        rfl

theorem agree_others (pool : Pool) (modules : List Module) (i : Nat) :
    (context pool modules i).Agree ⟨pool, (others modules i).toLookup⟩ where
  pool := rfl
  find? := funext (findExcluding?_others modules i)

theorem process_others (o : Options) (pool : Pool) (modules : List Module) (i : Nat) :
    o.pipeline.process (context pool modules i) =
      processModule o pool (others modules i).toLookup :=
  funext (Pipeline.process_congr o (agree_others pool modules i))

/-- **The modules of a batch are processed alone**, each with a table of the declarations of the
others, in which it finds what it finds in the batch. The batch has answers just if each module has
one alone, and then they are these. Otherwise it ends with the error of one module, and there is
none if all types are in the pool. -/
theorem processModules_alone (o : Options) (pool : Pool) (modules : List Module) :
    (∀ i key,
      ((Snapshot.ofModules modules).excluding i).find? key = (others modules i).get? key) ∧
    (∀ answers, processModules o pool modules = .ok answers ↔
      ∀ i : Nat, answers[i]?.map .ok =
        modules[i]?.map (processModule o pool (others modules i).toLookup)) ∧
    (∀ e, processModules o pool modules = .error e →
      ∃ i m, modules[i]? = some m ∧
        processModule o pool (others modules i).toLookup m = .error e) ∧
    (pool.Closed → pool.contains .instancetype = true →
      (∀ m ∈ modules, ∀ d ∈ m.declarations, d.Inside pool) →
      ∃ answers, processModules o pool modules = .ok answers) := by
  refine ⟨findExcluding?_others modules, ?_, ?_, ?_⟩
  · intro answers
    rw [processModules_eq_ok_iff]
    refine forall_congr' fun i => ?_
    rw [process_others, eq_comm]
  · intro e herror
    obtain ⟨⟨m, i⟩, hentry, hprocess⟩ := exists_of_mapM_eq_error herror
    refine ⟨i, m, List.mem_zipIdx_iff_getElem?.mp hentry, ?_⟩
    rw [← process_others]
    exact hprocess
  · intro hpool hfixed hinside
    obtain ⟨results, hresults⟩ := exists_results hpool hfixed hinside
    exact ⟨_, hresults⟩

namespace Foreign

/-- A module with one variable. -/
def holder (name : String) (type : TypeId) : Module :=
  { name, declarations := [⟨⟨name, "value"⟩, .var type⟩] }

/-- A module whose type is in the pool. -/
def own : Module :=
  holder "Own" (.ofPrimitive .int)

/-- The type of the first module is not in the pool. -/
def batch : List Module :=
  [holder "Foreign" ⟨999⟩, own]

end Foreign

/-- A module with a type from the pool has in its batch the answer that it has alone. -/
theorem processModules_own_answered :
    Pool.initial.Closed ∧ Pool.initial.contains .instancetype = true ∧
      (∀ m ∈ [Foreign.own], ∀ d ∈ m.declarations, d.Inside .initial) ∧
      ∃ answers, processModules {} .initial [Foreign.own] = .ok answers ∧
        answers[0]?.map .ok =
          some (processModule {} .initial (others [Foreign.own] 0).toLookup Foreign.own) := by
  have hpool : Pool.initial.Closed := by decide +kernel
  have hfixed : Pool.initial.contains .instancetype = true := by decide +kernel
  have hinside : ∀ m ∈ [Foreign.own], ∀ d ∈ m.declarations, d.Inside .initial := by decide +kernel
  obtain ⟨-, hanswers, -, htotal⟩ := processModules_alone {} .initial [Foreign.own]
  obtain ⟨answers, hprocess⟩ := htotal hpool hfixed hinside
  exact ⟨hpool, hfixed, hinside, answers, hprocess, (hanswers answers).mp hprocess 0⟩

/-- A module that has a result alone has none in a batch with a type from another pool. -/
theorem processModules_foreign_unanswered :
    Foreign.batch[1]? = some Foreign.own ∧
      processModule {} .initial (others Foreign.batch 1).toLookup Foreign.own =
        .ok (.ok ⟨"Own", ⟨Foreign.own.declarations⟩, []⟩) ∧
      ∀ answers, processModules {} .initial Foreign.batch ≠ .ok answers := by
  have herror : (processModules {} .initial Foreign.batch).isOk = false := by decide +kernel
  refine ⟨rfl, by decide +kernel, ?_⟩
  intro answers hanswers
  rw [hanswers] at herror
  cases herror

end Batch

end ObjcMetadata
