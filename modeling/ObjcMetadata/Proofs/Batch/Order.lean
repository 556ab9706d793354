import Mathlib.Data.Fin.VecNotation
import Mathlib.Data.List.OfFn
import Mathlib.Logic.Equiv.Basic
import ObjcMetadata.Proofs.Batch.Closure
import ObjcMetadata.Proofs.Stage.Resolution
/-!
The order of a batch.

A module finds a key in the earliest other module that declares it, and there the first declaration
of it (`findExcluding?_eq_findSome?`). The order of the batch matters here only if several modules
declare the key. If modules do not share keys, then each of them sees the same declarations wherever
it stands (`agree_reordered`), however often a key is repeated inside a module, and so a batch in
another order has the same results in that order, or again none (`processModules_reordered`).
-/

namespace ObjcMetadata

namespace Batch

/-- A module finds a key in the earliest of the others that declares it. -/
theorem findExcluding?_eq_findSome? (modules : List Module) (i : Nat) (key : DeclKey) :
    (Snapshot.ofModules modules).findExcluding? i key =
      modules.zipIdx.findSome? fun entry =>
        if entry.2 = i then none else entry.1.declarations.find? (·.key = key) := by
  rw [Snapshot.findExcluding?_eq, Snapshot.owned_ofModules, List.find?_flatMap, List.map_findSome?]
  congr 1
  funext entry
  by_cases howner : entry.2 = i
  · simp [howner]
  · simp [howner]

/-! ### Modules that do not share keys -/

/-- No key is declared by two modules. A module may declare a key several times. -/
def SeparateKeys {n : Nat} (modules : Fin n → Module) : Prop :=
  ∀ i j, i ≠ j → ∀ d ∈ (modules i).declarations, ∀ e ∈ (modules j).declarations, d.key ≠ e.key

variable {n : Nat} {modules : Fin n → Module}

theorem SeparateKeys.reorder (h : SeparateKeys modules) (order : Equiv.Perm (Fin n)) :
    SeparateKeys (modules ∘ order) :=
  fun i j hne => h (order i) (order j) fun heq => hne (order.injective heq)

theorem SeparateKeys.unique (h : SeparateKeys modules) {i j : Fin n} {key : DeclKey}
    {d e : Declaration} (hd : (modules i).declarations.find? (·.key = key) = some d)
    (he : (modules j).declarations.find? (·.key = key) = some e) : i = j := by
  by_contra hne
  have hkey : d.key = key := by simpa using List.find?_some hd
  have hkey' : e.key = key := by simpa using List.find?_some he
  exact h i j hne d (List.mem_of_find?_eq_some hd) e (List.mem_of_find?_eq_some he)
    (hkey.trans hkey'.symm)

theorem mem_zipIdx_ofFn {entry : Module × Nat} :
    entry ∈ (List.ofFn modules).zipIdx ↔ ∃ j : Fin n, (modules j, j.val) = entry := by
  have hzip : (List.ofFn modules).zipIdx = List.ofFn fun j => (modules j, j.val) :=
    List.ext_getElem (by simp) (by simp)
  rw [hzip, List.mem_ofFn]

theorem exists_of_findExcluding?_ofFn {i : Fin n} {key : DeclKey} {d : Declaration}
    (h : (Snapshot.ofModules (List.ofFn modules)).findExcluding? i key = some d) :
    ∃ j, j ≠ i ∧ (modules j).declarations.find? (·.key = key) = some d := by
  rw [findExcluding?_eq_findSome?] at h
  obtain ⟨entry, hmem, hfound⟩ := List.exists_of_findSome?_eq_some h
  obtain ⟨j, rfl⟩ := mem_zipIdx_ofFn.mp hmem
  rw [Option.ite_none_left_eq_some] at hfound
  exact ⟨j, fun heq => hfound.1 (congrArg Fin.val heq), hfound.2⟩

/-- A module finds what the one other module that declares a key declares first. -/
theorem findExcluding?_ofFn_eq_some_iff (h : SeparateKeys modules) {i : Fin n} {key : DeclKey}
    {d : Declaration} :
    (Snapshot.ofModules (List.ofFn modules)).findExcluding? i key = some d ↔
      ∃ j, j ≠ i ∧ (modules j).declarations.find? (·.key = key) = some d := by
  constructor
  · exact exists_of_findExcluding?_ofFn
  · rintro ⟨j, hne, hfound⟩
    have hsome : ((Snapshot.ofModules (List.ofFn modules)).findExcluding? i key).isSome := by
      rw [findExcluding?_eq_findSome?]
      refine List.findSome?_isSome_iff.mpr ⟨_, mem_zipIdx_ofFn.mpr ⟨j, rfl⟩, ?_⟩
      rw [if_neg fun heq => hne (Fin.ext heq), hfound]
      rfl
    obtain ⟨e, hfind⟩ := Option.isSome_iff_exists.mp hsome
    obtain ⟨j', -, hfound'⟩ := exists_of_findExcluding?_ofFn hfind
    obtain rfl := h.unique hfound hfound'
    rw [hfind, ← hfound, hfound']

/-- A module sees the same of the others wherever it stands. -/
theorem agree_reordered (pool : Pool) (h : SeparateKeys modules) (order : Equiv.Perm (Fin n))
    (i : Fin n) :
    (context pool (List.ofFn (modules ∘ order)) i).Agree
      (context pool (List.ofFn modules) (order i)) where
  pool := rfl
  find? := by
    funext key
    refine Option.ext fun d => ?_
    show (Snapshot.ofModules _).findExcluding? i key = some d ↔
      (Snapshot.ofModules _).findExcluding? (order i) key = some d
    rw [findExcluding?_ofFn_eq_some_iff (h.reorder order), findExcluding?_ofFn_eq_some_iff h]
    constructor
    · rintro ⟨j, hne, hfound⟩
      exact ⟨order j, order.injective.ne hne, hfound⟩
    · rintro ⟨j, hne, hfound⟩
      refine ⟨order.symm j, ?_, ?_⟩
      · rintro rfl
        exact hne (order.apply_symm_apply j).symm
      · rwa [Function.comp_apply, order.apply_symm_apply]

theorem processModules_ofFn_eq_ok_iff {o : Options} {pool : Pool} {modules : Fin n → Module}
    {answers : Fin n → Except ModuleError FinalModule} :
    processModules o pool (List.ofFn modules) = .ok (List.ofFn answers) ↔
      ∀ i : Fin n, o.pipeline.process (context pool (List.ofFn modules) i) (modules i) =
        .ok (answers i) := by
  rw [processModules_eq_ok_iff]
  constructor
  · intro h i
    simpa using h i
  · intro h i
    rw [List.getElem?_ofFn, List.getElem?_ofFn]
    split
    · next hlt => exact congrArg some (h ⟨i, hlt⟩)
    · rfl

/-- A batch has as many answers as modules, or none. -/
theorem processModules_ofFn_cases (o : Options) (pool : Pool) (modules : Fin n → Module) :
    (∃ answers : Fin n → Except ModuleError FinalModule,
      processModules o pool (List.ofFn modules) = .ok (List.ofFn answers)) ∨
      ∃ e, processModules o pool (List.ofFn modules) = .error e := by
  cases hanswers : processModules o pool (List.ofFn modules) with
  | error e => exact .inr ⟨e, rfl⟩
  | ok answers =>
    have hlength := congrArg List.length (mapM_eq_ok_iff.mp hanswers)
    simp only [List.length_map, List.length_zipIdx, List.length_ofFn] at hlength
    subst hlength
    exact .inl ⟨answers.get, congrArg Except.ok (List.ofFn_get answers).symm⟩

/-- **A batch has the same results in every order**, in that order, if its modules do not share
keys. If it has none, it has none in any order. -/
theorem processModules_reordered (o : Options) (pool : Pool) {n : Nat} (modules : Fin n → Module)
    (hkeys : SeparateKeys modules) :
    (∃ results : Fin n → Except ModuleError FinalModule,
      processModules o pool (List.ofFn modules) = .ok (List.ofFn results) ∧
      ∀ order : Equiv.Perm (Fin n),
        processModules o pool (List.ofFn (modules ∘ order)) =
          .ok (List.ofFn (results ∘ order))) ∨
    ∀ order : Equiv.Perm (Fin n),
      ∃ e, processModules o pool (List.ofFn (modules ∘ order)) = .error e := by
  have hreorder : ∀ (order : Equiv.Perm (Fin n)) (results : Fin n → Except ModuleError FinalModule),
      processModules o pool (List.ofFn (modules ∘ order)) = .ok (List.ofFn (results ∘ order)) ↔
        processModules o pool (List.ofFn modules) = .ok (List.ofFn results) := by
    intro order results
    rw [processModules_ofFn_eq_ok_iff, processModules_ofFn_eq_ok_iff]
    refine order.forall_congr fun i => ?_
    rw [Pipeline.process_congr o (agree_reordered pool hkeys order i)]
    rfl
  rcases processModules_ofFn_cases o pool modules with ⟨results, hresults⟩ | ⟨e, herror⟩
  · exact .inl ⟨results, hresults, fun order => (hreorder order results).mpr hresults⟩
  · refine .inr fun order => (processModules_ofFn_cases o pool (modules ∘ order)).resolve_left ?_
    rintro ⟨results, hresults⟩
    have hback : (results ∘ order.symm) ∘ order = results :=
      funext fun i => congrArg results (order.symm_apply_apply i)
    rw [← hback, hreorder, herror] at hresults
    cases hresults

/-! ### A repeated interface -/

namespace Repeated

/-- An interface of the example, with one method if it is to have one. -/
def interface (module name : String) (base : Option QualifiedName) (selector : Option String) :
    Declaration :=
  let methods := selector.toList.map fun s => ({ selector := s, signature := [⟨0⟩] } : Method)
  ⟨⟨module, name⟩, .interface { base, members := { instanceMethods := methods } }⟩

/-- One module declares an interface twice, first with a method that the other module's interface
inherits, and then without it. -/
def batch : Fin 2 → Module :=
  ![{ name := "F",
      declarations := [interface "F" "Base" none "tidy", interface "F" "Base" none none] },
    { name := "A", declarations := [interface "A" "Sub" (some ⟨"F", "Base"⟩) "tidy"] }]

/-- What is left of the module with the repeated interface. -/
def kept : FinalModule :=
  ⟨"F", ⟨[interface "F" "Base" none "tidy"]⟩, []⟩

/-- What is left of the module with the interface that inherits. -/
def inheriting : FinalModule :=
  ⟨"A", ⟨[interface "A" "Sub" (some ⟨"F", "Base"⟩) none]⟩, []⟩

theorem separateKeys : SeparateKeys batch := by
  unfold SeparateKeys
  decide +kernel

end Repeated

theorem processModules_repeated_reordered :
    SeparateKeys Repeated.batch ∧
      processModules {} .initial (List.ofFn (Repeated.batch ∘ Equiv.swap 0 1)) =
        .ok [.ok Repeated.inheriting, .ok Repeated.kept] := by
  refine ⟨Repeated.separateKeys, ?_⟩
  have hgiven : processModules {} .initial (List.ofFn Repeated.batch) =
      .ok (List.ofFn ![.ok Repeated.kept, .ok Repeated.inheriting]) := by decide +kernel
  rcases processModules_reordered {} .initial Repeated.batch Repeated.separateKeys with
    ⟨results, hresults, hreordered⟩ | hnone
  · have hboth : results = ![.ok Repeated.kept, .ok Repeated.inheriting] :=
      List.ofFn_injective (Except.ok.inj (hresults.symm.trans hgiven))
    rw [hreordered, hboth]
    rfl
  · obtain ⟨e, herror⟩ := hnone (Equiv.refl _)
    exact nomatch hgiven.symm.trans herror

end Batch

end ObjcMetadata
