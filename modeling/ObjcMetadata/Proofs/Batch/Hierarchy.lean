import ObjcMetadata.Proofs.Batch.Closure
import ObjcMetadata.Proofs.Declaration.Closure
import ObjcMetadata.Proofs.Ready
/-!
Who inherits from whom in a batch.

There are three hierarchies. Declarations as given name their parents (`Inherits`), those in the
results name others where something has been removed or merged (`Derives`), and each module sees a
mixture when it drops inherited members: its own declarations as they are ready, and those of the
other modules as they were given (`Sees`, `Ascends`). A module drops what it sees above
(`mem_reached_of_ascends`, `ascends_of_mem_reached`), and the results keep the parents of what is
ready (`derives_iff`).
-/

namespace ObjcMetadata.Batch

open Relation Declaration

variable {o : Options} {pool : Pool} {modules : List Module} {results : List FinalModule}
  {i j : Nat} {m ready : Module} {d e : Declaration} {a b : DeclKey}

/-! ### What is given, ready and put out -/

/-- A declaration of the batch, as given, names a parent. -/
def Inherits (modules : List Module) (a b : DeclKey) : Prop :=
  ∃ i d, Declares modules i d ∧ d.key = a ∧ b ∈ d.parents

/-- A module has made a declaration ready for the dropping of inherited members. -/
def Readies (o : Options) (pool : Pool) (modules : List Module) (i : Nat) (e : Declaration) :
    Prop :=
  ∃ m ready, modules[i]? = some m ∧
    Pipeline.run ⟨o.readyStages⟩ (context pool modules i) m = .ok ready ∧ e ∈ ready.declarations

/-- A declaration is in one of the results. -/
def Outputs (results : List FinalModule) (d : Declaration) : Prop :=
  ∃ result ∈ results, d ∈ result.declarations

/-- A declaration in the results names a parent. -/
def Derives (results : List FinalModule) (a b : DeclKey) : Prop :=
  ∃ d, Outputs results d ∧ d.key = a ∧ b ∈ d.parents

/-- What a module resolves when it drops inherited members. -/
inductive Sees (o : Options) (pool : Pool) (modules : List Module) (i : Nat) :
    Declaration → Prop where
  | own {e : Declaration} : Readies o pool modules i e → Sees o pool modules i e
  | other {j : Nat} {e : Declaration} : j ≠ i → Declares modules j e → Sees o pool modules i e

/-- What a module sees names a parent. -/
def Ascends (o : Options) (pool : Pool) (modules : List Module) (i : Nat) (a b : DeclKey) : Prop :=
  ∃ e, Sees o pool modules i e ∧ e.key = a ∧ b ∈ e.parents

theorem declares_iff (hm : modules[i]? = some m) : Declares modules i d ↔ d ∈ m.declarations := by
  constructor
  · rintro ⟨m', hm', hd⟩
    obtain rfl : m = m' := Option.some.inj (hm.symm.trans hm')
    exact hd
  · exact fun hd => ⟨m, hm, hd⟩

theorem readies_iff (hm : modules[i]? = some m)
    (hready : Pipeline.run ⟨o.readyStages⟩ (context pool modules i) m = .ok ready) :
    Readies o pool modules i e ↔ e ∈ ready.declarations := by
  constructor
  · rintro ⟨m', ready', hm', hready', he⟩
    obtain rfl : m = m' := Option.some.inj (hm.symm.trans hm')
    obtain rfl : ready = ready' := Except.ok.inj (hready.symm.trans hready')
    exact he
  · exact fun he => ⟨m, ready, hm, hready, he⟩

/-! ### From given to ready -/

/-- What is ready comes from something that the module declares, and it names nothing removed. -/
theorem Readies.source (hkeys : DistinctKeys modules) (h : Readies o pool modules i e) :
    ∃ m, modules[i]? = some m ∧ ∃ d ∈ m.declarations,
      d.Changed (o.change (context pool modules i) m) e ∧ Removal.Clear o.remove e := by
  obtain ⟨m, ready, hm, hready, he⟩ := h
  obtain ⟨hchanges, hclear⟩ :=
    Options.changes_ready (hkeys.nodup (List.mem_of_getElem? hm)) hready
  obtain ⟨d, hd, hchanged⟩ := hchanges.source e he
  exact ⟨m, hm, d, hd, hchanged, hclear e he⟩

/-- The module of what is ready declares its key. -/
theorem Readies.declares (hkeys : DistinctKeys modules) (h : Readies o pool modules i e) :
    ∃ d, Declares modules i d ∧ d.key = e.key := by
  obtain ⟨m, hm, d, hd, hchanged, -⟩ := h.source hkeys
  exact ⟨d, ⟨m, hm, hd⟩, hchanged.key.symm⟩

/-! ### What a module sees -/

theorem find?_ready (hkeys : DistinctKeys modules) (hm : modules[i]? = some m)
    (hready : Pipeline.run ⟨o.readyStages⟩ (context pool modules i) m = .ok ready) :
    ((context pool modules i).lookup ready).find? a = some e ↔
      Sees o pool modules i e ∧ e.key = a := by
  have hfind : ((context pool modules i).lookup ready).find? a =
      (ready.declarations.find? (·.key == a)).or
        ((Snapshot.ofModules modules).findExcluding? i a) := Unsupported.find?_view _ ready a
  have hnodup := hkeys.nodup (List.mem_of_getElem? hm)
  rw [hfind, Option.or_eq_some_iff]
  constructor
  · rintro (hown | ⟨-, hother⟩)
    · have hmem := List.mem_of_find?_eq_some hown
      exact ⟨.own ((readies_iff hm hready).mpr hmem), by simpa using List.find?_some hown⟩
    · obtain ⟨j, hne, he, hkey⟩ := (findExcluding?_eq_some_iff hkeys).mp hother
      exact ⟨.other hne he, hkey⟩
  · rintro ⟨hsees, rfl⟩
    cases hsees with
    | own hown =>
      exact .inl (Revision.find?_key_of_mem (hnodup.sublist (Options.keys_ready hnodup hready))
        ((readies_iff hm hready).mp hown))
    | @other j e hne he =>
      refine .inr ⟨?_, (findExcluding?_eq_some_iff hkeys).mpr ⟨j, hne, he, rfl⟩⟩
      rw [List.find?_eq_none]
      intro e' he' hkey
      obtain ⟨d, hd, hkey'⟩ := Readies.declares hkeys ((readies_iff hm hready).mpr he')
      exact hne (hkeys.unique he hd ((beq_iff_eq.mp hkey).symm.trans hkey'.symm)).1

theorem mem_linked_ready_iff (hkeys : DistinctKeys modules) (hm : modules[i]? = some m)
    (hready : Pipeline.run ⟨o.readyStages⟩ (context pool modules i) m = .ok ready) :
    b ∈ ((context pool modules i).lookup ready).linked parents a ↔
      Ascends o pool modules i a b := by
  simp only [Lookup.mem_linked_iff, find?_ready hkeys hm hready, Ascends, and_assoc]

/-- What a module inherits from it sees above. -/
theorem ascends_of_mem_reached (hkeys : DistinctKeys modules) (hm : modules[i]? = some m)
    (hready : Pipeline.run ⟨o.readyStages⟩ (context pool modules i) m = .ok ready)
    (hd : d ∈ ready.declarations)
    (he : e ∈ ((context pool modules i).lookup ready).reached parents d) :
    Sees o pool modules i e ∧ e.key ≠ d.key ∧
      TransGen (Ascends o pool modules i) d.key e.key := by
  obtain ⟨key, hne, hfind, a, ha, hleads⟩ := Lookup.leads_of_mem_reached he
  obtain ⟨hsees, rfl⟩ := (find?_ready hkeys hm hready).mp hfind
  have hfirst : Ascends o pool modules i d.key a :=
    ⟨d, .own ((readies_iff hm hready).mpr hd), rfl, ha⟩
  have hlinked : ((context pool modules i).lookup ready).Linked parents ≤
      Ascends o pool modules i := fun x y hxy => (mem_linked_ready_iff hkeys hm hready).mp hxy
  exact ⟨hsees, hne, .head' hfirst (ReflTransGen.mono hlinked a e.key hleads)⟩

/-- What a module sees above it inherits from. -/
theorem mem_reached_of_ascends (hkeys : DistinctKeys modules) (hm : modules[i]? = some m)
    (hready : Pipeline.run ⟨o.readyStages⟩ (context pool modules i) m = .ok ready)
    (hd : d ∈ ready.declarations) (hsees : Sees o pool modules i e) (hne : e.key ≠ d.key)
    (hleads : ReflTransGen (Ascends o pool modules i) d.key e.key) :
    e ∈ ((context pool modules i).lookup ready).reached parents d := by
  have hown : Sees o pool modules i d := .own ((readies_iff hm hready).mpr hd)
  have hlinked : Ascends o pool modules i ≤
      ((context pool modules i).lookup ready).Linked parents :=
    fun x y hxy => (mem_linked_ready_iff hkeys hm hready).mpr hxy
  exact Lookup.mem_reached_of_leads ((find?_ready hkeys hm hready).mpr ⟨hown, rfl⟩)
    ((find?_ready hkeys hm hready).mpr ⟨hsees, rfl⟩) hne
    (ReflTransGen.mono hlinked d.key e.key hleads)

/-! ### From ready to results -/

theorem exists_ready (hkeys : DistinctKeys modules)
    (hresults : processModules o pool modules = .ok (results.map .ok)) (hm : modules[i]? = some m) :
    ∃ result ready, results[i]? = some result ∧
      Pipeline.run ⟨o.readyStages⟩ (context pool modules i) m = .ok ready ∧
      result.declarations = ready.declarations.map (o.final (context pool modules i) ready) := by
  obtain ⟨result, hresult, hprocess⟩ := exists_result hresults hm
  obtain ⟨ready, hready, hfinal⟩ := process_ready (hkeys.nodup (List.mem_of_getElem? hm)) hprocess
  exact ⟨result, ready, hresult, hready, hfinal⟩

theorem exists_ready_of_result (hkeys : DistinctKeys modules)
    (hresults : processModules o pool modules = .ok (results.map .ok)) {result : FinalModule}
    (hresult : results[i]? = some result) :
    ∃ m ready, modules[i]? = some m ∧
      Pipeline.run ⟨o.readyStages⟩ (context pool modules i) m = .ok ready ∧
      result.declarations = ready.declarations.map (o.final (context pool modules i) ready) := by
  have hsame := process_eq_getElem? hresults i
  rw [hresult, Option.map_some] at hsame
  obtain ⟨m, hm, -⟩ := Option.map_eq_some_iff.mp hsame
  obtain ⟨result', ready, hresult', hready, hfinal⟩ := exists_ready hkeys hresults hm
  obtain rfl : result = result' := Option.some.inj (hresult.symm.trans hresult')
  exact ⟨m, ready, hm, hready, hfinal⟩

/-- What is put out is what is ready, without what it inherits. -/
theorem outputs_iff (hkeys : DistinctKeys modules)
    (hresults : processModules o pool modules = .ok (results.map .ok)) :
    Outputs results d ↔ ∃ i m ready, modules[i]? = some m ∧
      Pipeline.run ⟨o.readyStages⟩ (context pool modules i) m = .ok ready ∧
      ∃ e ∈ ready.declarations, d = o.final (context pool modules i) ready e := by
  constructor
  · rintro ⟨result, hmem, hd⟩
    obtain ⟨i, hresult⟩ := List.mem_iff_getElem?.mp hmem
    obtain ⟨m, ready, hm, hready, hfinal⟩ := exists_ready_of_result hkeys hresults hresult
    rw [hfinal] at hd
    obtain ⟨e, he, rfl⟩ := List.mem_map.mp hd
    exact ⟨i, m, ready, hm, hready, e, he, rfl⟩
  · rintro ⟨i, m, ready, hm, hready, e, he, rfl⟩
    obtain ⟨result, ready', hresult, hready', hfinal⟩ := exists_ready hkeys hresults hm
    obtain rfl : ready = ready' := Except.ok.inj (hready.symm.trans hready')
    exact ⟨result, List.mem_of_getElem? hresult, hfinal ▸ List.mem_map_of_mem he⟩

/-- The results have the parents of what is ready. -/
theorem derives_iff (hkeys : DistinctKeys modules)
    (hresults : processModules o pool modules = .ok (results.map .ok)) :
    Derives results a b ↔ ∃ i e, Readies o pool modules i e ∧ e.key = a ∧ b ∈ e.parents := by
  constructor
  · rintro ⟨d, hd, rfl, hb⟩
    obtain ⟨i, m, ready, hm, hready, e, he, rfl⟩ := (outputs_iff hkeys hresults).mp hd
    exact ⟨i, e, (readies_iff hm hready).mpr he, by simp, by simpa using hb⟩
  · rintro ⟨i, e, ⟨m, ready, hm, hready, he⟩, rfl, hb⟩
    exact ⟨_, (outputs_iff hkeys hresults).mpr ⟨i, m, ready, hm, hready, e, he, rfl⟩, by simp,
      by simpa using hb⟩

end ObjcMetadata.Batch
