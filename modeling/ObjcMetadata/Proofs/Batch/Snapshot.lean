import Mathlib.Data.List.Nodup
import ObjcMetadata.Batch.Snapshot
/-!
What a snapshot finds.

A snapshot keeps, for each key, the declarations of all modules in their order
(`mem_owned_ofModules`). If no key is declared twice in the batch, a module finds in it exactly the
declarations of the other modules (`findExcluding?_eq_some_iff`).
-/

namespace ObjcMetadata

/-! ### Entries -/

namespace Snapshot

/-- The declarations of a key, each with its owner. -/
def owned (s : Snapshot) (key : DeclKey) : List (Nat × Declaration) :=
  (s.entries.lookup key).getD []

theorem lookup_addEntry (owner : Nat) (d : Declaration) (key : DeclKey)
    (entries : List (DeclKey × List (Nat × Declaration))) :
    ((addEntry owner d entries).lookup key).getD [] =
      (entries.lookup key).getD [] ++ if d.key = key then [(owner, d)] else [] := by
  induction entries with
  | nil =>
    by_cases hkey : d.key = key
    · subst hkey
      simp [addEntry]
    · have hne : (key == d.key) = false := beq_eq_false_iff_ne.mpr (Ne.symm hkey)
      simp [addEntry, List.lookup_cons, hne, hkey]
  | cons entry rest ih =>
    obtain ⟨other, list⟩ := entry
    unfold addEntry
    by_cases hother : other = d.key
    · subst hother
      by_cases hkey : d.key = key
      · subst hkey
        simp
      · have hne : (key == d.key) = false := beq_eq_false_iff_ne.mpr (Ne.symm hkey)
        simp [List.lookup_cons, hne, hkey]
    · rw [if_neg hother]
      by_cases hkey : key = other
      · subst hkey
        simp [Ne.symm hother]
      · have hne : (key == other) = false := beq_eq_false_iff_ne.mpr hkey
        simpa [List.lookup_cons, hne] using ih

theorem owned_addModule (s : Snapshot) (owner : Nat) (m : Module) (key : DeclKey) :
    (s.addModule owner m).owned key =
      s.owned key ++ (m.declarations.filter (·.key = key)).map (owner, ·) := by
  unfold addModule owned
  show ((m.declarations.foldl (fun entries d => addEntry owner d entries) s.entries).lookup
    key).getD [] = _
  generalize s.entries = entries
  induction m.declarations generalizing entries with
  | nil => simp
  | cons d rest ih =>
    rw [List.foldl_cons, ih, lookup_addEntry]
    by_cases hkey : d.key = key
    · simp [hkey]
    · simp [hkey]

theorem owned_ofModules (modules : List Module) (key : DeclKey) :
    (ofModules modules).owned key =
      modules.zipIdx.flatMap fun entry =>
        (entry.1.declarations.filter (·.key = key)).map (entry.2, ·) := by
  have hfold : ∀ (entries : List (Module × Nat)) (s : Snapshot),
      (entries.foldl (fun s entry => s.addModule entry.2 entry.1) s).owned key =
        s.owned key ++ entries.flatMap fun entry =>
          (entry.1.declarations.filter (·.key = key)).map (entry.2, ·) := by
    intro entries
    induction entries with
    | nil => simp
    | cons entry rest ih =>
      intro s
      rw [List.foldl_cons, ih, owned_addModule, List.flatMap_cons, List.append_assoc]
  exact hfold modules.zipIdx {}

/-- The snapshot of a batch has every declaration with the position of its module. -/
theorem mem_owned_ofModules {modules : List Module} {key : DeclKey} {owner : Nat}
    {d : Declaration} :
    (owner, d) ∈ (ofModules modules).owned key ↔
      ∃ m, modules[owner]? = some m ∧ d ∈ m.declarations ∧ d.key = key := by
  rw [owned_ofModules]
  simp only [List.mem_flatMap, Prod.exists, List.mem_zipIdx_iff_getElem?, List.mem_map,
    List.mem_filter, decide_eq_true_eq, Prod.mk.injEq]
  constructor
  · rintro ⟨m, i, hm, e, ⟨he, hkey⟩, rfl, rfl⟩
    exact ⟨m, hm, he, hkey⟩
  · rintro ⟨m, hm, hd, hkey⟩
    exact ⟨m, owner, hm, d, ⟨hd, hkey⟩, rfl, rfl⟩

theorem findExcluding?_eq (s : Snapshot) (owner : Nat) (key : DeclKey) :
    s.findExcluding? owner key = ((s.owned key).find? fun entry => entry.1 ≠ owner).map (·.2) := by
  unfold findExcluding? owned
  cases s.entries.lookup key with
  | none => rfl
  | some list => rfl

end Snapshot

/-! ### Batches without repeated keys -/

namespace Batch

/-- The module at a position declares something. -/
def Declares (modules : List Module) (owner : Nat) (d : Declaration) : Prop :=
  ∃ m, modules[owner]? = some m ∧ d ∈ m.declarations

/-- No key is declared twice in a batch. -/
def DistinctKeys (modules : List Module) : Prop :=
  ((modules.flatMap Module.declarations).map Declaration.key).Nodup

variable {modules : List Module} {i j : Nat} {d e : Declaration}

theorem Declares.mem (h : Declares modules i d) : d ∈ modules.flatMap Module.declarations := by
  obtain ⟨m, hm, hd⟩ := h
  exact List.mem_flatMap.mpr ⟨m, List.mem_of_getElem? hm, hd⟩

/-- A key has one declaration, in one module. -/
theorem DistinctKeys.unique (h : DistinctKeys modules) (hd : Declares modules i d)
    (he : Declares modules j e) (hkey : d.key = e.key) : i = j ∧ d = e := by
  obtain rfl : d = e := List.inj_on_of_nodup_map h hd.mem he.mem hkey
  refine ⟨?_, rfl⟩
  obtain ⟨-, hpairwise⟩ := List.nodup_flatMap.mp h.of_map
  rw [List.pairwise_iff_getElem] at hpairwise
  obtain ⟨m, hm, hmem⟩ := hd
  obtain ⟨m', hm', hmem'⟩ := he
  obtain ⟨hi, rfl⟩ := List.getElem?_eq_some_iff.mp hm
  obtain ⟨hj, rfl⟩ := List.getElem?_eq_some_iff.mp hm'
  rcases Nat.lt_trichotomy i j with hlt | heq | hlt
  · exact absurd hmem' (hpairwise i j hi hj hlt hmem)
  · exact heq
  · exact absurd hmem (hpairwise j i hj hi hlt hmem')

theorem DistinctKeys.nodup (h : DistinctKeys modules) {m : Module} (hm : m ∈ modules) :
    (m.declarations.map Declaration.key).Nodup := by
  unfold DistinctKeys at h
  rw [List.map_flatMap] at h
  exact (List.nodup_flatMap.mp h).1 m hm

/-- A module finds outside of it what another module declares. -/
theorem declares_of_findExcluding? {key : DeclKey}
    (h : (Snapshot.ofModules modules).findExcluding? i key = some d) :
    ∃ j, j ≠ i ∧ Declares modules j d ∧ d.key = key := by
  rw [Snapshot.findExcluding?_eq] at h
  obtain ⟨⟨j, d'⟩, hentry, rfl⟩ := Option.map_eq_some_iff.mp h
  obtain ⟨m, hm, hd, hkey⟩ := Snapshot.mem_owned_ofModules.mp (List.mem_of_find?_eq_some hentry)
  exact ⟨j, by simpa using List.find?_some hentry, ⟨m, hm, hd⟩, hkey⟩

/-- A module finds outside of it exactly what other modules declare, if no key is declared twice. -/
theorem findExcluding?_eq_some_iff (h : DistinctKeys modules) {key : DeclKey} :
    (Snapshot.ofModules modules).findExcluding? i key = some d ↔
      ∃ j, j ≠ i ∧ Declares modules j d ∧ d.key = key := by
  constructor
  · exact declares_of_findExcluding?
  · rintro ⟨j, hne, hd, hkey⟩
    rw [Snapshot.findExcluding?_eq]
    obtain ⟨m, hm, hmem⟩ := hd
    have hentry : (j, d) ∈ (Snapshot.ofModules modules).owned key :=
      Snapshot.mem_owned_ofModules.mpr ⟨m, hm, hmem, hkey⟩
    have hsome : (((Snapshot.ofModules modules).owned key).find? fun entry => entry.1 ≠ i).isSome :=
      List.find?_isSome.mpr ⟨_, hentry, by simpa using hne⟩
    obtain ⟨⟨j', d'⟩, hfirst⟩ := Option.isSome_iff_exists.mp hsome
    obtain ⟨m', hm', hd', hkey'⟩ :=
      Snapshot.mem_owned_ofModules.mp (List.mem_of_find?_eq_some hfirst)
    obtain ⟨-, rfl⟩ := h.unique ⟨m, hm, hmem⟩ ⟨m', hm', hd'⟩ (hkey.trans hkey'.symm)
    rw [hfirst]
    rfl

end Batch

end ObjcMetadata
