import ObjcMetadata.Module.Basic
/-!
A snapshot of all modules of a batch.

The snapshot is taken before any module is processed. It remembers for each declaration which module
owns it, so that each module can see the declarations of all the others but none of its own, some of
which it may have dropped already.
-/

namespace ObjcMetadata

/-- The declarations of a batch by key, each with the position of the module that owns it, in the
order of the batch. -/
structure Snapshot where
  entries : List (DeclKey × List (Nat × Declaration)) := []
deriving DecidableEq, Repr, Inhabited

namespace Snapshot

/-- Adds a declaration to the entry of its key, or starts that entry. -/
def addEntry (owner : Nat) (d : Declaration) :
    List (DeclKey × List (Nat × Declaration)) → List (DeclKey × List (Nat × Declaration))
  | [] => [(d.key, [(owner, d)])]
  | (key, owned) :: rest =>
    if key = d.key then (key, owned ++ [(owner, d)]) :: rest
    else (key, owned) :: addEntry owner d rest

/-- Adds the declarations of one module. -/
def addModule (s : Snapshot) (owner : Nat) (m : Module) : Snapshot :=
  ⟨m.declarations.foldl (fun entries d => addEntry owner d entries) s.entries⟩

/-- The snapshot of a batch. Modules are known by their positions. -/
def ofModules (modules : List Module) : Snapshot :=
  modules.zipIdx.foldl (fun s entry => s.addModule entry.2 entry.1) {}

/-- The number of distinct keys. -/
def size (s : Snapshot) : Nat :=
  s.entries.length

/-- Whether there are no declarations. -/
def isEmpty (s : Snapshot) : Bool :=
  s.entries.isEmpty

/-- The declaration of a key in the earliest module other than the given one. -/
def findExcluding? (s : Snapshot) (owner : Nat) (key : DeclKey) : Option Declaration :=
  match s.entries.lookup key with
  | some owned => (owned.find? fun entry => entry.1 ≠ owner).map (·.2)
  | none => none

/-- The view of all modules other than the given one. -/
def excluding (s : Snapshot) (owner : Nat) : Lookup where
  find? := s.findExcluding? owner
  keys := s.entries.map (·.1)
  mem_keys key h := by
    unfold findExcluding? at h
    split at h
    · next owned hlookup =>
      obtain ⟨l, r, heq, -⟩ := List.lookup_eq_some_iff.1 hlookup
      rw [heq]
      simp
    · simp at h

end Snapshot

end ObjcMetadata
