import ObjcMetadata.Declaration.Basic
/-!
Resolution of references between declarations.

A `Resolver` answers which declaration a key stands for. A `Lookup` is a resolver that knows a
finite list of keys outside of which it resolves nothing; this is what bounds the analyses that
follow references. Lookups come from tables, in which the first declaration of a key wins, and are
put together by layers.
-/

namespace ObjcMetadata

/-- Which declaration a key stands for. -/
abbrev Resolver := DeclKey → Option Declaration

/-- A resolver with a finite list of all the keys that it may resolve. -/
structure Lookup where
  find? : Resolver
  keys : List DeclKey
  mem_keys : ∀ key, (find? key).isSome → key ∈ keys

namespace Lookup

/-- Resolves nothing. -/
def empty : Lookup where
  find? _ := none
  keys := []
  mem_keys := by simp

instance : Inhabited Lookup :=
  ⟨empty⟩

/-- Looks in the first lookup and, where it has nothing, in the second. -/
def orElse (first second : Lookup) : Lookup where
  find? key := (first.find? key).or (second.find? key)
  keys := first.keys ++ second.keys
  mem_keys key h := by
    rw [Option.isSome_or, Bool.or_eq_true] at h
    exact List.mem_append.2 (h.imp (first.mem_keys key) (second.mem_keys key))

/-- Resolves the key of a declaration to that declaration, and all else as before. -/
def overriding (lookup : Lookup) (d : Declaration) : Lookup where
  find? key := if key = d.key then some d else lookup.find? key
  keys := d.key :: lookup.keys
  mem_keys key h := by
    by_cases hk : key = d.key
    · simp [hk]
    · rw [if_neg hk] at h
      exact List.mem_cons_of_mem _ (lookup.mem_keys key h)

end Lookup

/-- A key of a list of declarations finds the first one that has it. -/
theorem Declaration.exists_find?_key {ds : List Declaration} {key : DeclKey}
    (h : key ∈ ds.map Declaration.key) :
    ∃ d ∈ ds, d.key = key ∧ ds.find? (·.key == key) = some d := by
  cases hfind : ds.find? (·.key == key) with
  | none =>
    obtain ⟨d, hd, hkey⟩ := List.mem_map.mp h
    exact absurd (List.find?_eq_none.mp hfind d hd) (by simpa using hkey)
  | some d => exact ⟨d, List.mem_of_find?_eq_some hfind, by simpa using List.find?_some hfind, rfl⟩

/-! ### Tables -/

/-- Declarations by key. No two entries have one key. -/
structure DeclTable where
  entries : List Declaration := []
deriving DecidableEq, Repr, Inhabited

namespace DeclTable

/-- The table without entries. -/
def empty : DeclTable :=
  {}

/-- The number of entries. -/
def size (t : DeclTable) : Nat :=
  t.entries.length

/-- Whether there are no entries. -/
def isEmpty (t : DeclTable) : Bool :=
  t.entries.isEmpty

/-- The entry of a key. -/
def get? (t : DeclTable) (key : DeclKey) : Option Declaration :=
  t.entries.find? fun d => d.key == key

/-- Whether there is an entry of a key. -/
def contains (t : DeclTable) (key : DeclKey) : Bool :=
  (t.get? key).isSome

/-- Adds a declaration, unless its key has an entry already. Says whether it was added. -/
def insert (t : DeclTable) (d : Declaration) : Bool × DeclTable :=
  if t.contains d.key then (false, t) else (true, ⟨t.entries ++ [d]⟩)

/-- The table of a list of declarations, of which the first of each key is kept. -/
def ofList (declarations : List Declaration) : DeclTable :=
  declarations.foldl (fun t d => (t.insert d).2) empty

theorem get?_insert (t : DeclTable) (d : Declaration) (key : DeclKey) :
    (t.insert d).2.get? key = (t.get? key).or (if d.key == key then some d else none) := by
  unfold insert contains
  split
  · next h =>
    by_cases hkey : d.key = key
    · subst hkey
      rw [Option.or_of_isSome h]
    · simp [hkey]
  · simp [get?, List.find?_append, List.find?_singleton]

/-- A table finds what comes first in the list that it was made from. -/
theorem get?_ofList (declarations : List Declaration) (key : DeclKey) :
    (ofList declarations).get? key = declarations.find? fun d => d.key == key := by
  have hfold : ∀ t : DeclTable,
      (declarations.foldl (fun t d => (t.insert d).2) t).get? key =
        (t.get? key).or (declarations.find? fun d => d.key == key) := by
    induction declarations with
    | nil => simp
    | cons d rest ih =>
      intro t
      rw [List.foldl_cons, ih, get?_insert, Option.or_assoc]
      congr 1
      by_cases hkey : d.key == key
      · simp [hkey]
      · simp [hkey]
  exact hfold empty

/-- Adds declarations to a table, of which none may have a key that has an entry already. The
answer is the new table, or the key of the first declaration that cannot be added. -/
def insertDistinct (t : DeclTable) : List Declaration → Except DeclKey DeclTable
  | [] => .ok t
  | d :: rest =>
    match t.insert d with
    | (true, t') => insertDistinct t' rest
    | (false, _) => .error d.key

/-- Declarations with distinct keys can be added. -/
theorem insertDistinct_of_nodup {t : DeclTable} {declarations : List Declaration}
    (h : ((t.entries ++ declarations).map Declaration.key).Nodup) :
    t.insertDistinct declarations = .ok ⟨t.entries ++ declarations⟩ := by
  induction declarations generalizing t with
  | nil => simp [insertDistinct]
  | cons d rest ih =>
    have hnew : t.contains d.key = false := by
      unfold contains get?
      rw [Option.isSome_eq_false_iff, Option.isNone_iff_eq_none, List.find?_eq_none]
      intro e he hkey
      rw [List.map_append, List.nodup_append] at h
      exact h.2.2 e.key (List.mem_map_of_mem he) d.key (List.mem_map_of_mem List.mem_cons_self)
        (by simpa using hkey)
    have hinsert : t.insert d = (true, ⟨t.entries ++ [d]⟩) := by simp [insert, hnew]
    unfold insertDistinct
    rw [hinsert]
    simpa using ih (t := ⟨t.entries ++ [d]⟩) (by simpa using h)

/-- Resolves a key in a table and, where the table has nothing, outside of it. -/
def resolveOr (t : DeclTable) (external : Resolver) : Resolver :=
  fun key => (t.get? key).or (external key)

/-- The lookup in a table. -/
def toLookup (t : DeclTable) : Lookup where
  find? := t.get?
  keys := t.entries.map Declaration.key
  mem_keys key h := by
    obtain ⟨d, hd⟩ := Option.isSome_iff_exists.1 h
    have hkey : d.key = key := by simpa using List.find?_some hd
    exact List.mem_map.2 ⟨d, List.mem_of_find?_eq_some hd, hkey⟩

end DeclTable

end ObjcMetadata
