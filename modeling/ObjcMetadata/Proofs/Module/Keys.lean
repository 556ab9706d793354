import Mathlib.Data.List.Basic
import Mathlib.Data.List.Induction
import Mathlib.Data.List.TakeDrop
import Mathlib.Order.Bounds.Basic
import ObjcMetadata.Proofs.Sequence
import ObjcMetadata.Stage.Repeated
/-!
Finding declarations by their keys.

An open module may declare a key more than once, and it is searched in several ways: through its
list, through a table, through an index that holds positions and not declarations. They all find the
first declaration of the key, and find the same after repeated declarations have been removed. A
module can be closed exactly if no key is repeated; otherwise the first position whose key stands
before it is the one that is reported. A closed module keeps the last position of each key, which
is the first one only because no key is repeated (`Module.finds_first`).
-/

namespace ObjcMetadata

variable {ds : List Declaration} {key : DeclKey}

/-! ### Positions -/

/-- Positions in a list of declarations by key, the latest entry first. -/
abbrev Positions := List (DeclKey × Nat)

namespace Positions

/-- The declaration at the position that a key has. -/
def find? (positions : Positions) (ds : List Declaration) (key : DeclKey) : Option Declaration :=
  (positions.lookup key).bind (ds[·]?)

/-- Adds a position, unless its key has one. -/
def addNew (positions : Positions) (key : DeclKey) (position : Nat) : Positions :=
  if (positions.lookup key).isSome then positions else (key, position) :: positions

/-- The position of the first declaration of each key. -/
def first (ds : List Declaration) : Positions :=
  ds.zipIdx.foldl (fun positions entry => positions.addNew entry.1.key entry.2) []

/-- The position of the last declaration of each key. -/
def last (ds : List Declaration) : Positions :=
  ds.zipIdx.foldl (fun positions entry => (entry.1.key, entry.2) :: positions) []

theorem first_concat (ds : List Declaration) (d : Declaration) :
    first (ds ++ [d]) = (first ds).addNew d.key ds.length := by
  simp only [first, List.zipIdx_append, List.zipIdx_singleton, Nat.zero_add, List.foldl_concat]

theorem last_concat (ds : List Declaration) (d : Declaration) :
    last (ds ++ [d]) = (d.key, ds.length) :: last ds := by
  simp only [last, List.zipIdx_append, List.zipIdx_singleton, Nat.zero_add, List.foldl_concat]

theorem lookup_addNew (positions : Positions) (key key' : DeclKey) (position : Nat) :
    (positions.addNew key position).lookup key' =
      (positions.lookup key').or (if key == key' then some position else none) := by
  unfold addNew
  by_cases hkey : key = key'
  · subst hkey
    cases hlookup : positions.lookup key <;> simp [hlookup]
  · have hne : (key' == key) = false := by simpa using Ne.symm hkey
    split <;> simp [List.lookup_cons, hkey, hne]

theorem lookup_first (ds : List Declaration) (key : DeclKey) :
    (first ds).lookup key = ds.findIdx? (·.key == key) := by
  induction ds using List.reverseRecOn with
  | nil => rfl
  | append_singleton ds d ih =>
    rw [first_concat, lookup_addNew, ih, List.findIdx?_append]
    by_cases hkey : d.key = key <;> simp [hkey]

theorem find?_first (ds : List Declaration) (key : DeclKey) :
    (first ds).find? ds key = ds.find? (·.key == key) := by
  rw [find?, lookup_first, List.find?_eq_bind_findIdx?_getElem?]

/-- Without repeated keys, the last declaration of a key is the first. -/
theorem last_eq_first (h : (ds.map Declaration.key).Nodup) : last ds = first ds := by
  induction ds using List.reverseRecOn with
  | nil => rfl
  | append_singleton ds d ih =>
    rw [List.map_append, List.map_singleton, ← List.concat_eq_append, List.nodup_concat] at h
    have hnew : (first ds).lookup d.key = none := by
      rw [lookup_first, List.findIdx?_eq_none_iff]
      intro e he
      exact beq_eq_false_iff_ne.mpr fun heq => h.1 (heq ▸ List.mem_map_of_mem he)
    rw [first_concat, last_concat, ih h.2, addNew, hnew]
    rfl

end Positions

/-! ### Keys that stand before -/

/-- The key at a position stands before it as well. -/
def RepeatsAt (keys : List DeclKey) (position : Nat) : Prop :=
  ∃ key, keys[position]? = some key ∧ key ∈ keys.take position

theorem not_repeatsAt_of_nodup {keys : List DeclKey} {position : Nat} (h : keys.Nodup) :
    ¬ RepeatsAt keys position := by
  rintro ⟨key, hat, hbefore⟩
  refine List.disjoint_take_drop h le_rfl hbefore (List.mem_of_getElem? (i := 0) ?_)
  rw [List.getElem?_drop, Nat.add_zero, hat]

/-- What comes behind a position does not matter. -/
theorem repeatsAt_append {keys behind : List DeclKey} {position : Nat}
    (h : position < keys.length) :
    RepeatsAt (keys ++ behind) position ↔ RepeatsAt keys position := by
  unfold RepeatsAt
  rw [List.getElem?_append_left h, List.take_append_of_le_length h.le]

/-- Behind distinct keys, one of them is the first to be repeated. -/
theorem isLeast_repeatsAt {before behind : List DeclKey} (h : before.Nodup) (hkey : key ∈ before) :
    IsLeast {position | RepeatsAt (before ++ key :: behind) position} before.length := by
  constructor
  · exact ⟨key, by simp, by simpa using hkey⟩
  · intro position hrepeats
    by_contra hlt
    exact not_repeatsAt_of_nodup h ((repeatsAt_append (Nat.lt_of_not_le hlt)).mp hrepeats)

/-! ### Tables -/

namespace DeclTable

theorem contains_iff {t : DeclTable} : t.contains key = true ↔ key ∈ t.entries.map (·.key) := by
  rw [contains, get?, List.find?_isSome, List.mem_map]
  simp only [beq_iff_eq]

/-- Where a key is repeated, it is the first position that repeats one which is in the way. -/
theorem insertDistinct_of_not_nodup {t : DeclTable} (h : (t.entries.map Declaration.key).Nodup)
    (hrepeated : ¬ ((t.entries ++ ds).map Declaration.key).Nodup) :
    ∃ position key, t.insertDistinct ds = .error key ∧
      IsLeast {i | RepeatsAt ((t.entries ++ ds).map Declaration.key) i} position ∧
      ((t.entries ++ ds).map Declaration.key)[position]? = some key := by
  induction ds generalizing t with
  | nil => exact absurd (by simpa using h) hrepeated
  | cons d rest ih =>
    unfold insertDistinct
    cases hcontains : t.contains d.key with
    | true =>
      refine ⟨(t.entries.map Declaration.key).length, d.key, by simp [insert, hcontains], ?_, ?_⟩
      · rw [List.map_append, List.map_cons]
        exact isLeast_repeatsAt h (contains_iff.mp hcontains)
      · simp
    | false =>
      have hnew : d.key ∉ t.entries.map Declaration.key := by
        rw [← contains_iff, hcontains]
        exact Bool.false_ne_true
      have hnodup : ((t.entries ++ [d]).map Declaration.key).Nodup := by
        rw [List.map_append, List.map_singleton, ← List.concat_eq_append]
        exact h.concat hnew
      have hrest := ih hnodup (by simpa using hrepeated)
      simpa [insert, hcontains] using hrest

end DeclTable

/-! ### Modules -/

namespace Module

/-- Every way to search an open module for a key finds the same: to go over its declarations, to
look into its index, which is the table of them, and to follow a map from keys to positions. -/
structure Finds (m : Module) (key : DeclKey) (found : Option Declaration) : Prop where
  scan : m.get? key = found
  index : m.index.get? key = found
  positions : (Positions.first m.declarations).find? m.declarations key = found

/-- To compare kind and name is to compare keys. -/
theorem get?_eq_find? (m : Module) (key : DeclKey) :
    m.get? key = m.declarations.find? (·.key == key) := by
  unfold get?
  congr 1
  funext d
  obtain ⟨kind, name⟩ := key
  rw [Bool.eq_iff_iff, Bool.and_eq_true, beq_iff_eq, beq_iff_eq, beq_iff_eq, Declaration.key,
    DeclKey.mk.injEq]

theorem finds_find? (m : Module) (key : DeclKey) :
    m.Finds key (m.declarations.find? (·.key == key)) where
  scan := m.get?_eq_find? key
  index := DeclTable.get?_ofList m.declarations key
  positions := Positions.find?_first m.declarations key

theorem find?_withoutRepeated (m : Module) (key : DeclKey) :
    m.withoutRepeated.declarations.find? (·.key == key) =
      m.declarations.find? (·.key == key) :=
  find?_distinctBy List.not_mem_nil

theorem finalize_cases (m : Module) :
    (m.keys.Nodup ∧ m.finalize = .ok ⟨m.name, ⟨m.declarations⟩, m.errors⟩) ∨
      ∃ position key, IsLeast {i | RepeatsAt m.keys i} position ∧
        m.keys[position]? = some key ∧ m.finalize = .error (.duplicateDeclaration m.name key) := by
  by_cases hnodup : m.keys.Nodup
  · exact .inl ⟨hnodup, finalize_of_nodup hnodup⟩
  · obtain ⟨position, key, herror, hleast, hat⟩ :=
      DeclTable.insertDistinct_of_not_nodup (t := .empty) List.nodup_nil hnodup
    refine .inr ⟨position, key, hleast, hat, ?_⟩
    rw [finalize, herror]

theorem finalize_eq_ok_iff (m : Module) (result : FinalModule) :
    m.finalize = .ok result ↔
      m.keys.Nodup ∧ result = ⟨m.name, ⟨m.declarations⟩, m.errors⟩ := by
  rcases m.finalize_cases with ⟨hnodup, hok⟩ | ⟨position, key, hleast, -, herror⟩
  · rw [hok, Except.ok.injEq, eq_comm]
    exact (and_iff_right hnodup).symm
  · rw [herror]
    refine iff_of_false nofun fun h => ?_
    exact not_repeatsAt_of_nodup h.1 hleast.1

theorem finalize_eq_error_iff (m : Module) (e : ModuleError) :
    m.finalize = .error e ↔
      ∃ position key, IsLeast {i | RepeatsAt m.keys i} position ∧
        m.keys[position]? = some key ∧ e = .duplicateDeclaration m.name key := by
  rcases m.finalize_cases with ⟨hnodup, hok⟩ | ⟨position, key, hleast, hat, herror⟩
  · rw [hok]
    refine iff_of_false nofun ?_
    rintro ⟨position, key, hleast, -⟩
    exact not_repeatsAt_of_nodup hnodup hleast.1
  · rw [herror, Except.error.injEq]
    constructor
    · rintro rfl
      exact ⟨position, key, hleast, hat, rfl⟩
    · rintro ⟨position', key', hleast', hat', rfl⟩
      rw [hleast'.unique hleast, hat] at hat'
      rw [Option.some.inj hat']

/-- **A key finds its first declaration**, however an open module is searched, and after repeated
declarations have been removed. A module is closed if no key is repeated, and then it is still found
the same; otherwise the first position that repeats a key is reported. -/
theorem finds_first (m : Module) (cx : Context) :
    (∀ key, m.Finds key (m.declarations.find? (·.key == key))) ∧
      (∃ m', Stage.repeated.apply cx m = .ok m' ∧
        ∀ key, m'.Finds key (m.declarations.find? (·.key == key))) ∧
      (∀ result, m.finalize = .ok result ↔
        m.keys.Nodup ∧ result = ⟨m.name, ⟨m.declarations⟩, m.errors⟩) ∧
      (∀ result, m.finalize = .ok result → ∀ key,
        result.get? key = m.declarations.find? (·.key == key) ∧
          (Positions.last result.declarations).find? result.declarations key =
            m.declarations.find? (·.key == key)) ∧
      (∀ e, m.finalize = .error e ↔
        ∃ position key, IsLeast {i | RepeatsAt m.keys i} position ∧
          m.keys[position]? = some key ∧ e = .duplicateDeclaration m.name key) := by
  refine ⟨m.finds_find?, ⟨_, rfl, fun key => ?_⟩, m.finalize_eq_ok_iff, ?_,
    m.finalize_eq_error_iff⟩
  · rw [← find?_withoutRepeated]
    exact m.withoutRepeated.finds_find? key
  · intro result hresult key
    obtain ⟨hnodup, rfl⟩ := (m.finalize_eq_ok_iff result).mp hresult
    refine ⟨rfl, ?_⟩
    rw [FinalModule.declarations, Positions.last_eq_first hnodup, Positions.find?_first]

/-! ### A name that is declared three times -/

namespace Shared

def view : QualifiedName := ⟨"M", "View"⟩

/-- A class and a set of requirements of one name, and the class once more. -/
def given : Module where
  name := "M"
  declarations :=
    [⟨view, .interface {}⟩, ⟨view, .protocol {}⟩,
      ⟨view, .interface { base := some ⟨"M", "Root"⟩ }⟩]

end Shared

/-- The class is found where it comes first, and the third declaration keeps the module open; when
it has been removed, the module can be closed, and both keys are found in it. -/
theorem finds_first_shared :
    Shared.given.Finds ⟨.interface, Shared.view⟩ (some ⟨Shared.view, .interface {}⟩) ∧
      Shared.given.finalize =
        .error (.duplicateDeclaration "M" ⟨.interface, Shared.view⟩) ∧
      ∃ result, Shared.given.withoutRepeated.finalize = .ok result ∧
        result.get? ⟨.interface, Shared.view⟩ = some ⟨Shared.view, .interface {}⟩ ∧
        result.get? ⟨.protocol, Shared.view⟩ = some ⟨Shared.view, .protocol {}⟩ := by
  obtain ⟨hfinds, -, -, -, herror⟩ := finds_first Shared.given ⟨.initial, .empty⟩
  obtain ⟨-, -, hok, hfinal, -⟩ := finds_first Shared.given.withoutRepeated ⟨.initial, .empty⟩
  have hbefore : [(⟨.interface, Shared.view⟩ : DeclKey), ⟨.protocol, Shared.view⟩].Nodup := by
    decide
  have hleast : IsLeast {i | RepeatsAt Shared.given.keys i} 2 :=
    isLeast_repeatsAt hbefore List.mem_cons_self
  have hresult := (hok _).mpr ⟨by decide, rfl⟩
  exact ⟨hfinds _, (herror _).mpr ⟨2, _, hleast, rfl, rfl⟩, _, hresult, (hfinal _ hresult _).1,
    (hfinal _ hresult _).1⟩

end Module

end ObjcMetadata
