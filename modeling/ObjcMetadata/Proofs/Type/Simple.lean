import Mathlib.Data.Fintype.Card
import ObjcMetadata.Type.Declarator
/-!
Types that are built from single tokens by declarators.

A `SimpleType` is a tree: an atom, whose spelling is a token of its own, or a pointer, an array or
something callable. A handle of a pool stands for at most one of them (`Pool.Holds.unique`). The
nodes below it form no loop, so the pool has more nodes than the tree has levels
(`Pool.Holds.height_lt`), and the handle is always spelled, as the tree is (`Pool.Holds.declare`).
-/

namespace ObjcMetadata

/-! ### Shapes of nodes -/

/-- The kind that is spelled the same way: the two plain `char` kinds are one. -/
def Primitive.spelled : Primitive → Primitive
  | .charAsSigned => .charAsUnsigned
  | kind => kind

theorem Primitive.spelled_ne (kind : Primitive) : kind.spelled ≠ .charAsSigned := by
  cases kind <;> decide

/-- A type without parts whose spelling is one token. Both kinds of plain `char` are the same atom,
that of the unsigned kind. -/
inductive Atom where
  | primitive (kind : Primitive) (spelled : kind ≠ .charAsSigned)
  | protocol
  | selector
  | instancetype
  | unichar
  | vaList
  | object
  | classObject
deriving DecidableEq

/-- The token of an atom. -/
def Atom.token : Atom → String
  | .primitive kind _ => kind.cName
  | .protocol => "Protocol"
  | .selector => "SEL"
  | .instancetype => "instancetype"
  | .unichar => "unichar"
  | .vaList => "va_list"
  | .object => "id"
  | .classObject => "Class"

/-- The two kinds of callable types. -/
inductive Callable where
  | block
  | functionPointer
deriving DecidableEq

/-- What a declarator shows of the kind. -/
def Callable.marker : Callable → String
  | .block => "^"
  | .functionPointer => "*"

/-- What a node makes of its parts. An array may lack a size. -/
inductive Shape where
  | atom (a : Atom)
  | pointer (pointee : TypeId)
  | array (size : Option Nat) (element : TypeId)
  | callable (kind : Callable) (result : TypeId) (params : List TypeId)

/-- The shape of a node, if the node is an atom or built by a declarator. The types `id` and `Class`
are atoms if no protocols qualify them, and a signature has to have a result. -/
def TypeNode.shape? : TypeNode → Option Shape
  | .primitive kind => some (.atom (.primitive kind.spelled kind.spelled_ne))
  | .protocol => some (.atom .protocol)
  | .selector => some (.atom .selector)
  | .instancetype => some (.atom .instancetype)
  | .unichar => some (.atom .unichar)
  | .vaList => some (.atom .vaList)
  | .object [] => some (.atom .object)
  | .classObject [] => some (.atom .classObject)
  | .pointer pointee => some (.pointer pointee)
  | .constantArray element size => some (.array (some size) element)
  | .incompleteArray element => some (.array none element)
  | .block (result :: params) => some (.callable .block result params)
  | .functionPointer (result :: params) => some (.callable .functionPointer result params)
  | _ => none

/-- The shape of the node of a handle. -/
def Pool.shape? (pool : Pool) (id : TypeId) : Option Shape :=
  (pool.node? id).bind TypeNode.shape?

namespace Declarator

/-- The size of an array as it stands between the brackets. -/
def sizeText : Option Nat → String
  | some size => Nat.repr size
  | none => ""

/-- The suffix of a declarator for an array. -/
def arraySuffix (size : Option Nat) : String :=
  "[" ++ sizeText size ++ "]"

/-- Spells a shape around a declarator, given how its parts are spelled. -/
def renderShape (part : TypeId → String → Bool → Except TypeError String)
    (declarator : String) (bare : Bool) : Shape → Except TypeError String
  | .atom a => .ok (spell a.token declarator)
  | .pointer pointee => part pointee ("*" ++ declarator) false
  | .array size element => part element (enclose declarator bare ++ arraySuffix size) true
  | .callable kind result params => do
    let texts ← params.mapM fun param => part param "" true
    part result (callable kind.marker declarator (parameters texts)) true

/-- A handle is spelled as its shape says. -/
theorem render_of_shape? {pool : Pool} {levels : Nat} {id : TypeId} {declarator : String}
    {bare : Bool} {shape : Shape} (h : pool.shape? id = some shape) :
    render pool (levels + 1) id declarator bare =
      renderShape (render pool levels) declarator bare shape := by
  obtain ⟨node, hnode, hshape⟩ := Option.bind_eq_some_iff.mp h
  have hread : pool.node id = .ok node := by simp [Pool.node, hnode]
  rw [render, hread]
  cases node with
  | primitive kind => cases hshape; cases kind <;> rfl
  | object protocols => cases protocols <;> cases hshape; rfl
  | classObject protocols => cases protocols <;> cases hshape; rfl
  | constantArray element size =>
    cases hshape
    simp only [renderShape, arraySuffix, sizeText, ← String.append_assoc]
    rfl
  | block signature => cases signature <;> cases hshape; rfl
  | functionPointer signature => cases signature <;> cases hshape; rfl
  | _ => cases hshape <;> rfl

end Declarator

/-! ### Trees -/

/-- A type that is built from an atom by pointers, arrays and callable types. -/
inductive SimpleType where
  | atom (a : Atom)
  | pointer (pointee : SimpleType)
  | array (size : Option Nat) (element : SimpleType)
  | callable (kind : Callable) (result : SimpleType) (params : List SimpleType)

namespace SimpleType

/-- The type `void`. -/
def void : SimpleType :=
  .atom (.primitive .void (by decide))

mutual

/-- The number of levels below the root. -/
def height : SimpleType → Nat
  | .atom _ => 0
  | .pointer t => t.height + 1
  | .array _ t => t.height + 1
  | .callable _ t ps => max t.height (heights ps) + 1

/-- The largest number of levels below a root. -/
def heights : List SimpleType → Nat
  | [] => 0
  | p :: ps => max p.height (heights ps)

end

mutual

/-- The type spelled around a declarator. -/
def spelling : SimpleType → (declarator : String) → (bare : Bool) → String
  | .atom a, d, _ => Declarator.spell a.token d
  | .pointer t, d, _ => t.spelling ("*" ++ d) false
  | .array size t, d, bare =>
    t.spelling (Declarator.enclose d bare ++ Declarator.arraySuffix size) true
  | .callable kind t ps, d, _ =>
    t.spelling (Declarator.callable kind.marker d (Declarator.parameters (spellings ps))) true

/-- The types spelled by themselves. -/
def spellings : List SimpleType → List String
  | [] => []
  | p :: ps => p.spelling "" true :: spellings ps

end

theorem height_le_heights {p : SimpleType} {ps : List SimpleType} (h : p ∈ ps) :
    p.height ≤ heights ps := by
  induction ps with
  | nil => cases h
  | cons q qs ih =>
    rcases List.mem_cons.mp h with rfl | h
    · exact Nat.le_max_left _ _
    · exact Nat.le_trans (ih h) (Nat.le_max_right _ _)

theorem exists_of_le_heights {ps : List SimpleType} {n : Nat} (h : n ≤ heights ps) :
    n = 0 ∨ ∃ p ∈ ps, n ≤ p.height := by
  induction ps with
  | nil => exact .inl (Nat.le_zero.mp h)
  | cons p ps ih =>
    rcases le_max_iff.mp h with h | h
    · exact .inr ⟨p, List.mem_cons_self, h⟩
    · exact (ih h).imp_right fun ⟨q, hq, hle⟩ => ⟨q, List.mem_cons_of_mem p hq, hle⟩

end SimpleType

/-! ### What a handle stands for -/

namespace Pool

/-- A handle stands for a tree. -/
inductive Holds (pool : Pool) : TypeId → SimpleType → Prop where
  | atom {id : TypeId} {a : Atom} : pool.shape? id = some (.atom a) → Holds pool id (.atom a)
  | pointer {id pointee : TypeId} {t : SimpleType} :
      pool.shape? id = some (.pointer pointee) → Holds pool pointee t → Holds pool id (.pointer t)
  | array {id element : TypeId} {size : Option Nat} {t : SimpleType} :
      pool.shape? id = some (.array size element) → Holds pool element t →
      Holds pool id (.array size t)
  | callable {id result : TypeId} {params : List TypeId} {kind : Callable} {t : SimpleType}
      {ts : List SimpleType} :
      pool.shape? id = some (.callable kind result params) → Holds pool result t →
      params.length = ts.length →
      (∀ i (hp : i < params.length) (ht : i < ts.length), Holds pool params[i] ts[i]) →
      Holds pool id (.callable kind t ts)

variable {pool : Pool} {id : TypeId} {s t : SimpleType}

theorem Holds.index_lt (h : pool.Holds id t) : id.index < pool.size := by
  have hshape : ∃ shape, pool.shape? id = some shape := by
    cases h <;> exact ⟨_, ‹_›⟩
  obtain ⟨shape, hshape⟩ := hshape
  obtain ⟨node, hnode, -⟩ := Option.bind_eq_some_iff.mp hshape
  exact (Array.getElem?_eq_some_iff.mp hnode).1

/-- A handle stands for one tree only. -/
theorem Holds.unique (hs : pool.Holds id s) (ht : pool.Holds id t) : s = t := by
  induction hs generalizing t with
  | atom hshape => cases ht <;> simp_all
  | pointer hshape _ ih =>
    cases ht with
    | pointer hshape' ht =>
      cases hshape.symm.trans hshape'
      exact congrArg _ (ih ht)
    | _ => simp_all
  | array hshape _ ih =>
    cases ht with
    | array hshape' ht =>
      cases hshape.symm.trans hshape'
      exact congrArg _ (ih ht)
    | _ => simp_all
  | callable hshape _ hlength _ ih ihs =>
    cases ht with
    | callable hshape' ht hlength' hts =>
      cases hshape.symm.trans hshape'
      rw [ih ht, List.ext_getElem (hlength.symm.trans hlength') fun i hi hi' =>
        ihs i (hlength ▸ hi) hi (hts i (hlength ▸ hi) hi')]
    | _ => simp_all

/-- Every number of levels up to the height of a tree is the height of a tree that some handle
stands for: that of a part, all the way down. -/
theorem Holds.exists_height_eq (h : pool.Holds id t) {n : Nat} (hn : n ≤ t.height) :
    ∃ part tree, pool.Holds part tree ∧ tree.height = n := by
  induction h with
  | atom hshape => exact ⟨_, _, .atom hshape, (Nat.le_zero.mp hn).symm⟩
  | pointer hshape hheld ih =>
    rcases Nat.le_succ_iff.mp hn with hle | rfl
    · exact ih hle
    · exact ⟨_, _, .pointer hshape hheld, rfl⟩
  | array hshape hheld ih =>
    rcases Nat.le_succ_iff.mp hn with hle | rfl
    · exact ih hle
    · exact ⟨_, _, .array hshape hheld, rfl⟩
  | callable hshape hheld hlength hparams ih ihs =>
    rcases Nat.le_succ_iff.mp hn with hle | rfl
    · rcases le_max_iff.mp hle with hle | hle
      · exact ih hle
      · rcases SimpleType.exists_of_le_heights hle with rfl | ⟨p, hp, hle⟩
        · exact ih (Nat.zero_le _)
        · obtain ⟨i, hi, rfl⟩ := List.getElem_of_mem hp
          exact ihs i (hlength ▸ hi) hi hle
    · exact ⟨_, _, .callable hshape hheld hlength hparams, rfl⟩

/-- The pool has more nodes than a tree in it has levels: each level has a handle of its own. -/
theorem Holds.height_lt (h : pool.Holds id t) : t.height < pool.size := by
  choose part tree held level using fun n : Fin (t.height + 1) =>
    h.exists_height_eq (Nat.lt_succ_iff.mp n.isLt)
  have hinj : Function.Injective fun n =>
      (⟨(part n).index, (held n).index_lt⟩ : Fin pool.size) := by
    intro m n heq
    have hpart : part m = part n := congrArg TypeId.mk (Fin.mk.inj heq)
    have htree : tree m = tree n := (held m).unique (hpart ▸ held n)
    exact Fin.ext (by rw [← level m, ← level n, htree])
  exact Nat.lt_of_succ_le (by simpa using Fintype.card_le_of_injective _ hinj)

/-! ### The spelling of a handle -/

theorem mapM_render {levels : Nat} {params : List TypeId} {ts : List SimpleType}
    (hlength : params.length = ts.length)
    (h : ∀ i (hp : i < params.length) (ht : i < ts.length),
      Declarator.render pool levels params[i] "" true = .ok (ts[i].spelling "" true)) :
    (params.mapM fun param => Declarator.render pool levels param "" true) =
      .ok (SimpleType.spellings ts) := by
  induction params generalizing ts with
  | nil =>
    cases List.eq_nil_of_length_eq_zero hlength.symm
    rfl
  | cons param params ih =>
    obtain _ | ⟨t, ts⟩ := ts
    · cases hlength
    · have hhead := h 0 (Nat.succ_pos _) (Nat.succ_pos _)
      have htail := ih (Nat.succ.inj hlength) fun i hp ht =>
        h (i + 1) (Nat.succ_lt_succ hp) (Nat.succ_lt_succ ht)
      simp only [List.getElem_cons_zero] at hhead
      rw [List.mapM_cons, hhead, htail]
      rfl

/-- A handle is spelled as its tree if more levels than the tree has are allowed for. -/
theorem Holds.render {levels : Nat} {declarator : String} {bare : Bool} (h : pool.Holds id t)
    (hlevels : t.height < levels) :
    Declarator.render pool levels id declarator bare = .ok (t.spelling declarator bare) := by
  induction h generalizing levels declarator bare with
  | atom hshape =>
    obtain _ | n := levels
    · cases hlevels
    · rw [Declarator.render_of_shape? hshape]
      rfl
  | pointer hshape _ ih =>
    obtain _ | n := levels
    · cases hlevels
    · rw [Declarator.render_of_shape? hshape]
      exact ih (Nat.succ_lt_succ_iff.mp hlevels)
  | array hshape _ ih =>
    obtain _ | n := levels
    · cases hlevels
    · rw [Declarator.render_of_shape? hshape]
      exact ih (Nat.succ_lt_succ_iff.mp hlevels)
  | callable hshape _ hlength _ ih ihs =>
    obtain _ | n := levels
    · cases hlevels
    · have hmax := max_lt_iff.mp (Nat.succ_lt_succ_iff.mp hlevels)
      have hparams := mapM_render hlength fun i hp ht => ihs i hp ht
        (Nat.lt_of_le_of_lt (SimpleType.height_le_heights (List.getElem_mem ht)) hmax.2)
      rw [Declarator.render_of_shape? hshape, Declarator.renderShape, hparams]
      exact ih hmax.1

/-- A handle that stands for a tree is always spelled, and as the tree. -/
theorem Holds.declare (h : pool.Holds id t) (identifier : String) (bare : Bool) :
    pool.declare id identifier bare = .ok (t.spelling identifier bare) :=
  h.render (Nat.lt_succ_of_lt h.height_lt)

end Pool

end ObjcMetadata
