import ObjcMetadata.Proofs.Type.Layers
/-!
The unique reading of a spelling.

Two simple types are spelled alike only if they are the same tree, whatever identifier they declare
(`SimpleType.spelling_inj`), and so two handles of a pool are declared alike only if they stand for
the same tree (`Pool.declare_inj`). There is one exception: a callable type without parameters is
spelled as if it had a single `void` parameter, so types with such a parameter, which C does not
have, are left out (`SimpleType.Proper`).

The layers of two declarators are compared one by one, and at a callable type the parameters have to
be compared as well. They are types of their own, so the comparison of the layers assumes that the
parameters of one side are told from all other types (`Declarator.ofLayers_inj`), and this is what
an induction along the proper types provides (`SimpleType.Proper.params_distinctive`).
-/

namespace ObjcMetadata

namespace SimpleType

/-! ### Proper types -/

/-- No parameter list in the type is a single `void`, which is how an empty one is spelled. -/
inductive Proper : SimpleType → Prop where
  | atom {a : Atom} : Proper (.atom a)
  | pointer {t : SimpleType} : Proper t → Proper (.pointer t)
  | array {size : Option Nat} {t : SimpleType} : Proper t → Proper (.array size t)
  | callable {kind : Callable} {t : SimpleType} {params : List SimpleType} :
      Proper t → params ≠ [.void] → (∀ p ∈ params, Proper p) → Proper (.callable kind t params)

/-- No other proper type is spelled as this one. -/
def Distinctive (s : SimpleType) : Prop :=
  ∀ t, t.Proper → s.spelling "" true = t.spelling "" true → s = t

variable {P : SimpleType → Prop} {s t : SimpleType} {ps qs : List SimpleType}

/-! ### Parameter lists -/

/-- The parameters that a parameter list shows. -/
def shown : List SimpleType → List SimpleType
  | [] => [.void]
  | params => params

theorem shown_ne_nil (ps : List SimpleType) : shown ps ≠ [] := by
  cases ps <;> exact List.cons_ne_nil _ _

theorem shown_inj (hps : ps ≠ [.void]) (hqs : qs ≠ [.void]) (h : shown ps = shown qs) :
    ps = qs := by
  cases ps <;> cases qs
  case nil.nil => rfl
  case nil.cons => exact absurd h.symm hqs
  case cons.nil => exact absurd h hps
  case cons.cons => exact h

theorem forall_mem_shown (hvoid : P .void) (h : ∀ p ∈ ps, P p) : ∀ p ∈ shown ps, P p := by
  cases ps with
  | nil => exact List.forall_mem_singleton.mpr hvoid
  | cons p ps => exact h

theorem spellings_eq_nil (h : spellings ps = []) : ps = [] := by
  cases ps with
  | nil => rfl
  | cons p ps => cases h

theorem parameters_spellings (ps : List SimpleType) :
    Declarator.parameters (spellings ps) = ", ".intercalate (spellings (shown ps)) := by
  cases ps with
  | nil => rfl
  | cons p ps => simp [Declarator.parameters, spellings, shown]

theorem spellings_inj (hps : ∀ p ∈ ps, p.Distinctive) (hqs : ∀ q ∈ qs, q.Proper)
    (h : spellings ps = spellings qs) : ps = qs := by
  induction ps generalizing qs with
  | nil => exact (spellings_eq_nil h.symm).symm
  | cons p ps ih =>
    cases qs with
    | nil => cases h
    | cons q qs =>
      obtain ⟨hp, hps⟩ := List.forall_mem_cons.mp hps
      obtain ⟨hq, hqs⟩ := List.forall_mem_cons.mp hqs
      obtain ⟨hhead, htail⟩ := List.cons.inj h
      rw [hp q hq hhead, ih hps hqs htail]

/-- Two types spelled alike have the same atom, and their layers grow the same declarator. -/
theorem layers_of_spelling_eq {identifier : String} (hidentifier : Declarator.IsName identifier)
    (h : s.spelling identifier true = t.spelling identifier true) :
    (s.layers []).1 = (t.layers []).1 ∧ Declarator.ofLayers identifier (s.layers []).2 =
      Declarator.ofLayers identifier (t.layers []).2 := by
  have hs := spelling_ofLayers identifier s []
  have ht := spelling_ofLayers identifier t []
  exact Declarator.spell_inj hidentifier (hs.symm.trans (h.trans ht))

theorem distinctive_void : Distinctive .void := by
  intro t _ h
  obtain ⟨hatom, hlayers⟩ := layers_of_spelling_eq Declarator.isName_empty h
  have hnil : (t.layers []).2 = [] :=
    Declarator.eq_nil_of_ofLayers_eq hlayers.symm Declarator.isWords_empty
  exact layers_inj (Prod.ext hatom hnil.symm)

theorem parameters_inj (hps : ps ≠ [.void]) (hdistinctive : ∀ p ∈ ps, p.Distinctive)
    (hqs : qs ≠ [.void]) (hproper : ∀ q ∈ qs, q.Proper)
    (h : Declarator.parameters (spellings ps) = Declarator.parameters (spellings qs)) :
    ps = qs := by
  rw [parameters_spellings, parameters_spellings] at h
  have hshown : spellings (shown ps) = spellings (shown qs) := by
    obtain ⟨p, ps', hp⟩ := List.exists_cons_of_ne_nil (shown_ne_nil ps)
    obtain ⟨q, qs', hq⟩ := List.exists_cons_of_ne_nil (shown_ne_nil qs)
    rw [hp, hq] at h ⊢
    exact Declarator.intercalate_inj (closed_spellings (p :: ps')) (closed_spellings (q :: qs')) h
  exact shown_inj hps hqs (spellings_inj (forall_mem_shown distinctive_void hdistinctive)
    (forall_mem_shown .atom hproper) hshown)

end SimpleType

/-! ### Layers -/

/-- What a layer says of its parameters: each satisfies `P`, and they are not a single `void`. -/
def Layer.Params (P : SimpleType → Prop) : Layer → Prop
  | .callable _ params => params ≠ [.void] ∧ ∀ p ∈ params, P p
  | _ => True

namespace Declarator

variable {identifier : String} {l m : Layer} {ls ms : List Layer}

/-- The declarator says which layer was the last to grow it, and from which declarator. -/
theorem grow_inj (hidentifier : IsWords identifier) (hl : l.Params SimpleType.Distinctive)
    (hm : m.Params SimpleType.Proper)
    (h : ofLayers identifier (l :: ls) = ofLayers identifier (m :: ms)) :
    l = m ∧ ofLayers identifier ls = ofLayers identifier ms := by
  cases l <;> cases m
  case pointer.pointer => exact ⟨rfl, (String.append_right_inj "*").mp h⟩
  case array.array =>
    obtain ⟨henclose, hsize⟩ := arraySuffix_inj h
    exact ⟨congrArg Layer.array hsize, enclose_inj hidentifier henclose⟩
  case callable.callable =>
    obtain ⟨hkind, hrest, hparams⟩ :=
      callable_inj (closed_ofLayers hidentifier ls) (closed_ofLayers hidentifier ms) h
    exact ⟨congrArg₂ Layer.callable hkind
      (SimpleType.parameters_inj hl.1 hl.2 hm.1 hm.2 hparams), hrest⟩
  case array.callable => exact absurd h (arraySuffix_ne_callable _ _ _ _)
  case callable.array => exact absurd h.symm (arraySuffix_ne_callable _ _ _ _)
  case pointer.array => exact absurd h.symm (ofLayers_ne_star hidentifier rfl)
  case pointer.callable => exact absurd h.symm (ofLayers_ne_star hidentifier rfl)
  case array.pointer => exact absurd h (ofLayers_ne_star hidentifier rfl)
  case callable.pointer => exact absurd h (ofLayers_ne_star hidentifier rfl)

/-- A declarator determines the layers that have grown it. -/
theorem ofLayers_inj (hidentifier : IsWords identifier)
    (hls : ∀ l ∈ ls, l.Params SimpleType.Distinctive) (hms : ∀ m ∈ ms, m.Params SimpleType.Proper)
    (h : ofLayers identifier ls = ofLayers identifier ms) : ls = ms := by
  induction ls generalizing ms with
  | nil => exact (eq_nil_of_ofLayers_eq h.symm hidentifier).symm
  | cons l ls ih =>
    obtain _ | ⟨m, ms⟩ := ms
    · exact eq_nil_of_ofLayers_eq h hidentifier
    · obtain ⟨hl, hls⟩ := List.forall_mem_cons.mp hls
      obtain ⟨hm, hms'⟩ := List.forall_mem_cons.mp hms
      obtain ⟨rfl, hrest⟩ := grow_inj hidentifier hl hm h
      exact congrArg (l :: ·) (ih hls hms' hrest)

end Declarator

namespace SimpleType

variable {P : SimpleType → Prop} {s t : SimpleType} {identifier : String}

/-- The parameters in the layers of a proper type satisfy `P` if `P` passes from the parameters in
the layers of a type to the type. -/
theorem Proper.params_layers
    (hP : ∀ p, Proper p → (∀ l ∈ (p.layers []).2, l.Params P) → P p) (ht : t.Proper) :
    ∀ {outer : List Layer}, (∀ l ∈ outer, l.Params P) → ∀ l ∈ (t.layers outer).2, l.Params P := by
  induction ht with
  | atom => exact id
  | pointer _ ih => exact fun houter => ih (List.forall_mem_cons.mpr ⟨trivial, houter⟩)
  | array _ ih => exact fun houter => ih (List.forall_mem_cons.mpr ⟨trivial, houter⟩)
  | callable _ hvoid hparams ih ihs =>
    refine fun houter => ih (List.forall_mem_cons.mpr ⟨⟨hvoid, fun p hp => ?_⟩, houter⟩)
    exact hP p (hparams p hp) (ihs p hp (List.forall_mem_nil _))

theorem eq_of_spelling_eq (hidentifier : Declarator.IsName identifier)
    (hs : ∀ l ∈ (s.layers []).2, l.Params Distinctive) (ht : t.Proper)
    (h : s.spelling identifier true = t.spelling identifier true) : s = t := by
  obtain ⟨hatom, hdeclarator⟩ := layers_of_spelling_eq hidentifier h
  have hproper := ht.params_layers (fun _ hp _ => hp) (List.forall_mem_nil _)
  exact layers_inj
    (Prod.ext hatom (Declarator.ofLayers_inj hidentifier.words hs hproper hdeclarator))

theorem Proper.params_distinctive (hs : s.Proper) :
    ∀ l ∈ (s.layers []).2, l.Params Distinctive :=
  hs.params_layers (fun _ _ hp _ hq heq => eq_of_spelling_eq Declarator.isName_empty hp hq heq)
    (List.forall_mem_nil _)

/-- **Two proper types are spelled alike only if they are the same.** -/
theorem spelling_inj (hidentifier : Declarator.IsName identifier) (hs : s.Proper) (ht : t.Proper) :
    s.spelling identifier true = t.spelling identifier true ↔ s = t :=
  ⟨eq_of_spelling_eq hidentifier hs.params_distinctive ht, fun h => h ▸ rfl⟩

end SimpleType

namespace Pool

/-- **Two handles are declared alike only if they stand for the same tree.** Both are declared. The
two kinds of plain `char` are one atom of the trees. -/
theorem declare_inj {pool : Pool} {a b : TypeId} {s t : SimpleType} {identifier : String}
    (hidentifier : Declarator.IsName identifier) (ha : pool.Holds a s) (hb : pool.Holds b t)
    (hs : s.Proper) (ht : t.Proper) :
    ∃ x y, pool.declare a identifier true = .ok x ∧ pool.declare b identifier true = .ok y ∧
      (x = y ↔ s = t) :=
  ⟨_, _, ha.declare identifier true, hb.declare identifier true,
    SimpleType.spelling_inj hidentifier hs ht⟩

namespace Exchanged

/-- Two blocks that take a pointer to an array and an array of pointers, in either order. -/
def pool : Pool :=
  initial.internAll [.constantArray ⟨4⟩ 3, .pointer ⟨30⟩, .pointer ⟨4⟩, .constantArray ⟨32⟩ 3,
    .block [⟨4⟩, ⟨31⟩, ⟨33⟩], .block [⟨4⟩, ⟨33⟩, ⟨31⟩]]

def int : SimpleType :=
  .atom (.primitive .int (by decide))

def pointerToArray : SimpleType :=
  .pointer (.array (some 3) int)

def arrayOfPointers : SimpleType :=
  .array (some 3) (.pointer int)

def block (params : List SimpleType) : SimpleType :=
  .callable .block int params

theorem holds_int : pool.Holds ⟨4⟩ int :=
  .atom (by rfl)

theorem holds_pointerToArray : pool.Holds ⟨31⟩ pointerToArray :=
  .pointer (by rfl) (.array (by rfl) holds_int)

theorem holds_arrayOfPointers : pool.Holds ⟨33⟩ arrayOfPointers :=
  .array (by rfl) (.pointer (by rfl) holds_int)

theorem holds_block {id x y : TypeId} {s t : SimpleType}
    (h : pool.shape? id = some (.callable .block ⟨4⟩ [x, y])) (hx : pool.Holds x s)
    (hy : pool.Holds y t) : pool.Holds id (block [s, t]) := by
  refine .callable h holds_int rfl fun i hp ht => ?_
  match i with
  | 0 => exact hx
  | 1 => exact hy

theorem proper_block {s t : SimpleType} (hs : s.Proper) (ht : t.Proper) :
    (block [s, t]).Proper := by
  refine .callable .atom (by simp) ?_
  simp [hs, ht]

/-- The two blocks are declared differently. -/
theorem declare_blocks_ne :
    pool.Holds ⟨34⟩ (block [pointerToArray, arrayOfPointers]) ∧
      pool.Holds ⟨35⟩ (block [arrayOfPointers, pointerToArray]) ∧
      ∃ x y, pool.declare ⟨34⟩ "action_1" true = .ok x ∧
        pool.declare ⟨35⟩ "action_1" true = .ok y ∧ x ≠ y := by
  have ha : pool.Holds ⟨34⟩ (block [pointerToArray, arrayOfPointers]) :=
    holds_block (by rfl) holds_pointerToArray holds_arrayOfPointers
  have hb : pool.Holds ⟨35⟩ (block [arrayOfPointers, pointerToArray]) :=
    holds_block (by rfl) holds_arrayOfPointers holds_pointerToArray
  have hpointer : pointerToArray.Proper := .pointer (.array .atom)
  have harray : arrayOfPointers.Proper := .array (.pointer .atom)
  have hname : Declarator.IsName "action_1" := Declarator.isName_of_isAlphanum (by simp)
  obtain ⟨x, y, hx, hy, hiff⟩ := declare_inj hname ha hb (proper_block hpointer harray)
    (proper_block harray hpointer)
  refine ⟨ha, hb, x, y, hx, hy, fun heq => ?_⟩
  cases hiff.mp heq

end Exchanged

end Pool

end ObjcMetadata
