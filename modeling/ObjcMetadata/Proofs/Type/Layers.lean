import Mathlib.Data.List.DropRight
import Mathlib.Data.List.Nodup
import ObjcMetadata.Proofs.Type.Closed
/-!
Types as layers around an atom.

A simple type is an atom within layers of pointers, arrays and callable types, and it is spelled by
the token of the atom and the declarator that the layers grow around the identifier
(`SimpleType.spelling_ofLayers`). The token can be told from the declarator
(`Declarator.spell_inj`), and in the declarator the part that the last layer has added can be told
from the part that it had found: whether that was put into parentheses (`Declarator.enclose_inj`),
the size of an array (`Declarator.arraySuffix_inj`) and the signature of a callable type
(`Declarator.callable_inj`).
-/

namespace ObjcMetadata

/-! ### Tokens -/

/-- Every atom. -/
def Atom.all : List Atom :=
  (Primitive.all.filterMap fun kind =>
    if h : kind ≠ .charAsSigned then some (.primitive kind h) else none) ++
    [.protocol, .selector, .instancetype, .unichar, .vaList, .object, .classObject]

theorem Atom.mem_all (a : Atom) : a ∈ all := by
  cases a with
  | primitive kind h =>
    exact List.mem_append_left _ (List.mem_filterMap.mpr ⟨kind, Primitive.mem_all kind, dif_pos h⟩)
  | _ => decide

/-- No two atoms have the same token. -/
theorem Atom.token_inj {a b : Atom} (h : a.token = b.token) : a = b := by
  have hdistinct : (all.map token).Nodup := by decide
  exact List.inj_on_of_nodup_map hdistinct a.mem_all b.mem_all h

/-! ### Layers -/

/-- What a type may have around it: a pointer, an array or a signature. -/
inductive Layer where
  | pointer
  | array (size : Option Nat)
  | callable (kind : Callable) (params : List SimpleType)

namespace Layer

/-- The type with the layer around it. -/
def wrap : Layer → SimpleType → SimpleType
  | .pointer, t => .pointer t
  | .array size, t => .array size t
  | .callable kind params, t => .callable kind t params

/-- The declarator that the layer makes of a declarator. -/
def grow : Layer → (declarator : String) → (bare : Bool) → String
  | .pointer, d, _ => "*" ++ d
  | .array size, d, bare => Declarator.enclose d bare ++ Declarator.arraySuffix size
  | .callable kind params, d, _ =>
    Declarator.callable kind.marker d (Declarator.parameters (SimpleType.spellings params))

/-- Whether the declarator that the layer makes needs no parentheses. -/
def bare : Layer → Bool
  | .pointer => false
  | _ => true

end Layer

namespace SimpleType

/-- The atom of a type and the layers around it, the innermost first, in front of the layers around
the type itself. -/
def layers : SimpleType → (outer : List Layer) → Atom × List Layer
  | .atom a, outer => (a, outer)
  | .pointer t, outer => t.layers (.pointer :: outer)
  | .array size t, outer => t.layers (.array size :: outer)
  | .callable kind t params, outer => t.layers (.callable kind params :: outer)

/-- Wrapping its atom in its layers gives the type again, with what there was around it. -/
theorem foldl_wrap_layers : ∀ (t : SimpleType) (outer : List Layer),
    (t.layers outer).2.foldl (fun t l => l.wrap t) (.atom (t.layers outer).1) =
      outer.foldl (fun t l => l.wrap t) t
  | .atom _, _ => rfl
  | .pointer t, outer => foldl_wrap_layers t (.pointer :: outer)
  | .array size t, outer => foldl_wrap_layers t (.array size :: outer)
  | .callable kind t params, outer => foldl_wrap_layers t (.callable kind params :: outer)

theorem layers_inj {s t : SimpleType} (h : s.layers [] = t.layers []) : s = t := by
  have hs := foldl_wrap_layers s []
  have ht := foldl_wrap_layers t []
  rw [h] at hs
  exact hs.symm.trans ht

end SimpleType

namespace Declarator

/-- Whether the declarator that layers have grown needs no parentheses. -/
def isBare : List Layer → Bool
  | [] => true
  | l :: _ => l.bare

/-- The declarator that layers grow around an identifier. The last of them, which is outermost, is
the first to do so. -/
def ofLayers (identifier : String) : List Layer → String
  | [] => identifier
  | l :: ls => l.grow (ofLayers identifier ls) (isBare ls)

end Declarator

/-- A type is spelled by the token of its atom and the declarator that its layers grow. -/
theorem SimpleType.spelling_ofLayers (identifier : String) :
    ∀ (t : SimpleType) (outer : List Layer),
      t.spelling (Declarator.ofLayers identifier outer) (Declarator.isBare outer) =
        Declarator.spell (t.layers outer).1.token
          (Declarator.ofLayers identifier (t.layers outer).2)
  | .atom _, _ => rfl
  | .pointer t, outer => spelling_ofLayers identifier t (.pointer :: outer)
  | .array size t, outer => spelling_ofLayers identifier t (.array size :: outer)
  | .callable kind t params, outer =>
    spelling_ofLayers identifier t (.callable kind params :: outer)

namespace Declarator

/-! ### Declarators that layers have grown -/

variable {identifier x y : String} {l : Layer} {ls ms : List Layer}

/-- A layer adds punctuation. -/
theorem not_isWords_ofLayers_cons : ¬ IsWords (ofLayers identifier (l :: ls)) := by
  intro h
  cases l with
  | pointer => exact h '*' (by simp [ofLayers, Layer.grow]) (by decide)
  | array size => exact h ']' (by simp [ofLayers, Layer.grow, arraySuffix]) (by decide)
  | callable kind params => exact h '(' (by simp [ofLayers, Layer.grow, callable]) (by decide)

theorem eq_nil_of_ofLayers_eq (h : ofLayers identifier ls = x) (hx : IsWords x) : ls = [] := by
  cases ls with
  | nil => rfl
  | cons l ls => exact absurd (h ▸ hx) not_isWords_ofLayers_cons

theorem closed_ofLayers (hidentifier : IsWords identifier) (ls : List Layer) :
    Closed 0 (ofLayers identifier ls) := by
  induction ls with
  | nil => exact hidentifier.closed
  | cons l ls ih =>
    cases l with
    | pointer => exact closed_star ih
    | array size => exact (closed_enclose ih _).append (closed_arraySuffix size)
    | callable kind params =>
      exact closed_callable kind ih (closed_parameters (SimpleType.closed_spellings params))

theorem enclose_of_isBare (h : isBare ls = true) :
    enclose (ofLayers identifier ls) (isBare ls) = ofLayers identifier ls := by
  simp [enclose, h]

/-- Only a declarator that a pointer has grown needs parentheses. -/
theorem exists_star_of_not_isBare (identifier : String) (h : isBare ls = false) :
    ∃ rest, ofLayers identifier ls = "*" ++ rest := by
  obtain _ | ⟨_ | _ | _, ls⟩ := ls
  case cons.pointer => exact ⟨ofLayers identifier ls, rfl⟩
  all_goals cases h

theorem enclose_of_not_isBare (h : isBare ls = false) :
    enclose (ofLayers identifier ls) (isBare ls) = "(" ++ ofLayers identifier ls ++ ")" := by
  obtain ⟨rest, hrest⟩ := exists_star_of_not_isBare identifier h
  have hne : "*" ++ rest ≠ "" := by simp [← String.toList_inj]
  simp [enclose, h, hrest, hne]

/-- A declarator begins with nothing or the identifier, and punctuation comes next. This is no star
if the declarator needs no parentheses. -/
theorem exists_word_ofLayers (identifier : String) (ls : List Layer) :
    ∃ word rest, (word = "" ∨ word = identifier) ∧ ofLayers identifier ls = word ++ rest ∧
      ∀ c ∈ rest.toList.head?, c ∈ punctuation ∧ (isBare ls = true → c ≠ '*') := by
  induction ls with
  | nil => exact ⟨identifier, "", .inr rfl, String.append_empty.symm, by simp⟩
  | cons l ls ih =>
    cases l with
    | pointer =>
      refine ⟨"", "*" ++ ofLayers identifier ls, .inl rfl, String.empty_append.symm, ?_⟩
      simp [punctuation, isBare, Layer.bare]
    | callable kind params =>
      refine ⟨"", _, .inl rfl, String.empty_append.symm, ?_⟩
      simp [ofLayers, Layer.grow, callable, punctuation]
    | array size =>
      cases hbare : isBare ls with
      | false =>
        refine ⟨"", _, .inl rfl, String.empty_append.symm, ?_⟩
        rw [ofLayers, Layer.grow, enclose_of_not_isBare hbare]
        simp [punctuation]
      | true =>
        -- The suffix comes behind the declarator as it is, which may still be empty.
        obtain ⟨word, rest, hword, heq, hrest⟩ := ih
        refine ⟨word, rest ++ arraySuffix size, hword, ?_, ?_⟩
        · rw [ofLayers, Layer.grow, enclose_of_isBare hbare, heq, String.append_assoc]
        · intro c hc
          rw [String.toList_append, List.head?_append] at hc
          rcases Option.or_eq_some_iff.mp hc with hc | ⟨-, hc⟩
          · exact (hrest c hc).imp_right fun hne _ => hne hbare
          · simp [arraySuffix] at hc
            simp [← hc, punctuation]

/-- A declarator that needs no parentheses does not begin with a star. -/
theorem ofLayers_ne_star (hidentifier : IsWords identifier) (h : isBare ls = true) :
    ofLayers identifier ls ≠ "*" ++ x := by
  intro heq
  obtain ⟨word, rest, hword, hls, hrest⟩ := exists_word_ofLayers identifier ls
  have hhead : word.toList.head?.or rest.toList.head? = some '*' := by
    rw [← List.head?_append, ← String.toList_append, ← hls, heq]
    simp
  rcases Option.or_eq_some_iff.mp hhead with hstar | ⟨-, hstar⟩
  · rcases hword with rfl | rfl
    · simp at hstar
    · exact hidentifier '*' (List.mem_of_mem_head? hstar) (by decide)
  · exact (hrest '*' hstar).2 h rfl

/-! ### The token of an atom -/

/-- A text that may be the name in a declaration: one word, such as a C identifier, or nothing. -/
structure IsName (text : String) : Prop where
  words : IsWords text
  noSpace : ' ' ∉ text.toList

theorem isName_empty : IsName "" :=
  ⟨isWords_empty, by simp⟩

/-- Letters, digits and underscores make a name, and so does every C identifier. -/
theorem isName_of_isAlphanum (h : ∀ c ∈ identifier.toList, c.isAlphanum = true ∨ c = '_') :
    IsName identifier := by
  have hother : ∀ c ∈ ' ' :: punctuation, ¬ (c.isAlphanum = true ∨ c = '_') := by
    simp [punctuation]
  exact ⟨fun c hc hmem => hother c (List.mem_cons_of_mem _ hmem) (h c hc),
    fun hc => hother ' ' List.mem_cons_self (h ' ' hc)⟩

/-- What stands between a token and a declarator. -/
def gap (declarator : String) : String :=
  if declarator = "" then "" else " "

theorem isWords_gap (declarator : String) : IsWords (gap declarator) := by
  rw [gap]
  split
  · exact isWords_empty
  · decide

theorem spell_append (token word rest : String) :
    spell token (word ++ rest) = token ++ gap (word ++ rest) ++ word ++ rest := by
  rw [spell, gap]
  split
  case isTrue h => rw [String.append_empty, String.append_assoc, h, String.append_empty]
  case isFalse => exact String.append_assoc.symm

theorem gap_ofLayers (h : identifier ≠ "") (ls : List Layer) :
    gap (ofLayers identifier ls) = " " := by
  refine if_neg fun hempty => ?_
  cases eq_nil_of_ofLayers_eq hempty isWords_empty
  exact h hempty

theorem append_space_ne (hidentifier : IsName identifier) (h : identifier ≠ "") :
    x ++ " " ≠ y ++ identifier := by
  intro heq
  have hlast := congrArg (fun text : String => text.toList.getLast?) heq
  have hne : identifier.toList ≠ [] := fun hnil => h (String.toList_inj.mp hnil)
  rw [String.toList_append, String.toList_append, List.getLast?_append_of_ne_nil _ hne] at hlast
  exact hidentifier.noSpace (List.mem_of_getLast? (by simpa using hlast.symm))

/-- The token of an atom ends where the gap, the identifier or the declarator begins. -/
theorem spell_inj (hidentifier : IsName identifier) {a b : Atom}
    (h : spell a.token (ofLayers identifier ls) = spell b.token (ofLayers identifier ms)) :
    a = b ∧ ofLayers identifier ls = ofLayers identifier ms := by
  obtain ⟨v, r, hv, hvr, hr⟩ := exists_word_ofLayers identifier ls
  obtain ⟨w, s, hw, hws, hs⟩ := exists_word_ofLayers identifier ms
  have hwords : ∀ (a : Atom) (d : String) {word : String}, word = "" ∨ word = identifier →
      IsWords (a.token ++ gap d ++ word) := by
    rintro a d _ (rfl | rfl)
    · exact ((isWords_token a).append (isWords_gap d)).append isWords_empty
    · exact ((isWords_token a).append (isWords_gap d)).append hidentifier.words
  rw [hvr, hws, spell_append, spell_append, ← hvr, ← hws] at h
  obtain ⟨hlead, hrest⟩ := (hwords a _ hv).append_inj (hwords b _ hw) (fun c hc => (hr c hc).1)
    (fun c hc => (hs c hc).1) h
  have hvw : v = w := by
    by_cases hne : identifier = ""
    · rw [hne, or_self] at hv hw
      rw [hv, hw]
    · rw [gap_ofLayers hne, gap_ofLayers hne] at hlead
      rcases hv with rfl | rfl <;> rcases hw with rfl | rfl
      case inl.inl => rfl
      case inr.inr => rfl
      case inl.inr =>
        rw [String.append_empty] at hlead
        exact absurd hlead (append_space_ne hidentifier hne)
      case inr.inl =>
        rw [String.append_empty] at hlead
        exact absurd hlead.symm (append_space_ne hidentifier hne)
  have hd : ofLayers identifier ls = ofLayers identifier ms := by rw [hvr, hws, hvw, hrest]
  rw [hd, hvw] at hlead
  exact ⟨Atom.token_inj ((String.append_left_inj _).mp ((String.append_left_inj _).mp hlead)), hd⟩

/-! ### Brackets and parentheses -/

theorem append_bracket_ne (x y : String) : x ++ "]" ≠ y ++ ")" := by
  intro h
  have hlast := congrArg (fun text : String => text.toList.getLast?) h
  simp at hlast

/-- What the signature of a callable type adds to a declarator, cut at the end of its first
parentheses. -/
theorem callable_eq (kind : Callable) (d params : String) :
    callable kind.marker d params =
      "(" ++ ((kind.marker ++ d) ++ (")" ++ ("(" ++ params ++ ")"))) := by
  simp [callable, ← String.toList_inj]

/-- A declarator that needs no parentheses is not one in parentheses. -/
theorem ofLayers_ne_parenthesize (hidentifier : IsWords identifier) (h : isBare ls = true)
    (hx : Closed 0 x) : ofLayers identifier ls ≠ "(" ++ x ++ ")" := by
  intro heq
  obtain _ | ⟨_ | size | ⟨kind, params⟩, ls⟩ := ls
  case nil => exact hidentifier '(' (by simp [show identifier = _ from heq]) (by decide)
  case cons.pointer => cases h
  case cons.array =>
    refine append_bracket_ne (enclose (ofLayers identifier ls) (isBare ls) ++ "[" ++ sizeText size)
      ("(" ++ x) ?_
    simpa [ofLayers, Layer.grow, arraySuffix, String.append_assoc] using heq
  case cons.callable =>
    -- The parentheses that come first close before the signature does.
    have hinner : (kind.marker ++ ofLayers identifier ls) ++
        (")" ++ ("(" ++ parameters (SimpleType.spellings params) ++ ")")) = x ++ (")" ++ "") := by
      simpa [ofLayers, Layer.grow, callable_eq, String.append_assoc] using heq
    have hrest := ((closed_marker kind).append (closed_ofLayers hidentifier ls)).append_inj hx
      (stops_close _) (stops_close "") hinner
    simp [← String.toList_inj] at hrest

theorem enclose_inj (hidentifier : IsWords identifier)
    (h : enclose (ofLayers identifier ls) (isBare ls) =
      enclose (ofLayers identifier ms) (isBare ms)) :
    ofLayers identifier ls = ofLayers identifier ms := by
  cases hls : isBare ls <;> cases hms : isBare ms
  case true.true => rwa [enclose_of_isBare hls, enclose_of_isBare hms] at h
  case true.false =>
    rw [enclose_of_isBare hls, enclose_of_not_isBare hms] at h
    exact absurd h (ofLayers_ne_parenthesize hidentifier hls (closed_ofLayers hidentifier ms))
  case false.true =>
    rw [enclose_of_isBare hms, enclose_of_not_isBare hls] at h
    exact absurd h.symm (ofLayers_ne_parenthesize hidentifier hms (closed_ofLayers hidentifier ls))
  case false.false =>
    rw [enclose_of_not_isBare hls, enclose_of_not_isBare hms] at h
    exact (String.append_right_inj "(").mp ((String.append_left_inj ")").mp h)

theorem sizeText_inj {m n : Option Nat} (h : sizeText m = sizeText n) : m = n := by
  cases m <;> cases n
  case some.some m n =>
    have hvalue := congrArg (fun text : String => Nat.ofDigitChars 10 text.toList 0) h
    simpa [sizeText, Nat.toList_repr, Nat.ofDigitChars_ten_toDigits] using hvalue
  case none.none => rfl
  case some.none => exact absurd h Nat.repr_ne_empty
  case none.some => exact absurd h.symm Nat.repr_ne_empty

/-- The last bracket that opens is that of the size. -/
theorem arraySuffix_inj {m n : Option Nat} (h : x ++ arraySuffix m = y ++ arraySuffix n) :
    x = y ∧ m = n := by
  have hread : ∀ (z : String) (size : Option Nat),
      ((z ++ "[").toList ++ (sizeText size).toList).rtakeWhile (· ≠ '[') =
        (sizeText size).toList := by
    intro z size
    have hsize : ∀ c ∈ (sizeText size).toList.reverse, decide (c ≠ '[') = true := fun c hc =>
      decide_eq_true fun heq => isWords_sizeText size c (List.mem_reverse.mp hc) (heq ▸ by decide)
    rw [List.rtakeWhile, List.reverse_append, List.takeWhile_append_of_pos hsize]
    simp
  have hcut : (x ++ "[") ++ sizeText m = (y ++ "[") ++ sizeText n := by
    refine (String.append_left_inj "]").mp ?_
    simpa [arraySuffix, String.append_assoc] using h
  obtain ⟨hxy, hmn⟩ := append_inj_of_reader (·.rtakeWhile (· ≠ '[')) (hread x m) (hread y n) hcut
  exact ⟨(String.append_left_inj "[").mp hxy, sizeText_inj hmn⟩

theorem arraySuffix_ne_callable (size : Option Nat) (kind : Callable) (d params : String) :
    x ++ arraySuffix size ≠ callable kind.marker d params := by
  intro h
  refine append_bracket_ne (x ++ "[" ++ sizeText size)
    ("(" ++ kind.marker ++ d ++ ")(" ++ params) ?_
  simpa [arraySuffix, callable, String.append_assoc] using h

theorem callable_inj {k k' : Callable} {p q : String} (hx : Closed 0 x) (hy : Closed 0 y)
    (h : callable k.marker x p = callable k'.marker y q) : k = k' ∧ x = y ∧ p = q := by
  rw [callable_eq, callable_eq] at h
  obtain ⟨hmarked, hrest⟩ := ((closed_marker k).append hx).append_inj ((closed_marker k').append hy)
    (stops_close _) (stops_close _) ((String.append_right_inj "(").mp h)
  have hpq : p = q := by simpa [← String.toList_inj] using hrest
  have hkind : k = k' := by
    cases k <;> cases k' <;> first | rfl | simp [Callable.marker, ← String.toList_inj] at hmarked
  subst hkind
  exact ⟨rfl, (String.append_right_inj _).mp hmarked, hpq⟩

end Declarator

end ObjcMetadata
