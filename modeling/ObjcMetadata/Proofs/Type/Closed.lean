import Mathlib.Data.List.Basic
import ObjcMetadata.Proofs.Type.Simple
/-!
Texts that close the parentheses they open.

A reader who looks for the end of a declarator or of a parameter stops at the first comma or closing
parenthesis that no parenthesis read so far encloses (`Declarator.unread` is what is left then). A
closed text does not stop the reader, so where it ends can be told from what comes behind it
(`Declarator.Closed.append_inj`), and a list of closed texts can be told from the texts joined by
commas (`Declarator.intercalate_inj`). Simple types are spelled by closed texts
(`SimpleType.closed_spelling`).
-/

namespace ObjcMetadata

namespace Declarator

/-! ### Reading up to a stop -/

/-- What is left for a reader who has opened `depth` parentheses: the text from the first comma or
closing parenthesis outside of all parentheses on. -/
def unread : (depth : Nat) → List Char → List Char
  | _, [] => []
  | depth, '(' :: cs => unread (depth + 1) cs
  | 0, ')' :: cs => ')' :: cs
  | depth + 1, ')' :: cs => unread depth cs
  | 0, ',' :: cs => ',' :: cs
  | depth, _ :: cs => unread depth cs

/-- A text is closed if a reader who has opened `depth` parentheses or more does not stop in it and
has as many of them open behind it. -/
def Closed (depth : Nat) (text : String) : Prop :=
  ∀ d cs, depth ≤ d → unread d (text.toList ++ cs) = unread d cs

/-- A text stops the reader right away if it is empty or begins with a comma or a closing
parenthesis. -/
def Stops (text : String) : Prop :=
  unread 0 text.toList = text.toList

theorem stops_empty : Stops "" := rfl

theorem stops_comma (text : String) : Stops (", " ++ text) := by
  simp [Stops, unread]

theorem stops_close (text : String) : Stops (")" ++ text) := by
  simp [Stops, unread]

/-! ### Closed texts -/

variable {m n : Nat} {x y r s : String}

/-- Texts in two parts are told apart by whoever finds the second part. -/
theorem append_inj_of_reader (read : List Char → List Char)
    (hx : read (x.toList ++ r.toList) = r.toList) (hy : read (y.toList ++ s.toList) = s.toList)
    (h : x ++ r = y ++ s) : x = y ∧ r = s := by
  have hrest : r = s := by
    refine String.toList_inj.mp ?_
    rw [← hx, ← String.toList_append, h, String.toList_append, hy]
  subst hrest
  exact ⟨(String.append_left_inj r).mp h, rfl⟩

namespace Closed

theorem mono (h : Closed m x) (hle : m ≤ n) : Closed n x :=
  fun d cs hd => h d cs (hle.trans hd)

theorem append (hx : Closed n x) (hy : Closed n y) : Closed n (x ++ y) := by
  intro d cs hd
  rw [String.toList_append, List.append_assoc, hx d _ hd, hy d _ hd]

/-- The reader passes whatever is neither a parenthesis nor a comma. -/
theorem of_forall (h : ∀ c ∈ x.toList, c ≠ '(' ∧ c ≠ ')' ∧ c ≠ ',') : Closed n x := by
  intro d cs _
  generalize x.toList = l at h
  induction l with
  | nil => rfl
  | cons c l ih =>
    obtain ⟨⟨hopen, hclose, hcomma⟩, hl⟩ := List.forall_mem_cons.mp h
    -- The last case of `unread` asks that none of the cases above it applies.
    rw [List.cons_append, unread, ih hl] <;> grind

/-- Parentheses keep commas from the reader. -/
theorem parenthesize (hx : Closed 1 x) : Closed 0 ("(" ++ x ++ ")") := by
  intro d cs _
  have hinner := hx (d + 1) (')' :: cs) (Nat.le_add_left 1 d)
  simpa [unread] using hinner

/-- Closed texts are told from what comes behind them, if that stops the reader. -/
theorem append_inj (hx : Closed 0 x) (hy : Closed 0 y) (hr : Stops r) (hs : Stops s)
    (h : x ++ r = y ++ s) : x = y ∧ r = s :=
  append_inj_of_reader (unread 0) ((hx 0 _ le_rfl).trans hr) ((hy 0 _ le_rfl).trans hs) h

theorem intercalate {xs : List String} (h : ∀ x ∈ xs, Closed 0 x) :
    Closed 1 (", ".intercalate xs) := by
  have hcomma : Closed 1 ", " := by
    intro d cs hd
    obtain _ | d := d
    · cases hd
    · simp [unread]
  induction xs with
  | nil => exact of_forall (by simp)
  | cons x xs ih =>
    obtain ⟨hx, hxs⟩ := List.forall_mem_cons.mp h
    obtain _ | ⟨y, ys⟩ := xs
    · simpa using hx.mono (Nat.zero_le 1)
    · rw [String.intercalate_cons_cons]
      exact ((hx.mono (Nat.zero_le 1)).append hcomma).append (ih hxs)

end Closed

/-- A list that is not empty is told from its texts joined by commas. -/
theorem intercalate_inj {xs ys : List String} (hxs : ∀ t ∈ x :: xs, Closed 0 t)
    (hys : ∀ t ∈ y :: ys, Closed 0 t)
    (h : ", ".intercalate (x :: xs) = ", ".intercalate (y :: ys)) : x :: xs = y :: ys := by
  induction xs generalizing x y ys with
  | nil =>
    obtain _ | ⟨y', ys⟩ := ys
    · simpa using h
    · have hsplit : x ++ "" = y ++ (", " ++ ", ".intercalate (y' :: ys)) := by
        simpa [String.intercalate_cons_cons, String.append_assoc] using h
      have hrest := ((hxs x List.mem_cons_self).append_inj (hys y List.mem_cons_self)
        stops_empty (stops_comma _) hsplit).2
      simp [← String.toList_inj] at hrest
  | cons x' xs ih =>
    obtain ⟨hx, hxs'⟩ := List.forall_mem_cons.mp hxs
    obtain _ | ⟨y', ys⟩ := ys
    · have hsplit : x ++ (", " ++ ", ".intercalate (x' :: xs)) = y ++ "" := by
        simpa [String.intercalate_cons_cons, String.append_assoc] using h
      have hrest := (hx.append_inj (hys y List.mem_cons_self)
        (stops_comma _) stops_empty hsplit).2
      simp [← String.toList_inj] at hrest
    · obtain ⟨hy, hys'⟩ := List.forall_mem_cons.mp hys
      rw [String.intercalate_cons_cons, String.intercalate_cons_cons, String.append_assoc,
        String.append_assoc] at h
      obtain ⟨rfl, hrest⟩ := hx.append_inj hy (stops_comma _) (stops_comma _) h
      exact congrArg (x :: ·) (ih hxs' hys' ((String.append_right_inj _).mp hrest))

/-! ### Spellings are closed -/

/-- The characters that declarators add to words. -/
def punctuation : List Char :=
  [',', '*', '^', '(', ')', '[', ']']

/-- A text of words, without the punctuation of declarators. -/
def IsWords (text : String) : Prop :=
  ∀ c ∈ text.toList, c ∉ punctuation

instance (text : String) : Decidable (IsWords text) :=
  List.decidableBAll (· ∉ punctuation) text.toList

theorem isWords_empty : IsWords "" := by
  simp [IsWords]

theorem IsWords.closed (h : IsWords x) : Closed n x := by
  refine .of_forall fun c hc => ?_
  have hother := h c hc
  simp only [punctuation, List.mem_cons, not_or] at hother
  tauto

theorem IsWords.append (hx : IsWords x) (hy : IsWords y) : IsWords (x ++ y) := by
  intro c hc
  rcases List.mem_append.mp (String.toList_append ▸ hc) with hc | hc
  · exact hx c hc
  · exact hy c hc

/-- Words are told from what comes behind them, if that begins with punctuation. -/
theorem IsWords.append_inj (hx : IsWords x) (hy : IsWords y)
    (hr : ∀ c ∈ r.toList.head?, c ∈ punctuation) (hs : ∀ c ∈ s.toList.head?, c ∈ punctuation)
    (h : x ++ r = y ++ s) : x = y ∧ r = s := by
  have hread : ∀ {x r : String}, IsWords x → (∀ c ∈ r.toList.head?, c ∈ punctuation) →
      (x.toList ++ r.toList).dropWhile (· ∉ punctuation) = r.toList := by
    intro x r hx hr
    rw [List.dropWhile_append_of_pos fun c hc => decide_eq_true (hx c hc)]
    cases hlist : r.toList with
    | nil => rfl
    | cons c cs => simp [hr c (by simp [hlist])]
  exact append_inj_of_reader (·.dropWhile (· ∉ punctuation)) (hread hx hr) (hread hy hs) h

theorem isWords_sizeText (size : Option Nat) : IsWords (sizeText size) := by
  cases size with
  | none => exact isWords_empty
  | some size =>
    intro c hc hmem
    rw [sizeText, Nat.toList_repr] at hc
    have hdigit := Nat.isDigit_of_mem_toDigits (by decide) (by decide) hc
    have hother : ∀ c ∈ punctuation, c.isDigit = false := by simp [punctuation]
    cases hdigit.symm.trans (hother c hmem)

theorem isWords_token (a : Atom) : IsWords a.token := by
  cases a with
  | primitive kind =>
    rw [Atom.token]
    cases kind <;> decide
  | _ => decide

theorem closed_spell (a : Atom) (h : Closed n x) : Closed n (spell a.token x) := by
  have hspace : IsWords " " := by decide
  rw [spell]
  split
  · exact (isWords_token a).closed
  · exact ((isWords_token a).closed.append hspace.closed).append h

theorem closed_star (h : Closed n x) : Closed n ("*" ++ x) :=
  (Closed.of_forall (by simp)).append h

theorem closed_enclose (h : Closed 0 x) (bare : Bool) : Closed 0 (enclose x bare) := by
  rw [enclose]
  split
  · exact h
  · exact (h.mono (Nat.zero_le 1)).parenthesize

theorem closed_arraySuffix (size : Option Nat) : Closed n (arraySuffix size) := by
  have hopen : Closed n "[" := .of_forall (by simp)
  have hclose : Closed n "]" := .of_forall (by simp)
  exact (hopen.append (isWords_sizeText size).closed).append hclose

theorem closed_marker (kind : Callable) : Closed n kind.marker := by
  cases kind <;> exact .of_forall (by simp [Callable.marker])

theorem closed_callable (kind : Callable) (hx : Closed 0 x) (hy : Closed 1 y) :
    Closed 0 (callable kind.marker x y) := by
  have hsplit : callable kind.marker x y =
      ("(" ++ (kind.marker ++ x) ++ ")") ++ ("(" ++ y ++ ")") := by
    simp [callable, ← String.toList_inj]
  rw [hsplit]
  exact ((closed_marker kind).append (hx.mono (Nat.zero_le 1))).parenthesize.append hy.parenthesize

theorem closed_parameters {texts : List String} (h : ∀ t ∈ texts, Closed 0 t) :
    Closed 1 (parameters texts) := by
  rw [parameters]
  split
  · exact IsWords.closed (by decide)
  · exact .intercalate h

end Declarator

namespace SimpleType

open Declarator

mutual

/-- A simple type around a closed declarator is spelled by a closed text. -/
theorem closed_spelling : ∀ (t : SimpleType) {declarator : String} (bare : Bool),
    Closed 0 declarator → Closed 0 (t.spelling declarator bare)
  | .atom a, _, _, h => closed_spell a h
  | .pointer t, _, _, h => closed_spelling t false (closed_star h)
  | .array size t, _, bare, h =>
    closed_spelling t true ((closed_enclose h bare).append (closed_arraySuffix size))
  | .callable kind t ps, _, _, h =>
    closed_spelling t true (closed_callable kind h (closed_parameters (closed_spellings ps)))

theorem closed_spellings : ∀ (ps : List SimpleType), ∀ text ∈ spellings ps, Closed 0 text
  | [], _, h => nomatch h
  | p :: ps, text, h => by
    rcases List.mem_cons.mp h with rfl | h
    · exact closed_spelling p true isWords_empty.closed
    · exact closed_spellings ps text h

end

end SimpleType

end ObjcMetadata
