import Mathlib.Tactic.ByContra
import ObjcMetadata.Name
/-!
Names and their written forms.

A text is divided by its last dot in one way only: what stands behind the dot holds no dot itself
(`splitLastDot_eq_some_iff`). So the written form tells all names apart whose last part holds no dot
(`divide?_eq_some_iff`), and reading is division, but for the names with an empty part. A module may
hold any number of dots; a dot in the last part is what a text cannot show.
-/

namespace ObjcMetadata.QualifiedName

variable {text before after : List Char} {s : String} {n : QualifiedName}

/-! ### The last dot -/

theorem splitLastDot_eq_none_iff : splitLastDot text = none ↔ '.' ∉ text := by
  induction text with
  | nil => simp [splitLastDot]
  | cons c rest ih =>
    rw [splitLastDot, List.mem_cons, not_or, ← ih]
    cases splitLastDot rest with
    | some parts => simp
    | none => by_cases hdot : c = '.' <;> simp [hdot, eq_comm]

theorem splitLastDot_append (before : List Char) (hafter : '.' ∉ after) :
    splitLastDot (before ++ '.' :: after) = some (before, after) := by
  induction before with
  | nil => simp [splitLastDot, splitLastDot_eq_none_iff.mpr hafter]
  | cons c before ih => simp [splitLastDot, ih]

/-- The last dot is the one behind which there is no other. -/
theorem splitLastDot_eq_some_iff :
    splitLastDot text = some (before, after) ↔ text = before ++ '.' :: after ∧ '.' ∉ after := by
  constructor
  · intro h
    induction text generalizing before with
    | nil => cases h
    | cons c rest ih =>
      rw [splitLastDot] at h
      cases hrest : splitLastDot rest with
      | some parts =>
        simp only [hrest, Option.some.injEq, Prod.mk.injEq] at h
        obtain ⟨rfl, rfl⟩ := h
        obtain ⟨heq, hafter⟩ := ih hrest
        exact ⟨congrArg (c :: ·) heq, hafter⟩
      | none =>
        simp only [hrest, Option.ite_none_right_eq_some, Option.some.injEq, Prod.mk.injEq] at h
        obtain ⟨rfl, rfl, rfl⟩ := h
        exact ⟨rfl, splitLastDot_eq_none_iff.mp hrest⟩
  · rintro ⟨rfl, hafter⟩
    exact splitLastDot_append before hafter

/-! ### Dividing a text -/

theorem toList_display (n : QualifiedName) :
    n.display.toList = n.module.toList ++ '.' :: n.name.toList := by
  simp [display]

/-- The parts of a text on both sides of its last dot. They may be empty. -/
def divide? (text : String) : Option QualifiedName :=
  (splitLastDot text.toList).map fun parts => ⟨String.ofList parts.1, String.ofList parts.2⟩

theorem divide?_eq_none_iff : divide? s = none ↔ '.' ∉ s.toList := by
  rw [divide?, Option.map_eq_none_iff, splitLastDot_eq_none_iff]

/-- A name comes from dividing its own written form, and from no other text, if its last part holds
no dot. -/
theorem divide?_eq_some_iff : divide? s = some n ↔ n.display = s ∧ '.' ∉ n.name.toList := by
  rw [← String.toList_inj, toList_display, eq_comm (b := s.toList), ← splitLastDot_eq_some_iff,
    divide?, Option.map_eq_some_iff]
  constructor
  · rintro ⟨⟨before, after⟩, hsplit, rfl⟩
    simpa using hsplit
  · intro hsplit
    exact ⟨_, hsplit, by simp⟩

/-! ### Reading -/

/-- A name that can be read where it is written: no part is empty, and the last one holds no dot. -/
structure Readable (n : QualifiedName) : Prop where
  module_ne : n.module ≠ ""
  name_ne : n.name ≠ ""
  dotless : '.' ∉ n.name.toList

/-- To read a name is to divide a text and to refuse empty parts. -/
theorem parse?_eq_filter (s : String) :
    parse? s = (divide? s).filter fun n => n.module ≠ "" ∧ n.name ≠ "" := by
  unfold parse? divide?
  cases splitLastDot s.toList with
  | none => rfl
  | some parts =>
    obtain ⟨_ | ⟨m, ms⟩, _ | ⟨c, cs⟩⟩ := parts <;> simp [Option.filter_some]

theorem parse?_eq_some_iff : parse? s = some n ↔ n.display = s ∧ n.Readable := by
  rw [parse?_eq_filter, Option.filter_eq_some_iff, divide?_eq_some_iff, decide_eq_true_iff]
  constructor
  · rintro ⟨⟨hdisplay, hdotless⟩, hmodule, hname⟩
    exact ⟨hdisplay, hmodule, hname, hdotless⟩
  · rintro ⟨hdisplay, hmodule, hname, hdotless⟩
    exact ⟨⟨hdisplay, hdotless⟩, hmodule, hname⟩

/-- A text cannot be read if it has no dot, or nothing before or behind its last one. -/
theorem parse?_eq_none_iff :
    parse? s = none ↔ '.' ∉ s.toList ∨ ∃ before after : String,
      s = before ++ "." ++ after ∧ '.' ∉ after.toList ∧ (before = "" ∨ after = "") := by
  constructor
  · intro h
    cases hdivide : divide? s with
    | none => exact .inl (divide?_eq_none_iff.mp hdivide)
    | some n =>
      obtain ⟨hdisplay, hdotless⟩ := divide?_eq_some_iff.mp hdivide
      refine .inr ⟨n.module, n.name, hdisplay.symm, hdotless, ?_⟩
      by_contra hparts
      obtain ⟨hmodule, hname⟩ := not_or.mp hparts
      cases h.symm.trans (parse?_eq_some_iff.mpr ⟨hdisplay, hmodule, hname, hdotless⟩)
  · rintro (hdot | ⟨before, after, rfl, hdotless, hempty⟩)
    · rw [parse?_eq_filter, divide?_eq_none_iff.mpr hdot, Option.filter_none]
    · have hdivide : divide? (before ++ "." ++ after) = some ⟨before, after⟩ :=
        divide?_eq_some_iff.mpr ⟨rfl, hdotless⟩
      rw [parse?_eq_filter, hdivide]
      rcases hempty with rfl | rfl <;> simp [Option.filter_some]

/-- **Reading and writing are inverse** on just the names that can be read. -/
theorem parse_display_inverse :
    (∀ s (n : QualifiedName), parse? s = some n ↔ n.display = s ∧ n.Readable) ∧
    (∀ s, parse? s = none ↔ '.' ∉ s.toList ∨ ∃ before after : String,
      s = before ++ "." ++ after ∧ '.' ∉ after.toList ∧ (before = "" ∨ after = "")) ∧
    (∀ n : QualifiedName, parse? n.display = some n ↔ n.Readable) ∧
    ∀ s, (parse? s).map display = some s ↔ ∃ n : QualifiedName, n.Readable ∧ n.display = s := by
  refine ⟨fun s n => parse?_eq_some_iff, fun s => parse?_eq_none_iff, fun n => ?_, fun s => ?_⟩
  · rw [parse?_eq_some_iff, and_iff_right rfl]
  · rw [Option.map_eq_some_iff]
    constructor
    · rintro ⟨n, hread, hdisplay⟩
      exact ⟨n, (parse?_eq_some_iff.mp hread).2, hdisplay⟩
    · rintro ⟨n, hreadable, hdisplay⟩
      exact ⟨n, parse?_eq_some_iff.mpr ⟨hdisplay, hreadable⟩, hdisplay⟩

example : parse? "UIKit.UIView.Layout" = some ⟨"UIKit.UIView", "Layout"⟩ := by decide

end ObjcMetadata.QualifiedName
