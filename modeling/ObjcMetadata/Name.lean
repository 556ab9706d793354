/-!
Names of declarations, qualified by the module that owns them.

A qualified name is written `module.name`. A module name may itself hold dots
(`UIKit.UIResponder`), so reading splits at the last dot; a written name whose two parts are
not empty and whose last part holds no dot reads back as itself.
-/

namespace ObjcMetadata

/-- A declaration name together with the module that owns the declaration. -/
structure QualifiedName where
  module : String
  name : String
deriving DecidableEq, Repr, Inhabited

namespace QualifiedName

/-! ### Writing and reading -/

/-- The written form `module.name`. -/
def display (n : QualifiedName) : String :=
  n.module ++ "." ++ n.name

/-- Splits a text at its last dot, which belongs to neither side. -/
def splitLastDot : List Char → Option (List Char × List Char)
  | [] => none
  | c :: rest =>
    match splitLastDot rest with
    | some (before, after) => some (c :: before, after)
    | none => if c = '.' then some ([], rest) else none

/-- Reads a written name. There is none without a dot, or with nothing before or after the last
one. -/
def parse? (text : String) : Option QualifiedName :=
  match splitLastDot text.toList with
  | some (m :: ms, n :: ns) => some ⟨String.ofList (m :: ms), String.ofList (n :: ns)⟩
  | _ => none

/-! ### Order -/

/-- Names are ordered by module and then by name, each by code points. -/
instance : Ord QualifiedName where
  compare a b := (compare a.module b.module).then (compare a.name b.name)

/-- The given names in order, each once. -/
def sortDistinct (names : List QualifiedName) : List QualifiedName :=
  (names.mergeSort fun a b => (compare a b).isLE).eraseReps

end QualifiedName

end ObjcMetadata
