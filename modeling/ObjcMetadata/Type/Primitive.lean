import ObjcMetadata.Type.Encoding
/-!
The scalar kinds that C headers name directly.

Each kind has its C spelling. The 128-bit integers and the wide character kinds have no encoding
at run time: these five are the unsupported kinds, and they alone have no `encoding?`.
-/

namespace ObjcMetadata

/-- A builtin scalar kind, in the order of the fixed type handles. -/
inductive Primitive where
  | void
  | bool
  | short
  | unsignedShort
  | int
  | unsignedInt
  | int128
  | unsignedInt128
  | long
  | unsignedLong
  | longLong
  | unsignedLongLong
  /-- The explicit `signed char`. -/
  | signedChar
  /-- A plain `char` where it is unsigned. -/
  | charAsUnsigned
  /-- A plain `char` where it is signed. -/
  | charAsSigned
  | unsignedChar
  | char16
  | char32
  | wideChar
  | float
  | double
  | longDouble
deriving DecidableEq, Repr, Inhabited

namespace Primitive

/-- Every kind, in the order of the fixed type handles. -/
def all : List Primitive :=
  [.void, .bool, .short, .unsignedShort, .int, .unsignedInt, .int128, .unsignedInt128, .long,
    .unsignedLong, .longLong, .unsignedLongLong, .signedChar, .charAsUnsigned, .charAsSigned,
    .unsignedChar, .char16, .char32, .wideChar, .float, .double, .longDouble]

/-- The C spelling. The two plain `char` kinds share one. -/
def cName : Primitive → String
  | .void => "void"
  | .bool => "bool"
  | .short => "short"
  | .unsignedShort => "unsigned short"
  | .int => "int"
  | .unsignedInt => "unsigned int"
  | .int128 => "__int128"
  | .unsignedInt128 => "unsigned __int128"
  | .long => "long"
  | .unsignedLong => "unsigned long"
  | .longLong => "long long"
  | .unsignedLongLong => "unsigned long long"
  | .signedChar => "signed char"
  | .charAsUnsigned | .charAsSigned => "char"
  | .unsignedChar => "unsigned char"
  | .char16 => "char16_t"
  | .char32 => "char32_t"
  | .wideChar => "wchar_t"
  | .float => "float"
  | .double => "double"
  | .longDouble => "long double"

/-- Whether metadata can describe values of the kind. -/
def isSupported : Primitive → Bool
  | .int128 | .unsignedInt128 | .char16 | .char32 | .wideChar => false
  | _ => true

/-- The encoding of a kind. The runtime has no `long double`, which is encoded as a `double`. -/
def encoding? : Primitive → Option Encoding
  | .void => some .void
  | .bool => some .bool
  | .short => some .short
  | .unsignedShort => some .unsignedShort
  | .int => some .int
  | .unsignedInt => some .unsignedInt
  | .long => some .long
  | .unsignedLong => some .unsignedLong
  | .longLong => some .longLong
  | .unsignedLongLong => some .unsignedLongLong
  | .signedChar | .charAsUnsigned | .charAsSigned => some .signedChar
  | .unsignedChar => some .unsignedChar
  | .float => some .float
  | .double | .longDouble => some .double
  | .int128 | .unsignedInt128 | .char16 | .char32 | .wideChar => none

theorem mem_all (k : Primitive) : k ∈ all := by
  cases k <;> decide

/-- The kinds with an encoding are the supported ones. -/
theorem isSome_encoding? (k : Primitive) : k.encoding?.isSome = k.isSupported := by
  cases k <;> rfl

end Primitive

end ObjcMetadata
