/-!
The closed table of binary type encodings.

Every category of type that the runtime understands has a tag, its position in the table, and an
introspection symbol. The tags fall into groups: two sentinels, the scalars and C strings, the
references to declarations, the derived types, the object kinds, and the records without a name.
-/

namespace ObjcMetadata

/-- The binary category of a type, in the order of the tags. -/
inductive Encoding where
  | unknown
  | vaList
  | void
  | bool
  | short
  | unsignedShort
  | int
  | unsignedInt
  | long
  | unsignedLong
  | longLong
  | unsignedLongLong
  | signedChar
  | unsignedChar
  | unichar
  | cString
  | float
  | double
  | interfaceReference
  | structReference
  | unionReference
  | pointer
  | block
  | functionPointer
  | constantArray
  | incompleteArray
  | protocol
  | classObject
  | object
  | instancetype
  | selector
  | anonymousStruct
  | anonymousUnion
deriving DecidableEq, Repr, Inhabited

namespace Encoding

/-- Every encoding, in the order of the tags. -/
def all : List Encoding :=
  [.unknown, .vaList, .void, .bool, .short, .unsignedShort, .int, .unsignedInt, .long,
    .unsignedLong, .longLong, .unsignedLongLong, .signedChar, .unsignedChar, .unichar, .cString,
    .float, .double, .interfaceReference, .structReference, .unionReference, .pointer, .block,
    .functionPointer, .constantArray, .incompleteArray, .protocol, .classObject, .object,
    .instancetype, .selector, .anonymousStruct, .anonymousUnion]

/-- The number that stands for an encoding in the binary format. -/
def tag (e : Encoding) : Nat :=
  all.idxOf e

/-- The encoding of a tag, if the tag is in the table. -/
def ofTag? (tag : Nat) : Option Encoding :=
  all[tag]?

/-- The introspection symbol. A derived or record encoding has only its opening symbol; what it
holds is written after it. -/
def symbol : Encoding → String
  | .unknown => "?"
  | .vaList => "^v"
  | .void => "v"
  | .bool => "B"
  | .short => "s"
  | .unsignedShort | .unichar => "S"
  | .int => "i"
  | .unsignedInt => "I"
  | .long => "l"
  | .unsignedLong => "L"
  | .longLong => "q"
  | .unsignedLongLong => "Q"
  | .signedChar => "c"
  | .unsignedChar => "C"
  | .cString => "*"
  | .float => "f"
  | .double => "d"
  | .interfaceReference | .protocol | .object | .instancetype => "@"
  | .structReference | .anonymousStruct => "\x7b"
  | .unionReference | .anonymousUnion => "("
  | .pointer => "^"
  | .block => "@?"
  | .functionPointer => "^?"
  | .constantArray | .incompleteArray => "["
  | .classObject => "#"
  | .selector => ":"

/-- Whether the encoding is that of a plain value: the tags from `void` to `double`. -/
def isScalar (e : Encoding) : Bool :=
  decide (Encoding.void.tag ≤ e.tag ∧ e.tag ≤ Encoding.double.tag)

/-! ### The table -/

theorem mem_all (e : Encoding) : e ∈ all := by
  cases e <;> decide

theorem ofTag?_tag (e : Encoding) : ofTag? e.tag = some e := by
  cases e <;> decide

end Encoding

end ObjcMetadata
