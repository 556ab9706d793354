import ObjcMetadata.Declaration.Key
import ObjcMetadata.Type.Primitive
/-!
The nodes of the type graph.

A node names its parts by handles into a pool (`ObjcMetadata.Type.Pool`), so types may share parts
and, since a handle is only a number, may even loop. Named records and interfaces do not hold their
contents: they name a declaration, which a node lists among its `references`. Whoever follows a
handle may find nothing there; `TypeError` says what can go wrong with a type.
-/

namespace ObjcMetadata

/-- A handle of a type: its position in a pool. -/
structure TypeId where
  index : Nat
deriving DecidableEq, Repr, Inhabited

/-- What can go wrong with a type. -/
inductive TypeError where
  /-- There is no node with this handle. -/
  | unknownType (id : TypeId)
  /-- The nodes form a loop, so that spelling the type out would never end. -/
  | endlessType
  /-- The primitive kind of this C name has no encoding. -/
  | unmappedType (cName : String)
deriving DecidableEq, Repr, Inhabited

/-- The text of an error. -/
def TypeError.message : TypeError → String
  | .unknownType id => "unknown type " ++ Nat.repr id.index
  | .endlessType => "endless type"
  | .unmappedType cName => "unmapped type `" ++ cName ++ "`: no ABI encoding exists for it"

/-- A named field of a record. -/
structure RecordField where
  name : String
  type : TypeId
deriving DecidableEq, Repr, Inhabited

/-- A node of the type graph. The signature of a block or a function pointer is its return type
followed by its parameters; it may be empty. -/
inductive TypeNode where
  | primitive (kind : Primitive)
  /-- The runtime protocol object `Protocol *`. -/
  | protocol
  /-- The selector type `SEL`. -/
  | selector
  | instancetype
  /-- The C string types `char *` and `unsigned char *`. -/
  | cString
  | unichar
  | vaList
  /-- The type `id`, qualified by protocols. -/
  | object (protocols : List QualifiedName)
  /-- The type `Class`, qualified by protocols. -/
  | classObject (protocols : List QualifiedName)
  /-- A pointer to an instance of a declared interface, qualified by protocols. -/
  | interface (name : QualifiedName) (protocols : List QualifiedName)
  | struct (name : QualifiedName)
  | union (name : QualifiedName)
  | anonymousStruct (fields : List RecordField)
  | anonymousUnion (fields : List RecordField)
  | pointer (pointee : TypeId)
  | constantArray (element : TypeId) (size : Nat)
  | incompleteArray (element : TypeId)
  | block (signature : List TypeId)
  | functionPointer (signature : List TypeId)
deriving DecidableEq, Repr, Inhabited

namespace TypeNode

/-- The direct parts of a node, in order. -/
def children : TypeNode → List TypeId
  | .pointer inner | .constantArray inner _ | .incompleteArray inner => [inner]
  | .block signature | .functionPointer signature => signature
  | .anonymousStruct fields | .anonymousUnion fields => fields.map (·.type)
  | _ => []

/-- The declarations that a node names itself: an interface before its protocols. -/
def references : TypeNode → List DeclKey
  | .object protocols | .classObject protocols => protocols.map (⟨.protocol, ·⟩)
  | .interface name protocols => ⟨.interface, name⟩ :: protocols.map (⟨.protocol, ·⟩)
  | .struct name => [⟨.struct, name⟩]
  | .union name => [⟨.union, name⟩]
  | _ => []

/-- The encoding of a node. Only a primitive kind can lack one. -/
def encoding : TypeNode → Except TypeError Encoding
  | .primitive kind =>
    match kind.encoding? with
    | some encoding => .ok encoding
    | none => .error (.unmappedType kind.cName)
  | .protocol => .ok .protocol
  | .selector => .ok .selector
  | .instancetype => .ok .instancetype
  | .cString => .ok .cString
  | .unichar => .ok .unichar
  | .vaList => .ok .vaList
  | .object _ => .ok .object
  | .classObject _ => .ok .classObject
  | .interface _ _ => .ok .interfaceReference
  | .struct _ => .ok .structReference
  | .union _ => .ok .unionReference
  | .anonymousStruct _ => .ok .anonymousStruct
  | .anonymousUnion _ => .ok .anonymousUnion
  | .pointer _ => .ok .pointer
  | .constantArray _ _ => .ok .constantArray
  | .incompleteArray _ => .ok .incompleteArray
  | .block _ => .ok .block
  | .functionPointer _ => .ok .functionPointer

/-- The nodes that every pool starts with: the primitive kinds, then the kinds without parts. -/
def preinterned : List TypeNode :=
  Primitive.all.map .primitive ++
    [.protocol, .selector, .instancetype, .cString, .unichar, .vaList, .object [], .classObject []]

end TypeNode

namespace TypeId

/-- The number of different handles: a handle has 32 bits. -/
def limit : Nat :=
  4294967296

/-- The handle of a position in a pool. Positions that are too large for a handle begin again with
the first. -/
def ofPosition (position : Nat) : TypeId :=
  ⟨position % limit⟩

/-- A position that a handle can hold is its own handle. -/
theorem ofPosition_eq {position : Nat} (h : position < limit) : ofPosition position = ⟨position⟩ :=
  congrArg TypeId.mk (Nat.mod_eq_of_lt h)

/-- The fixed handle of a primitive kind. -/
def ofPrimitive (kind : Primitive) : TypeId :=
  ⟨Primitive.all.idxOf kind⟩

/-- The fixed handle of `instancetype`. -/
def instancetype : TypeId :=
  ⟨TypeNode.preinterned.idxOf .instancetype⟩

/-- Whether a handle is one of those fixed for every pool. -/
def isPreinterned (id : TypeId) : Bool :=
  decide (id.index < TypeNode.preinterned.length)

end TypeId

end ObjcMetadata
