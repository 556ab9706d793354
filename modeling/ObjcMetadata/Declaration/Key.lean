import ObjcMetadata.Name
/-!
The identity of declarations.

A declaration is identified by its kind and its qualified name. Each kind is a namespace of its
own, so that an interface and a protocol may share a name. Keys are ordered by kind and then by
name.
-/

namespace ObjcMetadata

/-- The kind of a declaration, in the order of kinds. -/
inductive DeclKind where
  | interface
  | protocol
  | category
  | struct
  | union
  | function
  | var
deriving DecidableEq, Repr, Inhabited

namespace DeclKind

/-- Every kind, in order. -/
def all : List DeclKind :=
  [.interface, .protocol, .category, .struct, .union, .function, .var]

/-- The word for a kind. -/
def display : DeclKind → String
  | .interface => "interface"
  | .protocol => "protocol"
  | .category => "category"
  | .struct => "struct"
  | .union => "union"
  | .function => "function"
  | .var => "var"

/-- The place of a kind in the order of kinds. -/
def rank (k : DeclKind) : Nat :=
  all.idxOf k

instance : Ord DeclKind where
  compare a b := compare a.rank b.rank

end DeclKind

/-- What identifies a declaration: its kind and its name. -/
structure DeclKey where
  kind : DeclKind
  name : QualifiedName
deriving DecidableEq, Repr, Inhabited

namespace DeclKey

/-- The written form `kind module.name`. -/
def display (k : DeclKey) : String :=
  k.kind.display ++ " " ++ k.name.display

instance : Ord DeclKey where
  compare a b := (compare a.kind b.kind).then (compare a.name b.name)

/-- The given keys in order. -/
def sort (keys : List DeclKey) : List DeclKey :=
  keys.mergeSort fun a b => (compare a b).isLE

end DeclKey

end ObjcMetadata
