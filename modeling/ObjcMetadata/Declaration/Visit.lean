import ObjcMetadata.Declaration.Basic
/-!
Visits of declarations.

Whoever goes over declarations (a printer, a serializer) sees each of them as a short sequence of
visits, always in one order: the declaration as such, then its members if its kind has members, and
then its body. The body is visited exactly once.
-/

namespace ObjcMetadata

/-- One step of the visit of a declaration. -/
inductive Visit where
  | declaration (declaration : Declaration)
  | members (declaration : Declaration) (members : Members)
  | interface (declaration : Declaration) (interface : Interface)
  | protocol (declaration : Declaration) (protocol : Protocol)
  | category (declaration : Declaration) (category : Category)
  | struct (declaration : Declaration) (fields : List RecordField)
  | union (declaration : Declaration) (fields : List RecordField)
  | function (declaration : Declaration) (signature : List TypeId) (flags : FunctionFlags)
  | var (declaration : Declaration) (type : TypeId)
deriving DecidableEq, Repr, Inhabited

namespace Declaration

/-- The visit of the body. -/
def bodyVisit (d : Declaration) : Visit :=
  match d.body with
  | .interface i => .interface d i
  | .protocol p => .protocol d p
  | .category c => .category d c
  | .struct fields => .struct d fields
  | .union fields => .union d fields
  | .function signature flags => .function d signature flags
  | .var type => .var d type

/-- The visits of a declaration, in order. -/
def visits (d : Declaration) : List Visit :=
  .declaration d :: (d.members?.map (Visit.members d)).toList ++ [d.bodyVisit]

end Declaration

end ObjcMetadata
