import ObjcMetadata.Declaration.Lookup
import ObjcMetadata.Module.Error
/-!
Modules.

A `Module` is open: its declarations, in order, may still be changed, and a key may occur in it more
than once. A `FinalModule` is closed: its declarations are the entries of a table, which
`Module.finalize` makes if no key is repeated.
-/

namespace ObjcMetadata

/-- An open module. -/
structure Module where
  name : String
  declarations : List Declaration := []
  errors : List DeclError := []
deriving DecidableEq, Repr, Inhabited

namespace Module

/-- The number of declarations. -/
def size (m : Module) : Nat :=
  m.declarations.length

/-- Whether there are no declarations. -/
def isEmpty (m : Module) : Bool :=
  m.declarations.isEmpty

/-- The keys of the declarations, in order. -/
def keys (m : Module) : List DeclKey :=
  m.declarations.map Declaration.key

/-- Adds a declaration at the end. -/
def push (m : Module) (d : Declaration) : Module :=
  { m with declarations := m.declarations ++ [d] }

/-- Notes a problem of a declaration. -/
def report (m : Module) (e : DeclError) : Module :=
  { m with errors := m.errors ++ [e] }

/-- The first declaration of a key. -/
def get? (m : Module) (key : DeclKey) : Option Declaration :=
  m.declarations.find? fun d => d.kind == key.kind && d.name == key.name

/-- The declarations by key. -/
def index (m : Module) : DeclTable :=
  DeclTable.ofList m.declarations

end Module

/-- A closed module, whose declarations have distinct keys. -/
structure FinalModule where
  name : String
  table : DeclTable
  errors : List DeclError
deriving DecidableEq, Repr, Inhabited

/-- Closes a module. The first declaration whose key occurs before it prevents that. -/
def Module.finalize (m : Module) : Except ModuleError FinalModule :=
  match DeclTable.empty.insertDistinct m.declarations with
  | .ok table => .ok ⟨m.name, table, m.errors⟩
  | .error key => .error (.duplicateDeclaration m.name key)

theorem Module.finalize_of_nodup {m : Module} (h : (m.declarations.map Declaration.key).Nodup) :
    m.finalize = .ok ⟨m.name, ⟨m.declarations⟩, m.errors⟩ := by
  have htable :=
    DeclTable.insertDistinct_of_nodup (t := .empty) (by simpa [DeclTable.empty] using h)
  unfold finalize
  rw [htable]
  simp [DeclTable.empty]

namespace FinalModule

/-- The declarations, in order. -/
def declarations (m : FinalModule) : List Declaration :=
  m.table.entries

/-- The number of declarations. -/
def size (m : FinalModule) : Nat :=
  m.table.size

/-- Whether there are no declarations. -/
def isEmpty (m : FinalModule) : Bool :=
  m.table.isEmpty

/-- The declaration of a key. -/
def get? (m : FinalModule) (key : DeclKey) : Option Declaration :=
  m.table.get? key

/-- The lookup among the declarations. -/
def toLookup (m : FinalModule) : Lookup :=
  m.table.toLookup

end FinalModule

end ObjcMetadata
