import ObjcMetadata.Type.Pool
/-!
The canonical C spelling of types.

A type is spelled as the declaration of an identifier, which may be empty. The spelling proceeds
from the outside of the type inwards and grows the declarator around the identifier, the way a C
declaration is read: a pointer puts a star in front of it, an array or a function puts a suffix
behind it. Suffixes bind tighter than a star, so a declarator that a pointer has grown is put into
parentheses before it takes an array suffix (`int (*p)[3]`), while a bare identifier is not.

A type whose nodes form a loop has no spelling. Such a loop passes through more levels than the pool
has nodes, and that many levels is what the spelling allows for.
-/

namespace ObjcMetadata

namespace Declarator

/-! ### Pieces of a spelling -/

/-- A type token, followed by the declarator if there is one. -/
def spell (token declarator : String) : String :=
  if declarator = "" then token else token ++ " " ++ declarator

/-- The declarator as an array suffix needs it: in parentheses, unless it is the bare identifier or
empty. -/
def enclose (declarator : String) (bare : Bool) : String :=
  if bare ∨ declarator = "" then declarator else "(" ++ declarator ++ ")"

/-- The names of protocols, without their modules, separated by commas. -/
def protocolNames (protocols : List QualifiedName) : String :=
  ", ".intercalate (protocols.map (·.name))

/-- A type name with the protocols that qualify it, if any. -/
def qualified (base : String) (protocols : List QualifiedName) : String :=
  if protocols.isEmpty then base else base ++ "<" ++ protocolNames protocols ++ ">"

/-- A parameter list: `void` if there are no parameters. -/
def parameters (params : List String) : String :=
  if params.isEmpty then "void" else ", ".intercalate params

/-- A record without a name: its keyword and its field declarations. -/
def anonymousRecord (keyword : String) (fields : List String) : String :=
  keyword ++ " \x7b" ++ String.join (fields.map fun field => " " ++ field ++ ";") ++ " \x7d"

/-- The declarator of something callable: the marker says whether it is a block or a function
pointer. -/
def callable (marker declarator params : String) : String :=
  "(" ++ marker ++ declarator ++ ")(" ++ params ++ ")"

/-! ### Spelling a type -/

/-- Spells the type of a handle around a declarator. `bare` says that the declarator is the
identifier itself or ends in a suffix, and so needs no parentheses. A callable type without a return
type is spelled as if it returned `void`. -/
def render (pool : Pool) : (levels : Nat) → TypeId → (declarator : String) → (bare : Bool) →
    Except TypeError String
  | 0, _, _, _ => .error .endlessType
  | levels + 1, id, declarator, bare => do
    match ← pool.node id with
    | .primitive kind => return spell kind.cName declarator
    | .protocol => return spell "Protocol" declarator
    | .selector => return spell "SEL" declarator
    | .instancetype => return spell "instancetype" declarator
    | .cString => return spell "char" ("*" ++ declarator)
    | .unichar => return spell "unichar" declarator
    | .vaList => return spell "va_list" declarator
    | .object protocols => return spell (qualified "id" protocols) declarator
    | .classObject protocols => return spell (qualified "Class" protocols) declarator
    | .interface name protocols => return spell (qualified name.name protocols) ("*" ++ declarator)
    | .struct name => return spell ("struct " ++ name.name) declarator
    | .union name => return spell ("union " ++ name.name) declarator
    | .anonymousStruct fields =>
      let lines ← fields.mapM fun field => render pool levels field.type field.name true
      return spell (anonymousRecord "struct" lines) declarator
    | .anonymousUnion fields =>
      let lines ← fields.mapM fun field => render pool levels field.type field.name true
      return spell (anonymousRecord "union" lines) declarator
    | .pointer pointee => render pool levels pointee ("*" ++ declarator) false
    | .constantArray element size =>
      render pool levels element (enclose declarator bare ++ "[" ++ Nat.repr size ++ "]") true
    | .incompleteArray element => render pool levels element (enclose declarator bare ++ "[]") true
    | .block [] => return spell "void" (callable "^" declarator "void")
    | .functionPointer [] => return spell "void" (callable "*" declarator "void")
    | .block (result :: params) =>
      let texts ← params.mapM fun param => render pool levels param "" true
      render pool levels result (callable "^" declarator (parameters texts)) true
    | .functionPointer (result :: params) =>
      let texts ← params.mapM fun param => render pool levels param "" true
      render pool levels result (callable "*" declarator (parameters texts)) true

end Declarator

/-- The C declaration of an identifier with the type of a handle. `bare` is false if the identifier
is itself a declarator that needs parentheses before an array suffix. -/
def Pool.declare (pool : Pool) (id : TypeId) (identifier : String) (bare : Bool) :
    Except TypeError String :=
  Declarator.render pool (pool.size + 1) id identifier bare

/-- The spelling of the type of a handle by itself. -/
def Pool.spelling (pool : Pool) (id : TypeId) : Except TypeError String :=
  pool.declare id "" true

end ObjcMetadata
