import ObjcMetadata.Declaration.Visit
import ObjcMetadata.Module.Basic
import ObjcMetadata.Type.Declarator
/-!
The readable text of declarations.

A declaration is printed as a header line, followed by one indented line for each member or field.
Class methods come before instance methods, and properties last. Types are spelled as in
`ObjcMetadata.Type.Declarator`, and names are printed without their modules.

The printer goes over visits. Members are visited before the body that has the header, so their
lines wait until the header has been printed.
-/

namespace ObjcMetadata

/-- The text printed so far, and the lines that wait for the next header. -/
structure Printer where
  text : String := ""
  waiting : List String := []
deriving DecidableEq, Repr, Inhabited

namespace Printer

/-! ### Lines -/

/-- The spelled types of a list of handles. -/
def spellings (pool : Pool) (types : List TypeId) : Except TypeError (List String) :=
  types.mapM pool.spelling

/-- The spelled return type of a signature: `void` if it has none. -/
def resultText (pool : Pool) (signature : List TypeId) : Except TypeError String :=
  match signature with
  | [] => .ok "void"
  | result :: _ => pool.spelling result

/-- The line of a method. The sign says whether it is a class method. -/
def methodLine (pool : Pool) (sign : String) (m : Method) : Except TypeError String := do
  let result ← resultText pool m.signature
  let params ← spellings pool m.params
  let params := if m.flags.variadic then params ++ ["..."] else params
  let ending := if m.flags.optional then " @optional" else ""
  return sign ++ " (" ++ result ++ ") " ++ m.selector ++ "(" ++ ", ".intercalate params ++ ")" ++
    ending

/-- The attributes that a property is printed with. -/
def attributes (p : Property) : List String :=
  (if p.flags.ofClass then ["class"] else []) ++ (if p.flags.readonly then ["readonly"] else [])

/-- The line of a property. -/
def propertyLine (pool : Pool) (p : Property) : Except TypeError String := do
  let declared ← pool.declare p.type p.name true
  let attributes := attributes p
  return if attributes.isEmpty then "@property " ++ declared
    else "@property (" ++ ", ".intercalate attributes ++ ") " ++ declared

/-- The lines of members. -/
def memberLines (pool : Pool) (m : Members) : Except TypeError (List String) := do
  let classMethods ← m.classMethods.mapM (methodLine pool "+")
  let instanceMethods ← m.instanceMethods.mapM (methodLine pool "-")
  let properties ← m.properties.mapM (propertyLine pool)
  return classMethods ++ instanceMethods ++ properties

/-- The lines of the fields of a record. -/
def fieldLines (pool : Pool) (fields : List RecordField) : Except TypeError (List String) :=
  fields.mapM fun field => (pool.declare field.type field.name true).map (· ++ ";")

/-! ### Headers -/

/-- The protocols after a name, if there are any. -/
def protocolSuffix (protocols : List QualifiedName) : String :=
  if protocols.isEmpty then "" else " <" ++ Declarator.protocolNames protocols ++ ">"

/-- The base after the name of an interface, if it has one. -/
def baseSuffix : Option QualifiedName → String
  | none => ""
  | some base => " : " ++ base.name

/-- The header of a function. -/
def functionHeader (pool : Pool) (name : String) (signature : List TypeId) :
    Except TypeError String := do
  let result ← resultText pool signature
  let params ← spellings pool signature.tail
  return "FUNCTION_DECLARATION: " ++ result ++ " " ++ name ++ "(" ++ Declarator.parameters params ++
    ")"

/-! ### Printing -/

/-- Prints a header and then the lines that wait for it. -/
def header (p : Printer) (line : String) : Printer where
  text := p.text ++ line ++ "\n" ++ String.join (p.waiting.map fun line => "  " ++ line ++ "\n")
  waiting := []

/-- Goes over one visit. -/
def step (pool : Pool) (p : Printer) : Visit → Except TypeError Printer
  | .declaration _ => .ok p
  | .members _ members => do
    return { p with waiting := ← memberLines pool members }
  | .interface d i =>
    .ok (p.header ("INTERFACE_DECLARATION: " ++ d.name.name ++ baseSuffix i.base ++
      protocolSuffix i.protocols))
  | .protocol d protocol =>
    .ok (p.header ("PROTOCOL_DECLARATION: " ++ d.name.name ++ protocolSuffix protocol.protocols))
  | .category d c =>
    .ok (p.header ("CATEGORY_DECLARATION: " ++ c.extended.name ++ " (" ++ d.name.name ++ ")" ++
      protocolSuffix c.protocols))
  | .struct d fields => do
    let lines ← fieldLines pool fields
    return { p with waiting := lines }.header ("STRUCT_DECLARATION: " ++ d.name.name)
  | .union d fields => do
    let lines ← fieldLines pool fields
    return { p with waiting := lines }.header ("UNION_DECLARATION: " ++ d.name.name)
  | .function d signature _ => do
    return p.header (← functionHeader pool d.name.name signature)
  | .var d type => do
    return p.header ("VAR_DECLARATION: " ++ (← pool.declare type d.name.name true))

/-- Prints a declaration. -/
def print (pool : Pool) (p : Printer) (d : Declaration) : Except TypeError Printer :=
  d.visits.foldlM (step pool) p

/-- Prints declarations in order. -/
def printAll (pool : Pool) (p : Printer) (declarations : List Declaration) :
    Except TypeError Printer :=
  declarations.foldlM (print pool) p

end Printer

/-! ### Whole texts -/

/-- The text of one declaration. -/
def renderDeclaration (pool : Pool) (d : Declaration) : Except TypeError String :=
  (Printer.print pool {} d).map (·.text)

/-- The text of declarations, one after the other. -/
def renderDeclarations (pool : Pool) (declarations : List Declaration) : Except TypeError String :=
  (Printer.printAll pool {} declarations).map (·.text)

/-- The text of a final module. -/
def FinalModule.render (pool : Pool) (m : FinalModule) : Except TypeError String :=
  renderDeclarations pool m.declarations

end ObjcMetadata
