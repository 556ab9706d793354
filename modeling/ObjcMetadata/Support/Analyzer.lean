import ObjcMetadata.Declaration.Lookup
import ObjcMetadata.Support.Search
import ObjcMetadata.Type.Pool
/-!
Support of types and declarations.

Metadata can represent a type if it is built from supported primitive kinds and from declarations
that can be found and are represented themselves. Types and declarations thus form one graph: a
composite type needs its parts, a named type the declaration that it names (the protocols that
qualify it do not matter), an interface its base, a category the interface that it extends, and a
record, function or variable the types that it names. The members of an interface, protocol or
category do not count towards the declaration; they are judged one by one.

An `Analyzer` answers queries about one graph and keeps what it has found out.
-/

namespace ObjcMetadata.Support

/-! ### The graph -/

/-- A node of the graph of types and declarations. -/
inductive Node where
  | type (id : TypeId)
  | decl (key : DeclKey)
deriving DecidableEq, Repr, Inhabited

/-- The types and the declarations that support is judged over. -/
structure Graph where
  pool : Pool
  lookup : Lookup

/-- What a type needs. An unsupported primitive kind is unsupported by itself. -/
def typeDemand : TypeNode → Option (List Node)
  | .primitive kind => if kind.isSupported then some [] else none
  | .interface name _ => some [.decl ⟨.interface, name⟩]
  | .struct name => some [.decl ⟨.struct, name⟩]
  | .union name => some [.decl ⟨.union, name⟩]
  | node => some (node.children.map .type)

/-- What a declaration needs. -/
def declDemand (d : Declaration) : List Node :=
  match d.body with
  | .interface i => i.base.toList.map fun base => .decl ⟨.interface, base⟩
  | .category c => [.decl ⟨.interface, c.extended⟩]
  | .protocol _ => []
  | .struct fields | .union fields => fields.map fun field => .type field.type
  | .function signature _ => signature.map .type
  | .var type => [.type type]

@[simp] theorem declDemand_withMembers (d : Declaration) (members : Members) :
    declDemand (d.withMembers members) = declDemand d := by
  obtain ⟨name, body⟩ := d
  cases body <;> rfl

theorem declDemand_of_interface {d : Declaration} (h : d.kind = .interface) :
    declDemand d = d.base?.toList.map fun base => .decl ⟨.interface, base⟩ := by
  obtain ⟨name, body⟩ := d
  cases body <;> first | rfl | cases h

namespace Graph

/-- What a node needs. A key that does not resolve is unsupported by itself. -/
def demand (g : Graph) : Node → Except TypeError (Option (List Node))
  | .type id => (g.pool.node id).map typeDemand
  | .decl key => .ok ((g.lookup.find? key).map declDemand)

/-- More levels than there can be open nodes: those with needs are nodes of the pool and keys of the
lookup, and below them are one node without needs or one that is open already. -/
def levels (g : Graph) : Nat :=
  g.pool.size + g.lookup.keys.length + 2

/-- The graph in which a declaration stands for its own key. -/
def overriding (g : Graph) (d : Declaration) : Graph :=
  { g with lookup := g.lookup.overriding d }

end Graph

/-! ### Queries -/

/-- A graph and what has been found out about it. -/
structure Analyzer where
  graph : Graph
  marks : Marks Node := []

/-- The answer to a query, and the analyzer after it. -/
abbrev Answer (α : Type) := Except TypeError (α × Analyzer)

namespace Analyzer

/-- Judges a node of a graph, starting from the marks of the analyzer. -/
def judgeIn (a : Analyzer) (g : Graph) (node : Node) : Answer Bool :=
  match visit g.demand g.levels 0 node a.marks with
  | .error e => .error e
  | .ok visited => .ok (visited.verdict.isSupported, { a with marks := visited.marks })

/-- Whether a type is supported. -/
def judgeType (a : Analyzer) (id : TypeId) : Answer Bool :=
  a.judgeIn a.graph (.type id)

/-- Whether the declaration of a key is supported. -/
def judgeKey (a : Analyzer) (key : DeclKey) : Answer Bool :=
  a.judgeIn a.graph (.decl key)

/-- Whether a declaration is supported, which need not be known to the lookup. -/
def judgeDecl (a : Analyzer) (d : Declaration) : Answer Bool :=
  a.judgeIn (a.graph.overriding d) (.decl d.key)

/-- Whether a query has the answer yes for all elements. It stops at the first no. -/
def judgeAll {α : Type} (judge : Analyzer → α → Answer Bool) (a : Analyzer) : List α → Answer Bool
  | [] => .ok (true, a)
  | x :: rest =>
    match judge a x with
    | .error e => .error e
    | .ok (false, a) => .ok (false, a)
    | .ok (true, a) => judgeAll judge a rest

/-- The elements for which a query has the answer yes, in order. -/
def select {α : Type} (judge : Analyzer → α → Answer Bool) (a : Analyzer) :
    List α → Answer (List α)
  | [] => .ok ([], a)
  | x :: rest =>
    match judge a x with
    | .error e => .error e
    | .ok (keep, a) =>
      match select judge a rest with
      | .error e => .error e
      | .ok (kept, a) => .ok (if keep then x :: kept else kept, a)

/-- Whether a method is supported: it has a return type, and all types of its signature are. -/
def judgeMethod (a : Analyzer) (m : Method) : Answer Bool :=
  if m.signature.isEmpty then .ok (false, a) else judgeAll judgeType a m.signature

/-- Whether a property is supported: its type is, and so are its accessors. -/
def judgeProperty (a : Analyzer) (p : Property) : Answer Bool :=
  match a.judgeType p.type with
  | .error e => .error e
  | .ok (false, a) => .ok (false, a)
  | .ok (true, a) => judgeAll judgeMethod a p.accessors

/-- The members that are supported. -/
def selectMembers (a : Analyzer) (m : Members) : Answer Members :=
  match select judgeMethod a m.instanceMethods with
  | .error e => .error e
  | .ok (instanceMethods, a) =>
    match select judgeMethod a m.classMethods with
    | .error e => .error e
    | .ok (classMethods, a) =>
      match select judgeProperty a m.properties with
      | .error e => .error e
      | .ok (properties, a) => .ok (⟨instanceMethods, classMethods, properties⟩, a)

/-- The settled verdict on a type. -/
def knownType (a : Analyzer) (id : TypeId) : Option Bool :=
  a.marks.settled? (.type id)

/-- The settled verdict on the declaration of a key. -/
def knownKey (a : Analyzer) (key : DeclKey) : Option Bool :=
  a.marks.settled? (.decl key)

end Analyzer

/-! ### Single questions -/

/-- Whether a type is supported, with nothing known before. -/
def isTypeSupported (g : Graph) (id : TypeId) : Except TypeError Bool :=
  (Analyzer.judgeType { graph := g } id).map (·.1)

/-- Whether a declaration is supported, with nothing known before. -/
def isDeclSupported (g : Graph) (d : Declaration) : Except TypeError Bool :=
  (Analyzer.judgeDecl { graph := g } d).map (·.1)

end ObjcMetadata.Support
