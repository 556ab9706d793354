import ObjcMetadata.Type.Basic
/-!
The pool that owns the nodes of one type graph.

A pool keeps its nodes in the order in which they were added, and beside them a table with the
handle that each node was given. Interning a node gives the handle of an equal node if the table has
one and otherwise adds the node at the end, so that equal types have equal handles and old handles
keep their nodes. Interning does not check the handles inside a node: a pool may name nodes that it
does not have, and its nodes may form loops. Following a handle to a node that is not there is a
`TypeError`.
-/

namespace ObjcMetadata

/-- The owner of the nodes of a type graph. A handle is a position among the nodes. -/
structure Pool where
  nodes : Array TypeNode := #[]
  /-- The handle that each node was given, the node that was added last first. -/
  handles : List (TypeNode × TypeId) := []
deriving DecidableEq, Repr

namespace Pool

/-! ### Nodes and handles -/

/-- The number of nodes. -/
def size (pool : Pool) : Nat :=
  pool.nodes.size

/-- Whether the pool has no nodes at all. -/
def isEmpty (pool : Pool) : Bool :=
  pool.nodes.isEmpty

/-- The node of a handle, if there is one. -/
def node? (pool : Pool) (id : TypeId) : Option TypeNode :=
  pool.nodes[id.index]?

/-- The node of a handle. -/
def node (pool : Pool) (id : TypeId) : Except TypeError TypeNode :=
  match pool.node? id with
  | some node => .ok node
  | none => .error (.unknownType id)

/-- Whether a handle has a node. -/
def contains (pool : Pool) (id : TypeId) : Bool :=
  decide (id.index < pool.size)

/-! ### Interning -/

/-- Adds a node at the end. Its handle is that of its position. -/
def push (pool : Pool) (node : TypeNode) : TypeId × Pool :=
  let id := TypeId.ofPosition pool.size
  (id, ⟨pool.nodes.push node, (node, id) :: pool.handles⟩)

/-- The pool that holds just the nodes with fixed handles. -/
def initial : Pool :=
  TypeNode.preinterned.foldl (fun pool node => (pool.push node).2) {}

instance : Inhabited Pool :=
  ⟨initial⟩

/-- The handle that an equal node was given. -/
def find? (pool : Pool) (node : TypeNode) : Option TypeId :=
  pool.handles.lookup node

/-- The handle of a node, and the pool that has it. The node is added only if no equal one has a
handle. -/
def intern (pool : Pool) (node : TypeNode) : TypeId × Pool :=
  match pool.find? node with
  | some id => (id, pool)
  | none => pool.push node

theorem intern_of_find?_eq_some {pool : Pool} {node : TypeNode} {id : TypeId}
    (h : pool.find? node = some id) : pool.intern node = (id, pool) := by
  simp [intern, h]

theorem intern_of_find?_eq_none {pool : Pool} {node : TypeNode} (h : pool.find? node = none) :
    pool.intern node = pool.push node := by
  simp [intern, h]

/-- Interns nodes one after the other. -/
def internAll (pool : Pool) (nodes : List TypeNode) : Pool :=
  nodes.foldl (fun p node => (p.intern node).2) pool

/-! ### Queries -/

/-- The direct parts of the node of a handle. -/
def children (pool : Pool) (id : TypeId) : Except TypeError (List TypeId) :=
  (pool.node id).map TypeNode.children

/-- The declarations that the node of a handle names itself. -/
def references (pool : Pool) (id : TypeId) : Except TypeError (List DeclKey) :=
  (pool.node id).map TypeNode.references

/-- The encoding of the node of a handle. -/
def encoding (pool : Pool) (id : TypeId) : Except TypeError Encoding :=
  (pool.node id).bind TypeNode.encoding

end Pool

end ObjcMetadata
