import ObjcMetadata.Graph.Reach
import ObjcMetadata.Type.Pool
/-!
Two ways through the type graph below a handle.

`Pool.walk` lists a node and all below it in pre-order, a shared node once per occurrence. It keeps
a stack of pending handles, each with the number of levels that may still lie below: a path of more
levels than the pool has nodes runs around a loop, so that pool has no such list, and the walk says
so. `Pool.reachable` gathers the set of the nodes below several handles, loops or not.
-/

namespace ObjcMetadata.Pool

/-! ### Pre-order -/

/-- The largest number of parts that a node of the pool has. -/
def maxArity (pool : Pool) : Nat :=
  (pool.nodes.toList.map fun node => node.children.length).foldr max 0

/-- A bound on the number of nodes that a handle stands for if each node has at most `arity` parts
and at most `levels` levels lie below: the power of `arity + 1`. -/
def levelWeight (arity : Nat) : (levels : Nat) → Nat
  | 0 => 1
  | levels + 1 => (arity + 1) * levelWeight arity levels

/-- A bound on the number of nodes that the pending handles stand for. -/
def stackWeight (arity : Nat) : List (TypeId × Nat) → Nat
  | [] => 0
  | (_, levels) :: rest => levelWeight arity levels + stackWeight arity rest

theorem le_foldr_max {n : Nat} {ns : List Nat} (h : n ∈ ns) : n ≤ ns.foldr max 0 := by
  induction ns with
  | nil => simp at h
  | cons m ms ih =>
    rcases List.mem_cons.1 h with rfl | h
    · exact Nat.le_max_left _ _
    · exact Nat.le_trans (ih h) (Nat.le_max_right _ _)

theorem length_children_le_maxArity {pool : Pool} {id : TypeId} {parts : List TypeId}
    (h : pool.children id = .ok parts) : parts.length ≤ pool.maxArity := by
  unfold children node at h
  split at h
  · next node hnode =>
    simp only [Except.map, Except.ok.injEq] at h
    subst h
    apply le_foldr_max
    apply List.mem_map.2
    exact ⟨node, Array.mem_toList_iff.2 (Array.mem_of_getElem? hnode), rfl⟩
  · simp [Except.map] at h

theorem levelWeight_pos (arity levels : Nat) : 0 < levelWeight arity levels := by
  induction levels with
  | zero => exact Nat.one_pos
  | succ levels ih => exact Nat.mul_pos (Nat.succ_pos arity) ih

theorem stackWeight_append (arity : Nat) (s t : List (TypeId × Nat)) :
    stackWeight arity (s ++ t) = stackWeight arity s + stackWeight arity t := by
  induction s with
  | nil => simp [stackWeight]
  | cons entry s ih => simp [stackWeight, ih, Nat.add_assoc]

theorem stackWeight_parts (arity levels : Nat) (parts : List TypeId) :
    stackWeight arity (parts.map (·, levels)) = parts.length * levelWeight arity levels := by
  induction parts with
  | nil => simp [stackWeight]
  | cons p ps ih =>
    simp only [stackWeight, List.map_cons, List.length_cons]
    rw [ih, Nat.add_mul, Nat.one_mul, Nat.add_comm]

/-- Putting the parts of a node in its place, one level down, makes the stack lighter. -/
theorem stackWeight_expand_lt {pool : Pool} {id : TypeId} {parts : List TypeId}
    (h : pool.children id = .ok parts) (levels : Nat) (rest : List (TypeId × Nat)) :
    stackWeight pool.maxArity (parts.map (·, levels) ++ rest) <
      stackWeight pool.maxArity ((id, levels + 1) :: rest) := by
  have hpos := levelWeight_pos pool.maxArity levels
  have hle : parts.length * levelWeight pool.maxArity levels ≤
      pool.maxArity * levelWeight pool.maxArity levels :=
    Nat.mul_le_mul_right _ (length_children_le_maxArity h)
  rw [stackWeight_append, stackWeight_parts]
  simp only [stackWeight, levelWeight, Nat.add_mul, Nat.one_mul]
  omega

/-- The handles below the pending ones, in pre-order: the topmost is listed, and its parts take its
place on the stack. -/
def walkFrom (pool : Pool) : List (TypeId × Nat) → Except TypeError (List TypeId)
  | [] => .ok []
  | (_, 0) :: _ => .error .endlessType
  | (id, levels + 1) :: rest =>
    match _h : pool.children id with
    | .error e => .error e
    | .ok parts =>
      match walkFrom pool (parts.map (·, levels) ++ rest) with
      | .error e => .error e
      | .ok below => .ok (id :: below)
termination_by stack => stackWeight pool.maxArity stack
decreasing_by exact stackWeight_expand_lt _h levels rest

/-- The handle and all below it, in pre-order and once per occurrence. -/
def walk (pool : Pool) (root : TypeId) : Except TypeError (List TypeId) :=
  pool.walkFrom [(root, pool.size + 1)]

/-! ### Reachable sets -/

/-- The parts of a node, and nothing where there is no node. -/
def successors (pool : Pool) (id : TypeId) : List TypeId :=
  match pool.node? id with
  | some node => node.children
  | none => []

/-- Adds to `seen` a handle and all below it. What is in `seen` is not followed again, which is
right when `seen` already holds all that lies below its members. -/
def addReachable (pool : Pool) (seen : List TypeId) (root : TypeId) :
    Except TypeError (List TypeId) :=
  let found := Reach.extend pool.successors (pool.size + 1) seen [root]
  match found.find? fun id => !pool.contains id with
  | some id => .error (.unknownType id)
  | none => .ok found

/-- The given handles and all below them, each once. -/
def reachable (pool : Pool) (roots : List TypeId) : Except TypeError (List TypeId) :=
  roots.foldlM pool.addReachable []

end ObjcMetadata.Pool
