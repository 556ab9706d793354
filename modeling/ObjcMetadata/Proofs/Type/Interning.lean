import Mathlib.Data.List.Nodup
import Mathlib.Logic.Relation
import ObjcMetadata.Type.Traversal
/-!
Histories of a pool.

The nodes of a pool and its table of handles say the same as long as nodes are only interned
(`Indexed.internAll`): the table leads from each node to its position, and no node is there twice.
Nodes are never moved or changed (`node?_internAll`), and if only nodes are interned whose parts are
there already, the parts of every node come before it (`Descending.internAll`). What this means for
the pool of an arbitrary history is `ofHistory_canonical`. A handle has 32 bits, so a new node gets
the old size as its handle only as long as the pool has fewer nodes than there are handles; after
that the handles begin again at the first (`ofHistory_chain_wraps`).
-/

namespace ObjcMetadata.Pool

open Relation

variable {pool : Pool} {node : TypeNode} {id : TypeId}

/-! ### Adding a node -/

@[simp]
theorem size_push (pool : Pool) (node : TypeNode) : (pool.push node).2.size = pool.size + 1 :=
  Array.size_push node

theorem getElem?_push (pool : Pool) (node : TypeNode) (position : Nat) :
    (pool.push node).2.nodes[position]? =
      if position = pool.size then some node else pool.nodes[position]? :=
  Array.getElem?_push

theorem find?_push (pool : Pool) (node other : TypeNode) :
    (pool.push node).2.find? other =
      if other = node then some (.ofPosition pool.size) else pool.find? other := by
  simp only [push, find?, List.lookup_cons]
  by_cases heq : other = node
  · simp [heq]
  · have hne : (other == node) = false := beq_eq_false_iff_ne.mpr heq
    simp [heq, hne]

/-- A node that was there is kept. -/
theorem getElem?_push_of_eq_some {position : Nat} {other : TypeNode}
    (h : pool.nodes[position]? = some other) :
    (pool.push node).2.nodes[position]? = some other := by
  have hlt : position < pool.size := (Array.getElem?_eq_some_iff.mp h).1
  rw [getElem?_push, if_neg (Nat.ne_of_lt hlt), h]

/-! ### The table of handles -/

/-- The table of handles leads from each node to its position, and no node is there twice. -/
structure Indexed (pool : Pool) : Prop where
  nodup : pool.nodes.toList.Nodup
  find?_eq_some_iff : ∀ node id,
    pool.find? node = some id ↔
      ∃ position, pool.nodes[position]? = some node ∧ id = .ofPosition position

theorem Indexed.find?_eq_none_iff (h : pool.Indexed) :
    pool.find? node = none ↔ node ∉ pool.nodes := by
  rw [Option.eq_none_iff_forall_ne_some, Array.mem_iff_getElem?]
  constructor
  · rintro hnone ⟨position, hposition⟩
    exact hnone _ ((h.find?_eq_some_iff node _).mpr ⟨position, hposition, rfl⟩)
  · intro hnew id hfind
    obtain ⟨position, hposition, -⟩ := (h.find?_eq_some_iff node id).mp hfind
    exact hnew ⟨position, hposition⟩

theorem Indexed.intern_of_mem (h : pool.Indexed) {position : Nat}
    (hnode : pool.nodes[position]? = some node) :
    pool.intern node = (.ofPosition position, pool) :=
  intern_of_find?_eq_some ((h.find?_eq_some_iff node _).mpr ⟨position, hnode, rfl⟩)

theorem Indexed.intern_of_not_mem (h : pool.Indexed) (hnew : node ∉ pool.nodes) :
    pool.intern node = pool.push node :=
  intern_of_find?_eq_none (h.find?_eq_none_iff.mpr hnew)

/-- What interning does to a pool: nothing, or it adds a new node. -/
theorem Indexed.intern_cases (h : pool.Indexed) (node : TypeNode) :
    (∃ position, pool.nodes[position]? = some node ∧
      pool.intern node = (.ofPosition position, pool)) ∨
    node ∉ pool.nodes ∧ pool.intern node = pool.push node := by
  by_cases hmem : node ∈ pool.nodes
  · obtain ⟨position, hposition⟩ := Array.mem_iff_getElem?.mp hmem
    exact .inl ⟨position, hposition, h.intern_of_mem hposition⟩
  · exact .inr ⟨hmem, h.intern_of_not_mem hmem⟩

theorem Indexed.push (h : pool.Indexed) (hnew : node ∉ pool.nodes) :
    (pool.push node).2.Indexed where
  nodup := by
    simp only [Pool.push, Array.toList_push]
    refine h.nodup.append (List.nodup_singleton node) ?_
    rw [List.disjoint_singleton]
    exact fun hmem => hnew (Array.mem_toList_iff.mp hmem)
  find?_eq_some_iff := by
    intro other id
    simp only [find?_push]
    split
    · next heq =>
      subst heq
      constructor
      · intro hid
        exact ⟨pool.size, by rw [getElem?_push, if_pos rfl], (Option.some.inj hid).symm⟩
      · rintro ⟨position, hposition, rfl⟩
        rw [getElem?_push] at hposition
        split at hposition
        · next hsize => rw [hsize]
        · exact absurd (Array.mem_of_getElem? hposition) hnew
    · next hne =>
      rw [h.find?_eq_some_iff]
      constructor
      · rintro ⟨position, hposition, hid⟩
        exact ⟨position, getElem?_push_of_eq_some hposition, hid⟩
      · rintro ⟨position, hposition, hid⟩
        rw [getElem?_push] at hposition
        split at hposition
        · exact absurd (Option.some.inj hposition).symm hne
        · exact ⟨position, hposition, hid⟩

theorem indexed_empty : ({} : Pool).Indexed where
  nodup := List.nodup_nil
  find?_eq_some_iff := by simp [find?]

theorem Indexed.intern (h : pool.Indexed) (node : TypeNode) : (pool.intern node).2.Indexed := by
  rcases h.intern_cases node with ⟨position, -, hintern⟩ | ⟨hnew, hintern⟩
  · rwa [hintern]
  · rw [hintern]
    exact h.push hnew

/-- **The table of handles stays right** while nodes are interned. -/
theorem Indexed.internAll (h : pool.Indexed) (nodes : List TypeNode) :
    (pool.internAll nodes).Indexed := by
  induction nodes generalizing pool with
  | nil => exact h
  | cons node rest ih => exact ih (h.intern node)

/-- Nodes that are new and distinct are added in their order. -/
theorem Indexed.toList_internAll (h : pool.Indexed) {nodes : List TypeNode} (hnodup : nodes.Nodup)
    (hnew : ∀ node ∈ nodes, node ∉ pool.nodes) :
    (pool.internAll nodes).nodes.toList = pool.nodes.toList ++ nodes := by
  induction nodes generalizing pool with
  | nil => exact (List.append_nil _).symm
  | cons node rest ih =>
    obtain ⟨hnode, hrest⟩ := List.nodup_cons.mp hnodup
    have hfirst := hnew node List.mem_cons_self
    have hlater : ∀ other ∈ rest, other ∉ (pool.push node).2.nodes := by
      intro other hother hmem
      rcases Array.mem_push.mp hmem with hmem | rfl
      · exact hnew other (List.mem_cons_of_mem node hother) hmem
      · exact hnode hother
    calc (pool.internAll (node :: rest)).nodes.toList
        = ((pool.push node).2.internAll rest).nodes.toList := by
          rw [Pool.internAll, List.foldl_cons, h.intern_of_not_mem hfirst, ← Pool.internAll]
      _ = (pool.push node).2.nodes.toList ++ rest := ih (h.push hfirst) hrest hlater
      _ = pool.nodes.toList ++ node :: rest := by
          simp only [Pool.push, Array.toList_push, List.append_assoc, List.singleton_append]

theorem size_intern_le (pool : Pool) (node : TypeNode) :
    (pool.intern node).2.size ≤ pool.size + 1 := by
  unfold Pool.intern
  split
  · exact Nat.le_succ pool.size
  · exact Nat.le_of_eq (size_push pool node)

/-- Each node that is interned adds one node at most. -/
theorem size_internAll_le (pool : Pool) (nodes : List TypeNode) :
    (pool.internAll nodes).size ≤ nodes.length + pool.size := by
  induction nodes generalizing pool with
  | nil => exact Nat.le_of_eq (Nat.zero_add pool.size).symm
  | cons node rest ih =>
    have hrest := ih (pool.intern node).2
    have hfirst := size_intern_le pool node
    rw [List.length_cons]
    exact Nat.le_trans hrest (by omega)

/-! ### Nodes are kept -/

theorem node?_intern {other : TypeNode} (h : pool.node? id = some node) :
    (pool.intern other).2.node? id = some node := by
  unfold Pool.intern
  split
  · exact h
  · exact getElem?_push_of_eq_some h

/-- A handle keeps its node, whatever is interned later. -/
theorem node?_internAll (h : pool.node? id = some node) (later : List TypeNode) :
    (pool.internAll later).node? id = some node := by
  induction later generalizing pool with
  | nil => exact h
  | cons other rest ih => exact ih (node?_intern h)

/-! ### Parts come first -/

/-- The parts of every node come before it. -/
def Descending (pool : Pool) : Prop :=
  ∀ id node, pool.node? id = some node → ∀ part ∈ node.children, part.index < id.index

/-- Each node that is interned names only parts that are in the pool by then. -/
def NamesPresent (pool : Pool) : List TypeNode → Prop
  | [] => True
  | node :: rest =>
    (∀ part ∈ node.children, pool.contains part = true) ∧ (pool.intern node).2.NamesPresent rest

theorem Descending.intern (h : pool.Descending)
    (hparts : ∀ part ∈ node.children, pool.contains part = true) :
    (pool.intern node).2.Descending := by
  unfold Pool.intern
  split
  · exact h
  · intro id other hnode part hpart
    have hposition : (pool.push node).2.nodes[id.index]? = some other := hnode
    rw [getElem?_push] at hposition
    split at hposition
    · next hsize =>
      obtain rfl := Option.some.inj hposition
      rw [hsize]
      exact of_decide_eq_true (hparts part hpart)
    · exact h id other hposition part hpart

theorem Descending.internAll (h : pool.Descending) {nodes : List TypeNode}
    (hnames : pool.NamesPresent nodes) : (pool.internAll nodes).Descending := by
  induction nodes generalizing pool with
  | nil => exact h
  | cons node rest ih => exact ih (h.intern hnames.1) hnames.2

theorem Descending.index_lt (h : pool.Descending) {part : TypeId}
    (hpart : part ∈ pool.successors id) : part.index < id.index := by
  unfold successors at hpart
  split at hpart
  · next node hnode => exact h id node hnode part hpart
  · cases hpart

/-- If parts come first, no path of parts leads from a node back to it. -/
theorem Descending.acyclic (h : pool.Descending) (id : TypeId) :
    ¬ TransGen (fun whole part => part ∈ pool.successors whole) id id := by
  have hpath : ∀ {whole part},
      TransGen (fun whole part => part ∈ pool.successors whole) whole part →
        part.index < whole.index := by
    intro whole part hpath
    induction hpath with
    | single hlast => exact h.index_lt hlast
    | tail _ hlast ih => exact Nat.lt_trans (h.index_lt hlast) ih
  exact fun hloop => Nat.lt_irrefl _ (hpath hloop)

/-! ### Histories -/

/-- The pool that has interned nodes one after the other, starting with the fixed ones. -/
def ofHistory (history : List TypeNode) : Pool :=
  initial.internAll history

theorem initial_eq : initial = internAll {} TypeNode.preinterned := by
  decide +kernel

theorem indexed_initial : initial.Indexed :=
  initial_eq ▸ indexed_empty.internAll TypeNode.preinterned

theorem toList_nodes_initial : initial.nodes.toList = TypeNode.preinterned := by
  decide +kernel

theorem size_initial : initial.size = 30 := by
  decide +kernel

/-- The fixed nodes have no parts. -/
theorem children_of_mem_initial (h : node ∈ initial.nodes) : node.children = [] := by
  have hleaf : ∀ node ∈ initial.nodes.toList, node.children = [] := by decide +kernel
  exact hleaf node (Array.mem_toList_iff.mpr h)

theorem descending_initial : initial.Descending := by
  intro id node hnode part hpart
  rw [children_of_mem_initial (Array.mem_of_getElem? hnode)] at hpart
  cases hpart

/-- The fixed handles stand for the fixed nodes. -/
theorem node?_ofHistory_fixed {position : Nat} (history : List TypeNode)
    (h : TypeNode.preinterned[position]? = some node) :
    (ofHistory history).node? ⟨position⟩ = some node := by
  refine node?_internAll ?_ history
  rw [node?, ← Array.getElem?_toList, toList_nodes_initial, h]

/-- **The pool of a history has every node once, under one handle.** No node is stored twice. The
node of any handle, such as the fixed ones, is interned under that handle and without effect, and a
new one is added at the end, under the old size as its handle if the pool has fewer nodes than there
are handles. It has at most as many nodes as were interned, beside the fixed ones. What a handle
stands for never changes later. If each node that was interned named only parts that were there by
then, the parts of every node come before it and no node is below itself. -/
theorem ofHistory_canonical (history : List TypeNode) :
    (ofHistory history).nodes.toList.Nodup ∧
    (∀ position node, TypeNode.preinterned[position]? = some node →
      (ofHistory history).node? ⟨position⟩ = some node) ∧
    (∀ id node, id.index < TypeId.limit → (ofHistory history).node? id = some node →
      (ofHistory history).intern node = (id, ofHistory history)) ∧
    (∀ node, node ∉ (ofHistory history).nodes →
      ((ofHistory history).intern node).2.nodes = (ofHistory history).nodes.push node ∧
      ((ofHistory history).size < TypeId.limit →
        ((ofHistory history).intern node).1 = ⟨(ofHistory history).size⟩)) ∧
    (ofHistory history).size ≤ history.length + 30 ∧
    (∀ later id node, (ofHistory history).node? id = some node →
      (ofHistory (history ++ later)).node? id = some node) ∧
    (initial.NamesPresent history →
      (∀ id node, (ofHistory history).node? id = some node →
        ∀ part ∈ node.children, part.index < id.index) ∧
      ∀ id, ¬ TransGen (fun whole part => part ∈ (ofHistory history).successors whole) id id) := by
  have hindexed : (ofHistory history).Indexed := indexed_initial.internAll history
  refine ⟨hindexed.nodup, fun _ _ => node?_ofHistory_fixed history, ?_, ?_,
    size_initial ▸ size_internAll_le initial history, ?_, ?_⟩
  · intro id node hid hnode
    rw [hindexed.intern_of_mem hnode, TypeId.ofPosition_eq hid]
  · intro node hnew
    rw [hindexed.intern_of_not_mem hnew]
    exact ⟨rfl, TypeId.ofPosition_eq⟩
  · intro later id node hnode
    have happend : ofHistory (history ++ later) = (ofHistory history).internAll later :=
      List.foldl_append
    exact happend ▸ node?_internAll hnode later
  · intro hnames
    have hdescending : (ofHistory history).Descending := descending_initial.internAll hnames
    exact ⟨hdescending, hdescending.acyclic⟩

/-- A pointer, and a block that takes it. -/
theorem ofHistory_block_canonical :
    initial.NamesPresent [.pointer ⟨4⟩, .block [⟨0⟩, ⟨30⟩]] ∧
      (ofHistory [.pointer ⟨4⟩, .block [⟨0⟩, ⟨30⟩]]).intern (.pointer ⟨4⟩) =
        (⟨30⟩, ofHistory [.pointer ⟨4⟩, .block [⟨0⟩, ⟨30⟩]]) ∧
      ((ofHistory [.pointer ⟨4⟩, .block [⟨0⟩, ⟨30⟩]]).intern (.pointer ⟨31⟩)).1 = ⟨32⟩ ∧
      ∀ id, ¬ TransGen (fun whole part =>
        part ∈ (ofHistory [.pointer ⟨4⟩, .block [⟨0⟩, ⟨30⟩]]).successors whole) id id := by
  obtain ⟨-, -, hold, hnew, -, -, hparts⟩ :=
    ofHistory_canonical [.pointer ⟨4⟩, .block [⟨0⟩, ⟨30⟩]]
  have hnames : initial.NamesPresent [.pointer ⟨4⟩, .block [⟨0⟩, ⟨30⟩]] :=
    ⟨by decide +kernel, by decide +kernel, trivial⟩
  have hadded := hnew (.pointer ⟨31⟩) (by decide +kernel)
  exact ⟨hnames, hold ⟨30⟩ _ (by decide) (by decide +kernel), hadded.2 (by decide +kernel),
    (hparts hnames).2⟩

/-! ### More nodes than handles -/

/-- Pointers, each to the node in front of it. The first points to the last fixed node. -/
def chain (n : Nat) : List TypeNode :=
  (List.range n).map fun k => .pointer ⟨29 + k⟩

theorem nodup_chain (n : Nat) : (chain n).Nodup := by
  refine List.nodup_range.map ?_
  intro k l heq
  injection heq with hid
  injection hid with hindex
  exact Nat.add_left_cancel hindex

theorem not_mem_initial_of_pointer (id : TypeId) : .pointer id ∉ initial.nodes :=
  fun h => nomatch children_of_mem_initial h

theorem toList_nodes_chain (n : Nat) :
    (ofHistory (chain n)).nodes.toList = initial.nodes.toList ++ chain n := by
  refine indexed_initial.toList_internAll (nodup_chain n) ?_
  intro node hnode
  obtain ⟨k, -, rfl⟩ := List.mem_map.mp hnode
  exact not_mem_initial_of_pointer _

/-- **The handle of a new node is not the old size** when the pool has as many nodes as there are
handles, which takes fewer nodes than that to be interned: it is the handle of the first. -/
theorem ofHistory_chain_wraps :
    (chain (TypeId.limit - 30)).length < TypeId.limit ∧
      .pointer ⟨0⟩ ∉ (ofHistory (chain (TypeId.limit - 30))).nodes ∧
      (ofHistory (chain (TypeId.limit - 30))).size = TypeId.limit ∧
      ((ofHistory (chain (TypeId.limit - 30))).intern (.pointer ⟨0⟩)).1 = ⟨0⟩ := by
  have hlimit : 30 < TypeId.limit := by decide
  generalize hn : TypeId.limit - 30 = n
  have hlength : (chain n).length = n := by rw [chain, List.length_map, List.length_range]
  have hsize : (ofHistory (chain n)).size = TypeId.limit := by
    rw [size, ← Array.length_toList, toList_nodes_chain, List.length_append, hlength,
      Array.length_toList, ← size, size_initial]
    omega
  have hnew : .pointer ⟨0⟩ ∉ (ofHistory (chain n)).nodes := by
    rw [← Array.mem_toList_iff, toList_nodes_chain, List.mem_append, not_or]
    refine ⟨fun h => not_mem_initial_of_pointer _ (Array.mem_toList_iff.mp h), fun h => ?_⟩
    obtain ⟨k, -, heq⟩ := List.mem_map.mp h
    injection heq with hid
    injection hid with hindex
    omega
  refine ⟨by omega, hnew, hsize, ?_⟩
  have hindexed : (ofHistory (chain n)).Indexed := indexed_initial.internAll (chain n)
  rw [hindexed.intern_of_not_mem hnew, push, hsize, TypeId.ofPosition, Nat.mod_self]

end ObjcMetadata.Pool
