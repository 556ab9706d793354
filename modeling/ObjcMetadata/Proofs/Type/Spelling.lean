import ObjcMetadata.Proofs.Sequence
import ObjcMetadata.Proofs.Type.Traversal
import ObjcMetadata.Type.Declarator
/-!
Types that can be spelled.

If no node is below itself, each step down to a part leaves fewer nodes below (`card_below_lt`). A
path of parts then has no more levels than the pool has nodes, and a spelling allows for one more.
So a handle that leads to no missing node can be spelled, around any identifier
(`Acyclic.spells`).
-/

namespace ObjcMetadata.Pool

open Relation Reach

variable {pool : Pool} {id part : TypeId}

/-! ### Pools without loops -/

/-- No path of parts leads from a node back to it. -/
def Acyclic (pool : Pool) : Prop :=
  ∀ id, ¬ TransGen (fun whole part => part ∈ pool.successors whole) id id

/-- A handle leads to no missing node. -/
def Grounded (pool : Pool) (root : TypeId) : Prop :=
  ∀ id, Reaches pool.successors root id → pool.contains id = true

theorem Grounded.of_mem (h : pool.Grounded id) (hpart : part ∈ pool.successors id) :
    pool.Grounded part :=
  fun _ hreaches => h _ (.step hpart hreaches)

theorem Closed.grounded (h : pool.Closed) (hid : pool.contains id = true) : pool.Grounded id :=
  fun _ hreaches => h.contains_of_reaches hid hreaches

/-- A node and the nodes below it. -/
noncomputable def below (pool : Pool) (id : TypeId) : Finset TypeId := by
  classical
  exact pool.ids.filter (Reaches pool.successors id)

theorem mem_below_iff :
    part ∈ pool.below id ↔ part ∈ pool.ids ∧ Reaches pool.successors id part := by
  classical
  exact Finset.mem_filter

theorem mem_below_self (h : pool.contains id = true) : id ∈ pool.below id :=
  mem_below_iff.mpr ⟨mem_ids_iff.mpr h, .refl id⟩

theorem card_below_le (id : TypeId) : (pool.below id).card ≤ pool.size + 1 := by
  have hunseen : pool.below id ⊆ unseen pool.ids [] := fun node hnode =>
    Finset.mem_filter.mpr ⟨(mem_below_iff.mp hnode).1, List.not_mem_nil⟩
  exact Nat.le_trans (Finset.card_le_card hunseen) (Nat.le_of_lt (card_unseen_ids_lt pool []))

/-- Without loops, a part has fewer nodes below it. -/
theorem card_below_lt (h : pool.Acyclic) (hpart : part ∈ pool.successors id) :
    (pool.below part).card < (pool.below id).card := by
  have hid : id ∈ pool.ids := mem_ids_of_successors (List.ne_nil_of_mem hpart)
  refine Finset.card_lt_card (Finset.ssubset_iff_of_subset ?_ |>.mpr ⟨id, ?_, ?_⟩)
  · intro node hnode
    obtain ⟨hmem, hreaches⟩ := mem_below_iff.mp hnode
    exact mem_below_iff.mpr ⟨hmem, .step hpart hreaches⟩
  · exact mem_below_self (mem_ids_iff.mp hid)
  · intro hmem
    have hback := reaches_iff.mp (mem_below_iff.mp hmem).2
    exact h id (TransGen.head' hpart hback)

/-! ### Spelling -/

/-- A handle can be spelled around any identifier. -/
def Spells (pool : Pool) (id : TypeId) : Prop :=
  ∀ identifier bare, ∃ text, pool.declare id identifier bare = .ok text

/-- A node is spelled if its parts are, with one level less. -/
theorem exists_render_of_parts {node : TypeNode} {levels : Nat} (hnode : pool.node? id = some node)
    (hparts : ∀ part ∈ node.children, ∀ declarator bare,
      ∃ text, Declarator.render pool levels part declarator bare = .ok text)
    (declarator : String) (bare : Bool) :
    ∃ text, Declarator.render pool (levels + 1) id declarator bare = .ok text := by
  have htexts : ∀ params ⊆ node.children, ∃ texts,
      (params.mapM fun param => Declarator.render pool levels param "" true) = .ok texts :=
    fun params hparams => exists_mapM_eq_ok fun param hparam =>
      hparts param (hparams hparam) "" true
  have hlines : ∀ fields : List RecordField, fields.map (·.type) ⊆ node.children → ∃ lines,
      (fields.mapM fun field => Declarator.render pool levels field.type field.name true) =
        .ok lines :=
    fun fields hfields => exists_mapM_eq_ok fun field hfield =>
      hparts field.type (hfields (List.mem_map_of_mem hfield)) field.name true
  have hread : pool.node id = .ok node := by simp [Pool.node, hnode]
  rw [Declarator.render, hread]
  cases node with
  | pointer pointee => exact hparts pointee List.mem_cons_self _ _
  | constantArray element size => exact hparts element List.mem_cons_self _ _
  | incompleteArray element => exact hparts element List.mem_cons_self _ _
  | anonymousStruct fields =>
    obtain ⟨lines, hlines⟩ := hlines fields (List.Subset.refl _)
    simp only [bind, Except.bind, hlines]
    exact ⟨_, rfl⟩
  | anonymousUnion fields =>
    obtain ⟨lines, hlines⟩ := hlines fields (List.Subset.refl _)
    simp only [bind, Except.bind, hlines]
    exact ⟨_, rfl⟩
  | block signature =>
    obtain _ | ⟨result, params⟩ := signature
    · exact ⟨_, rfl⟩
    · obtain ⟨texts, htexts⟩ := htexts params (List.subset_cons_self result params)
      simp only [bind, Except.bind, htexts]
      exact hparts result List.mem_cons_self _ _
  | functionPointer signature =>
    obtain _ | ⟨result, params⟩ := signature
    · exact ⟨_, rfl⟩
    · obtain ⟨texts, htexts⟩ := htexts params (List.subset_cons_self result params)
      simp only [bind, Except.bind, htexts]
      exact hparts result List.mem_cons_self _ _
  | _ => exact ⟨_, rfl⟩

/-- As many levels as there are nodes below are enough. -/
theorem Acyclic.exists_render (h : pool.Acyclic) {levels : Nat} (hid : pool.Grounded id)
    (hlevels : (pool.below id).card ≤ levels) (declarator : String) (bare : Bool) :
    ∃ text, Declarator.render pool levels id declarator bare = .ok text := by
  have hcontains := hid id (.refl id)
  induction levels generalizing id declarator bare with
  | zero =>
    have hmem := mem_below_self hcontains
    rw [Finset.card_eq_zero.mp (Nat.le_zero.mp hlevels)] at hmem
    exact absurd hmem (Finset.notMem_empty id)
  | succ levels ih =>
    obtain ⟨node, hnode⟩ : ∃ node, pool.node? id = some node :=
      ⟨_, Array.getElem?_eq_getElem (of_decide_eq_true hcontains)⟩
    refine exists_render_of_parts hnode (fun part hpart => ?_) declarator bare
    have hsuccessor : part ∈ pool.successors id := mem_successors_iff.mpr ⟨node, hnode, hpart⟩
    have hless := Nat.lt_of_lt_of_le (card_below_lt h hsuccessor) hlevels
    have hpart := hid.of_mem hsuccessor
    exact fun declarator bare =>
      ih hpart (Nat.le_of_lt_succ hless) declarator bare (hpart part (.refl part))

/-- **Without loops, every handle that leads to no missing node can be spelled.** -/
theorem Acyclic.spells (h : pool.Acyclic) (hid : pool.Grounded id) : pool.Spells id :=
  fun identifier bare => h.exists_render hid (card_below_le id) identifier bare

end ObjcMetadata.Pool
