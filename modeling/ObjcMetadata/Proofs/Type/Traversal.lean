import ObjcMetadata.Proofs.Graph.Reach
import ObjcMetadata.Type.Traversal
/-!
What lies below handles.

Only nodes have parts, so a search along parts has enough rounds. What `Pool.reachable` gathers is
therefore exactly what paths of parts lead to from the given handles, loops or not
(`mem_reachable_iff`), and it fails only if they lead out of the pool (`reachable_total`). This
takes no more than that each handle is added with all that is below it to a set that already holds
what is below its members (`Adds`), in whatever way that is done.
-/

namespace ObjcMetadata.Pool

open Reach

variable {pool : Pool} {id part root : TypeId} {node : TypeNode} {roots seen below : List TypeId}

theorem mem_successors_iff :
    part ∈ pool.successors id ↔ ∃ node, pool.node? id = some node ∧ part ∈ node.children := by
  unfold successors
  cases pool.node? id with
  | none => simp
  | some node => simp

/-- The handles of all nodes. -/
def ids (pool : Pool) : Finset TypeId :=
  ((List.range pool.size).map TypeId.mk).toFinset

theorem mem_ids_iff : id ∈ pool.ids ↔ pool.contains id = true := by
  unfold ids contains
  rw [List.mem_toFinset, List.mem_map, decide_eq_true_iff]
  constructor
  · rintro ⟨index, hindex, rfl⟩
    exact List.mem_range.mp hindex
  · intro hlt
    exact ⟨id.index, List.mem_range.mpr hlt, rfl⟩

theorem mem_ids_of_successors (h : pool.successors id ≠ []) : id ∈ pool.ids := by
  obtain ⟨part, hpart⟩ := List.exists_mem_of_ne_nil _ h
  obtain ⟨node, hnode, -⟩ := mem_successors_iff.mp hpart
  exact mem_ids_iff.mpr (decide_eq_true (Array.getElem?_eq_some_iff.mp hnode).1)

theorem card_unseen_ids_lt (pool : Pool) (seen : List TypeId) :
    (unseen pool.ids seen).card < pool.size + 1 := by
  have hle : pool.ids.card ≤ pool.size := by
    unfold ids
    refine Nat.le_trans (List.toFinset_card_le _) ?_
    simp
  exact Nat.lt_succ_of_le (Nat.le_trans (Finset.card_filter_le _ _) hle)

/-! ### Pools without loose ends -/

/-- The parts of all nodes are nodes. -/
def Closed (pool : Pool) : Prop :=
  ∀ node ∈ pool.nodes.toList, ∀ part ∈ node.children, pool.contains part = true

instance (pool : Pool) : Decidable pool.Closed :=
  inferInstanceAs (Decidable (∀ node ∈ pool.nodes.toList, _))

theorem Closed.contains_of_reaches (h : pool.Closed) (hroot : pool.contains root = true)
    (hreaches : Reaches pool.successors root id) : pool.contains id = true := by
  induction hreaches with
  | refl => exact hroot
  | step hpart _ ih =>
    obtain ⟨node, hnode, hpart⟩ := mem_successors_iff.mp hpart
    exact ih (h node (Array.mem_toList_iff.mpr (Array.mem_of_getElem? hnode)) _ hpart)

theorem children_eq_ok_iff :
    pool.children id = .ok below ↔ pool.contains id = true ∧ below = pool.successors id := by
  have hcontains : pool.contains id = true ↔ (pool.node? id).isSome = true := by
    unfold contains node? size
    rw [decide_eq_true_iff, isSome_getElem?]
  rw [hcontains]
  unfold children node successors
  cases pool.node? id with
  | none => simp [Except.map]
  | some node => simp [Except.map, eq_comm]

/-! ### Handles and all below them -/

/-- A set of handles holds all that is below its members. -/
def Saturated (pool : Pool) (seen : List TypeId) : Prop :=
  ∀ id ∈ seen, ∀ part ∈ pool.successors id, part ∈ seen

theorem saturated_nil (pool : Pool) : pool.Saturated [] :=
  nofun

/-- A way of adding a handle and all below it to a set that holds all that is below its members. It
works unless it is led out of the pool. -/
structure Adds (pool : Pool) (add : List TypeId → TypeId → Except TypeError (List TypeId)) :
    Prop where
  mem_iff : ∀ {seen root below}, pool.Saturated seen → add seen root = .ok below →
    ∀ id, id ∈ below ↔ id ∈ seen ∨ Reaches pool.successors root id
  nodup : ∀ {seen root below}, seen.Nodup → add seen root = .ok below → below.Nodup
  total : ∀ {seen root}, (∀ id ∈ seen, pool.contains id = true) →
    (∀ id, Reaches pool.successors root id → pool.contains id = true) → pool.Saturated seen →
      ∃ below, add seen root = .ok below

namespace Adds

variable {add : List TypeId → TypeId → Except TypeError (List TypeId)}

theorem saturated (h : pool.Adds add) (hseen : pool.Saturated seen)
    (hadd : add seen root = .ok below) : pool.Saturated below := by
  intro id hid part hpart
  rw [h.mem_iff hseen hadd] at hid ⊢
  refine hid.imp (fun hid => hseen id hid part hpart) fun hreaches => ?_
  exact hreaches.trans (.step hpart (.refl part))

/-- Adding one handle after the other adds what is below any of them. -/
theorem mem_foldlM_iff (h : pool.Adds add) (hseen : pool.Saturated seen)
    (hadd : roots.foldlM add seen = .ok below) :
    id ∈ below ↔ id ∈ seen ∨ ∃ root ∈ roots, Reaches pool.successors root id := by
  induction roots generalizing seen with
  | nil =>
    cases hadd
    simp
  | cons root rest ih =>
    rw [List.foldlM_cons] at hadd
    cases hfirst : add seen root with
    | error e => simp [hfirst, bind, Except.bind] at hadd
    | ok first =>
      simp only [hfirst, bind, Except.bind] at hadd
      rw [ih (h.saturated hseen hfirst) hadd, h.mem_iff hseen hfirst, or_assoc]
      simp only [List.mem_cons, exists_eq_or_imp]

theorem nodup_foldlM (h : pool.Adds add) (hseen : seen.Nodup)
    (hadd : roots.foldlM add seen = .ok below) : below.Nodup := by
  induction roots generalizing seen with
  | nil =>
    cases hadd
    exact hseen
  | cons root rest ih =>
    rw [List.foldlM_cons] at hadd
    cases hfirst : add seen root with
    | error e => simp [hfirst, bind, Except.bind] at hadd
    | ok first =>
      simp only [hfirst, bind, Except.bind] at hadd
      exact ih (h.nodup hseen hfirst) hadd

/-- If no path of parts leads out of the pool, handles can be added one after the other. -/
theorem foldlM_total (h : pool.Adds add) (hseen : pool.Saturated seen)
    (hinside : ∀ id ∈ seen, pool.contains id = true)
    (hroots : ∀ root ∈ roots, ∀ id, Reaches pool.successors root id → pool.contains id = true) :
    ∃ below, roots.foldlM add seen = .ok below := by
  induction roots generalizing seen with
  | nil => exact ⟨seen, rfl⟩
  | cons root rest ih =>
    have hroot := hroots root List.mem_cons_self
    obtain ⟨first, hfirst⟩ := h.total hinside hroot hseen
    rw [List.foldlM_cons, hfirst]
    refine ih (h.saturated hseen hfirst) (fun id hid => ?_) fun r hr =>
      hroots r (List.mem_cons_of_mem root hr)
    exact ((h.mem_iff hseen hfirst id).mp hid).elim (hinside id) (hroot id)

end Adds

/-! ### Gathering by rounds -/

theorem mem_rounds_iff (hseen : pool.Saturated seen) :
    id ∈ extend pool.successors (pool.size + 1) seen [root] ↔
      id ∈ seen ∨ Reaches pool.successors root id := by
  rw [mem_extend_iff_of_closed (fun _ => mem_ids_of_successors) (card_unseen_ids_lt pool seen)
    hseen]
  simp

theorem addReachable_eq_ok (h : pool.addReachable seen root = .ok below) :
    below = extend pool.successors (pool.size + 1) seen [root] := by
  unfold addReachable at h
  dsimp only at h
  split at h
  · cases h
  · exact (Except.ok.inj h).symm

theorem adds_addReachable (pool : Pool) : pool.Adds pool.addReachable where
  mem_iff hseen h id := by
    rw [addReachable_eq_ok h]
    exact mem_rounds_iff hseen
  nodup hseen h := by
    rw [addReachable_eq_ok h]
    exact nodup_extend hseen
  total {seen root} hinside hroot hseen := by
    unfold addReachable
    dsimp only
    split
    · next id hfind =>
      have hcontains : pool.contains id = true :=
        ((mem_rounds_iff hseen).mp (List.mem_of_find?_eq_some hfind)).elim (hinside id) (hroot id)
      have hmissing := List.find?_some hfind
      simp [hcontains] at hmissing
    · exact ⟨_, rfl⟩

/-- **What is reachable from handles is what paths of parts lead to.** -/
theorem mem_reachable_iff (h : pool.reachable roots = .ok below) :
    id ∈ below ↔ ∃ root ∈ roots, Reaches pool.successors root id := by
  rw [pool.adds_addReachable.mem_foldlM_iff pool.saturated_nil h]
  simp

/-- If no path of parts leads out of the pool, there is an answer. -/
theorem reachable_total
    (hroots : ∀ root ∈ roots, ∀ id, Reaches pool.successors root id → pool.contains id = true) :
    ∃ below, pool.reachable roots = .ok below :=
  pool.adds_addReachable.foldlM_total pool.saturated_nil nofun hroots

end ObjcMetadata.Pool
