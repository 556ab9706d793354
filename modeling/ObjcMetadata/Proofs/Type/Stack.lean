import ObjcMetadata.Proofs.Graph.Queue
import ObjcMetadata.Proofs.Type.Interning
import ObjcMetadata.Proofs.Type.Traversal
/-!
Traversals with a stack.

If the parts of every node come before it, recursion on the handle gives the pre-order below it
(`preOrder`): the handle, then what is below its parts, one after the other. The walk puts the parts
of a node on top of its stack in their order, and lists just that (`walkFrom_eq`).

Gathering can also be done with a stack. The first pending handle is dropped if it is in the set
already. Otherwise it is added, and its parts become pending, the last one first. What is left out
in this way is never missed, because the set holds all that is below its members, but for what is
below pending ones. So this adds to such a set just what adding by rounds does (`adds_gather`), and
pools in which types loop make no difference.
-/

namespace ObjcMetadata.Pool

open Relation Reach

variable {pool : Pool} {id root : TypeId} {seen stack below : List TypeId}

/-! ### Pre-order -/

/-- The handle and all below it, part after part and once per occurrence. -/
def preOrder (pool : Pool) (h : pool.Descending) (id : TypeId) : List TypeId :=
  id :: (pool.successors id).attach.flatMap fun part => preOrder pool h part.1
termination_by id.index
decreasing_by exact h.index_lt part.2

theorem preOrder_eq (h : pool.Descending) (id : TypeId) :
    pool.preOrder h id = id :: (pool.successors id).flatMap (pool.preOrder h) := by
  rw [preOrder]
  simp

/-- The pre-order lists what paths of parts lead to. -/
theorem mem_preOrder_iff (h : pool.Descending) :
    id ∈ pool.preOrder h root ↔ Reaches pool.successors root id := by
  induction hindex : root.index using Nat.strongRecOn generalizing root with
  | ind index ih =>
    rw [preOrder_eq, List.mem_cons, List.mem_flatMap]
    constructor
    · rintro (rfl | ⟨part, hpart, hid⟩)
      · exact .refl id
      · exact .step hpart ((ih _ (hindex ▸ h.index_lt hpart) rfl).mp hid)
    · rintro (_ | ⟨hpart, hreaches⟩)
      · exact .inl rfl
      · exact .inr ⟨_, hpart, (ih _ (hindex ▸ h.index_lt hpart) rfl).mpr hreaches⟩

theorem Descending.closed (h : pool.Descending) : pool.Closed := by
  intro node hnode part hpart
  obtain ⟨index, hindex⟩ := Array.mem_iff_getElem?.mp (Array.mem_toList_iff.mp hnode)
  have hlt : index < pool.size := (Array.getElem?_eq_some_iff.mp hindex).1
  exact decide_eq_true (Nat.lt_trans (h ⟨index⟩ node hindex part hpart) hlt)

/-- The walk lists the pre-order below each pending handle. The levels suffice, because each level
leads to an earlier node. -/
theorem walkFrom_eq (h : pool.Descending) {stack : List (TypeId × Nat)}
    (hstack : ∀ entry ∈ stack, pool.contains entry.1 = true ∧ entry.1.index < entry.2) :
    pool.walkFrom stack = .ok (stack.flatMap fun entry => pool.preOrder h entry.1) := by
  have hparts : ∀ {id levels rest parts},
      (∀ entry ∈ (id, levels + 1) :: rest, pool.contains entry.1 = true ∧ entry.1.index < entry.2) →
      pool.children id = .ok parts → ∀ entry ∈ parts.map (·, levels) ++ rest,
        pool.contains entry.1 = true ∧ entry.1.index < entry.2 := by
    intro id levels rest parts hstack hchildren entry hentry
    obtain ⟨hcontains, rfl⟩ := children_eq_ok_iff.mp hchildren
    rcases List.mem_append.mp hentry with hentry | hentry
    · obtain ⟨part, hpart, rfl⟩ := List.mem_map.mp hentry
      have hlt := h.index_lt hpart
      have hlevel : id.index < levels + 1 := (hstack _ List.mem_cons_self).2
      exact ⟨h.closed.contains_of_reaches hcontains (.step hpart (.refl part)),
        Nat.lt_of_lt_of_le hlt (Nat.le_of_lt_succ hlevel)⟩
    · exact hstack entry (List.mem_cons_of_mem _ hentry)
  fun_induction walkFrom pool stack with
  | case1 => rfl
  | case2 => exact absurd (hstack _ List.mem_cons_self).2 (Nat.not_lt_zero _)
  | case3 id levels rest e hchildren =>
    have hchildren' := children_eq_ok_iff.mpr ⟨(hstack _ List.mem_cons_self).1, rfl⟩
    cases hchildren.symm.trans hchildren'
  | case4 id levels rest parts hchildren e hrest ih =>
    cases hrest.symm.trans (ih (hparts hstack hchildren))
  | case5 id levels rest parts hchildren below hrest ih =>
    obtain rfl := Except.ok.inj (hrest.symm.trans (ih (hparts hstack hchildren)))
    obtain ⟨-, rfl⟩ := children_eq_ok_iff.mp hchildren
    simp only [List.flatMap_cons, List.flatMap_append, List.flatMap_map]
    rw [preOrder_eq, List.cons_append]

theorem walk_eq_preOrder (h : pool.Descending) (hroot : pool.contains root = true) :
    pool.walk root = .ok (pool.preOrder h root) := by
  have hlt : root.index < pool.size := of_decide_eq_true hroot
  have hstack : ∀ entry ∈ [(root, pool.size + 1)],
      pool.contains entry.1 = true ∧ entry.1.index < entry.2 := by
    intro entry hentry
    obtain rfl := List.mem_singleton.mp hentry
    exact ⟨hroot, Nat.lt_succ_of_lt hlt⟩
  unfold walk
  rw [walkFrom_eq h hstack]
  simp

/-! ### Gathering -/

/-- Adds to `seen` the pending handles and all below them, unless one of them has no node. -/
def gather (pool : Pool) (seen : List TypeId) :
    (stack : List TypeId) → Except TypeError (List TypeId)
  | [] => .ok seen
  | id :: stack =>
    if id ∈ seen then pool.gather seen stack
    else
      match _h : pool.children id with
      | .error e => .error e
      | .ok parts => pool.gather (id :: seen) (parts.reverse ++ stack)
termination_by stack => ((unseen pool.ids seen).card, stack.length)
decreasing_by
  · exact Prod.Lex.right _ (Nat.lt_succ_self _)
  · next hnew =>
    obtain ⟨hcontains, -⟩ := children_eq_ok_iff.mp _h
    exact Prod.Lex.left _ _ (card_unseen_cons_lt (mem_ids_iff.mpr hcontains) hnew)

/-- Gathers each handle in turn into one set. -/
def gatherAll (pool : Pool) (roots : List TypeId) : Except TypeError (List TypeId) :=
  roots.foldlM (fun seen root => pool.gather seen [root]) []

/-- What is added is what the stack leads to without following what was there before. -/
theorem mem_gather_iff (h : pool.gather seen stack = .ok below) :
    id ∈ below ↔ id ∈ seen ∨
      id ∉ seen ∧ ∃ root ∈ stack, ReflTransGen (Follows pool.successors seen) root id := by
  fun_induction gather pool seen stack with
  | case1 seen =>
    cases h
    simp
  | case2 seen root stack hold ih => rw [ih h, leads_skip_iff hold]
  | case3 => cases h
  | case4 seen root stack hnew parts hparts ih =>
    obtain ⟨-, rfl⟩ := children_eq_ok_iff.mp hparts
    have hpending : ∀ part, part ∈ (pool.successors root).reverse ++ stack ↔
        part ∈ stack ∨ part ∈ pool.successors root := by
      simp [or_comm]
    rw [ih h, leads_visit_iff hnew hpending, List.mem_cons, or_assoc, or_left_comm]

/-- Nothing is missed by not following what was there, if that holds all that is below it. -/
theorem mem_gather_iff_of_saturated (hseen : pool.Saturated seen)
    (h : pool.gather seen stack = .ok below) :
    id ∈ below ↔ id ∈ seen ∨ ∃ root ∈ stack, Reaches pool.successors root id := by
  rw [mem_gather_iff h, ← leads_iff_of_closed hseen]
  tauto

theorem nodup_gather (hseen : seen.Nodup) (h : pool.gather seen stack = .ok below) :
    below.Nodup := by
  fun_induction gather pool seen stack with
  | case1 seen =>
    cases h
    exact hseen
  | case2 seen root stack hold ih => exact ih hseen h
  | case3 => cases h
  | case4 seen root stack hnew parts hparts ih => exact ih (List.nodup_cons.mpr ⟨hnew, hseen⟩) h

theorem gather_total
    (hstack : ∀ root ∈ stack, ∀ id, Reaches pool.successors root id → pool.contains id = true) :
    ∃ below, pool.gather seen stack = .ok below := by
  fun_induction gather pool seen stack with
  | case1 seen => exact ⟨seen, rfl⟩
  | case2 seen root stack hold ih => exact ih fun r hr => hstack r (List.mem_cons_of_mem root hr)
  | case3 seen root stack hnew e hchildren =>
    have hcontains := hstack root List.mem_cons_self root (.refl root)
    cases hchildren.symm.trans (children_eq_ok_iff.mpr ⟨hcontains, rfl⟩)
  | case4 seen root stack hnew parts hparts ih =>
    obtain ⟨-, rfl⟩ := children_eq_ok_iff.mp hparts
    refine ih fun r hr id hreaches => ?_
    rcases List.mem_append.mp hr with hr | hr
    · exact hstack root List.mem_cons_self id (.step (List.mem_reverse.mp hr) hreaches)
    · exact hstack r (List.mem_cons_of_mem root hr) id hreaches

theorem adds_gather (pool : Pool) : pool.Adds fun seen root => pool.gather seen [root] where
  mem_iff hseen h id := (mem_gather_iff_of_saturated hseen h).trans (by simp)
  nodup := nodup_gather
  total _ hroot _ := gather_total fun r hr => List.mem_singleton.mp hr ▸ hroot

/-! ### Both traversals -/

theorem gatherAll_total (h : pool.Closed) {roots : List TypeId}
    (hroots : ∀ root ∈ roots, pool.contains root = true) :
    ∃ found, pool.gatherAll roots = .ok found :=
  pool.adds_gather.foldlM_total pool.saturated_nil nofun fun root hroot _ =>
    h.contains_of_reaches (hroots root hroot)

theorem mem_gatherAll_iff {roots found : List TypeId} (h : pool.gatherAll roots = .ok found) :
    id ∈ found ↔ ∃ root ∈ roots, Reaches pool.successors root id := by
  rw [pool.adds_gather.mem_foldlM_iff pool.saturated_nil h]
  simp

/-- A stack gathers what rounds do, in whatever order the handles are taken. -/
theorem gatherAll_perm {roots roots' found : List TypeId}
    (hroots : ∀ root, root ∈ roots ↔ root ∈ roots') (h : pool.gatherAll roots = .ok found)
    (hbelow : pool.reachable roots' = .ok below) : found.Perm below ∧ below.Nodup := by
  have hnodup : below.Nodup := pool.adds_addReachable.nodup_foldlM List.nodup_nil hbelow
  refine ⟨?_, hnodup⟩
  rw [List.perm_ext_iff_of_nodup (pool.adds_gather.nodup_foldlM List.nodup_nil h) hnodup]
  intro id
  rw [mem_gatherAll_iff h, mem_reachable_iff hbelow]
  simp only [hroots]

/-- **The walk lists the pre-order below a handle, and gathering finds what is below any of
several.** If parts come first, the walk ends with what recursion on the handle gives. Gathering
handles in turn, with a stack or by rounds, ends whether types loop or not, and finds, each once,
the handles that paths of parts lead to. If parts come first, these are the ones that walks list. -/
theorem walk_gatherAll_exact (pool : Pool) :
    (∀ (h : pool.Descending) (root : TypeId), pool.contains root = true →
      pool.walk root = .ok (pool.preOrder h root)) ∧
    (pool.Closed → ∀ roots : List TypeId, (∀ root ∈ roots, pool.contains root = true) →
      ∃ found below, pool.gatherAll roots = .ok found ∧ pool.reachable roots = .ok below ∧
        (found.Perm below ∧ below.Nodup) ∧
        ∀ id, id ∈ below ↔ ∃ root ∈ roots, Reaches pool.successors root id) ∧
    (pool.Descending → ∀ roots : List TypeId, (∀ root ∈ roots, pool.contains root = true) →
      ∃ found, pool.gatherAll roots = .ok found ∧ ∀ id, id ∈ found ↔
        ∃ root ∈ roots, ∃ visited, pool.walk root = .ok visited ∧ id ∈ visited) := by
  refine ⟨fun h _ => walk_eq_preOrder h, fun hclosed roots hroots => ?_, fun h roots hroots => ?_⟩
  · obtain ⟨found, hfound⟩ := gatherAll_total hclosed hroots
    obtain ⟨below, hbelow⟩ : ∃ below, pool.reachable roots = .ok below :=
      reachable_total fun root hroot _ => hclosed.contains_of_reaches (hroots root hroot)
    exact ⟨found, below, hfound, hbelow, gatherAll_perm (fun _ => .rfl) hfound hbelow,
      fun _ => mem_reachable_iff hbelow⟩
  · obtain ⟨found, hfound⟩ := gatherAll_total h.closed hroots
    refine ⟨found, hfound, fun id => (mem_gatherAll_iff hfound).trans ?_⟩
    refine exists_congr fun root => and_congr_right fun hroot => ?_
    rw [walk_eq_preOrder h (hroots root hroot)]
    simp [mem_preOrder_iff]

namespace Traversed

/-- A pointer, a block that takes it twice, and a function that takes both. -/
def shared : Pool :=
  ofHistory [.pointer ⟨4⟩, .block [⟨30⟩, ⟨30⟩], .functionPointer [⟨31⟩, ⟨30⟩]]

/-- Two pointers to each other, and a block that takes one of them. -/
def looping : Pool :=
  ofHistory [.pointer ⟨31⟩, .pointer ⟨30⟩, .block [⟨0⟩, ⟨31⟩]]

theorem descending_shared : shared.Descending :=
  descending_initial.internAll
    ⟨by decide +kernel, by decide +kernel, by decide +kernel, trivial⟩

/-- What is shared is listed at each place where it occurs, but gathered once; pointers to each
other are gathered, too. -/
theorem walk_gatherAll_shared :
    shared.Descending ∧ shared.contains ⟨32⟩ = true ∧
      (∃ found, shared.gatherAll [⟨32⟩] = .ok found ∧ ∀ id, id ∈ found ↔
        id ∈ [⟨32⟩, ⟨31⟩, ⟨30⟩, ⟨4⟩, ⟨30⟩, ⟨4⟩, ⟨30⟩, ⟨4⟩]) ∧
      shared.preOrder descending_shared ⟨32⟩ =
        [⟨32⟩, ⟨31⟩, ⟨30⟩, ⟨4⟩, ⟨30⟩, ⟨4⟩, ⟨30⟩, ⟨4⟩] ∧
    looping.Closed ∧ (∀ root ∈ [⟨30⟩, ⟨32⟩], looping.contains root = true) ∧
      ∃ found, looping.gatherAll [⟨30⟩, ⟨32⟩] = .ok found ∧
        found.Perm [⟨0⟩, ⟨30⟩, ⟨31⟩, ⟨32⟩] := by
  have hroot : shared.contains ⟨32⟩ = true := by decide +kernel
  have hwalk : shared.walk ⟨32⟩ = .ok [⟨32⟩, ⟨31⟩, ⟨30⟩, ⟨4⟩, ⟨30⟩, ⟨4⟩, ⟨30⟩, ⟨4⟩] := by
    decide +kernel
  have hclosed : looping.Closed := by decide +kernel
  have hroots : ∀ root ∈ [⟨30⟩, ⟨32⟩], looping.contains root = true := by decide +kernel
  refine ⟨descending_shared, hroot, ?_, ?_, hclosed, hroots, ?_⟩
  · obtain ⟨found, hfound, hmem⟩ := (walk_gatherAll_exact shared).2.2 descending_shared [⟨32⟩]
      (by simpa using hroot)
    exact ⟨found, hfound, fun id => (hmem id).trans (by simp [hwalk])⟩
  · have horder := (walk_gatherAll_exact shared).1 descending_shared ⟨32⟩ hroot
    exact (Except.ok.inj (hwalk.symm.trans horder)).symm
  · obtain ⟨found, below, hfound, hbelow, ⟨hperm, -⟩, -⟩ :=
      (walk_gatherAll_exact looping).2.1 hclosed _ hroots
    have hrounds : looping.reachable [⟨30⟩, ⟨32⟩] = .ok [⟨0⟩, ⟨32⟩, ⟨31⟩, ⟨30⟩] := by
      decide +kernel
    obtain rfl := Except.ok.inj (hbelow.symm.trans hrounds)
    exact ⟨found, hfound, hperm.trans (by decide)⟩

end Traversed

end ObjcMetadata.Pool
