import ObjcMetadata.Type.Basic
/-!
A memoized search for what is supported.

Each node of a graph either is unsupported by itself or needs other nodes, and it is supported when
all nodes that it needs are. The search visits the needs of a node in order and stops at the first
that is unsupported. It remembers a mark for every node that it has visited.

A node that is met again while it is open is taken to be supported for the moment. A verdict that
relies on such a node is pending: it is settled together with the open node if that turns out
supported, and forgotten if it does not. An open node is known by its depth, which is the number of
nodes that are open above it; a pending node remembers the smallest depth that it relies on. That a
node is unsupported never relies on anything and is settled at once.

A depth is used again by the next node that is opened there, so a pending mark may come to name
another node than the one that it was made for. The verdict of a search that starts without marks
does not suffer from this, since it sees every node that it depends on; the marks that it leaves
may.
-/

namespace ObjcMetadata.Support

/-! ### Marks -/

/-- What is known of a node. -/
inductive Mark where
  /-- The node is being evaluated, at this depth. -/
  | opened (depth : Nat)
  /-- The node is supported if the node that was open at this depth is. -/
  | pending (low : Nat)
  | settled (supported : Bool)
deriving DecidableEq, Repr, Inhabited

/-- The marks of the visited nodes, the newest first. Only the newest mark of a node counts. -/
abbrev Marks (ν : Type) := List (ν × Mark)

namespace Marks

variable {ν : Type} [DecidableEq ν]

/-- The mark of a node. -/
def get? (marks : Marks ν) (node : ν) : Option Mark :=
  marks.lookup node

/-- Gives a node a mark. -/
def set (marks : Marks ν) (node : ν) (mark : Mark) : Marks ν :=
  (node, mark) :: marks

/-- Takes the mark of a node away. -/
def erase (marks : Marks ν) (node : ν) : Marks ν :=
  marks.filter fun entry => entry.1 ≠ node

/-- Settles every node of a list as supported. -/
def settleAll (marks : Marks ν) (nodes : List ν) : Marks ν :=
  nodes.foldl (fun m node => m.set node (.settled true)) marks

/-- Takes the marks of all nodes of a list away. -/
def eraseAll (marks : Marks ν) (nodes : List ν) : Marks ν :=
  nodes.foldl erase marks

/-- The settled verdict on a node. -/
def settled? (marks : Marks ν) (node : ν) : Option Bool :=
  match marks.get? node with
  | some (.settled supported) => some supported
  | _ => none

theorem get?_cons (marks : Marks ν) (entry : ν × Mark) (node : ν) :
    get? (entry :: marks) node = if node = entry.1 then some entry.2 else get? marks node := by
  obtain ⟨key, mark⟩ := entry
  unfold get?
  by_cases h : node = key
  · rw [if_pos h, h, List.lookup_cons_self]
  · rw [if_neg h, List.lookup_cons, beq_eq_false_iff_ne.2 h]

@[simp] theorem get?_set (marks : Marks ν) (node other : ν) (mark : Mark) :
    (marks.set node mark).get? other = if other = node then some mark else marks.get? other :=
  get?_cons marks (node, mark) other

@[simp] theorem get?_erase (marks : Marks ν) (node other : ν) :
    (marks.erase node).get? other = if other = node then none else marks.get? other := by
  induction marks with
  | nil => simp [get?, erase]
  | cons entry rest ih =>
    by_cases h : entry.1 = node
    · have herase : erase (entry :: rest) node = erase rest node := by simp [erase, h]
      rw [herase, ih, get?_cons, h]
      split <;> rfl
    · have herase : erase (entry :: rest) node = entry :: erase rest node := by simp [erase, h]
      rw [herase, get?_cons, get?_cons, ih]
      by_cases ho : other = node
      · subst ho
        simp [Ne.symm h]
      · simp [ho]

theorem get?_settleAll (marks : Marks ν) (nodes : List ν) (other : ν) :
    (marks.settleAll nodes).get? other =
      if other ∈ nodes then some (.settled true) else marks.get? other := by
  unfold settleAll
  induction nodes generalizing marks with
  | nil => simp
  | cons node rest ih =>
    rw [List.foldl_cons, ih, get?_set]
    by_cases hrest : other ∈ rest
    · simp [hrest]
    · simp [hrest, List.mem_cons]

theorem get?_eraseAll (marks : Marks ν) (nodes : List ν) (other : ν) :
    (marks.eraseAll nodes).get? other = if other ∈ nodes then none else marks.get? other := by
  unfold eraseAll
  induction nodes generalizing marks with
  | nil => simp
  | cons node rest ih =>
    rw [List.foldl_cons, ih, get?_erase]
    by_cases hrest : other ∈ rest
    · simp [hrest]
    · simp [hrest, List.mem_cons]

theorem settled?_eq_some_iff {marks : Marks ν} {node : ν} {supported : Bool} :
    marks.settled? node = some supported ↔ marks.get? node = some (.settled supported) := by
  unfold settled?
  cases marks.get? node with
  | none => simp
  | some mark => cases mark <;> simp

end Marks

/-! ### Verdicts -/

/-- The verdict on a node or on several: a supported one may rely on open nodes, of which it names
the smallest depth. -/
inductive Verdict where
  | unsupported
  | supported (low : Option Nat)
deriving DecidableEq, Repr, Inhabited

namespace Verdict

/-- The verdict that needs no assumption. -/
def ofBool (supported : Bool) : Verdict :=
  if supported then .supported none else .unsupported

/-- Whether the verdict is that of support, relying on something or not. -/
def isSupported : Verdict → Bool
  | .unsupported => false
  | .supported _ => true

/-- The smaller of two depths, if there are any. -/
def lowest : Option Nat → Option Nat → Option Nat
  | some a, some b => some (min a b)
  | some a, none => some a
  | none, b => b

theorem eq_or_eq_of_lowest {a b : Option Nat} {low : Nat} (h : lowest a b = some low) :
    a = some low ∨ b = some low := by
  cases a with
  | none => exact .inr h
  | some m =>
    cases b with
    | none => exact .inl h
    | some n =>
      have hmin : min m n = low := Option.some.inj h
      rcases Nat.le_total m n with hle | hle
      · exact .inl (by rw [← hmin, Nat.min_eq_left hle])
      · exact .inr (by rw [← hmin, Nat.min_eq_right hle])

/-- The verdict with one more depth that it relies on. -/
def relyingOn (low : Option Nat) : Verdict → Verdict
  | .unsupported => .unsupported
  | .supported low' => .supported (lowest low low')

end Verdict

/-! ### The search -/

/-- What a visit comes to. -/
structure Visited (ν : Type) where
  verdict : Verdict
  /-- The nodes that the visit leaves pending, the newest first. -/
  pending : List ν
  /-- The nodes that the visit has opened and closed, the last closed first. -/
  evaluated : List ν
  /-- The marks of all nodes after the visit. -/
  marks : Marks ν

variable {ν : Type} [DecidableEq ν]

/-- What an earlier mark says about its node. -/
def Mark.verdict : Mark → Verdict
  | .settled supported => .ofBool supported
  | .pending low => .supported (some low)
  | .opened depth => .supported (some depth)

/-- Visits nodes in order and stops at the first that is unsupported. -/
def visitAll (visit : ν → Marks ν → Except TypeError (Visited ν)) :
    List ν → Marks ν → Except TypeError (Visited ν)
  | [], marks => .ok ⟨.supported none, [], [], marks⟩
  | node :: rest, marks =>
    match visit node marks with
    | .error e => .error e
    | .ok first =>
      match first.verdict with
      | .unsupported => .ok first
      | .supported low =>
        match visitAll visit rest first.marks with
        | .error e => .error e
        | .ok others =>
          .ok ⟨others.verdict.relyingOn low, others.pending ++ first.pending,
            others.evaluated ++ first.evaluated, others.marks⟩

/-- Closes a node that was opened at a depth, when its needs have been visited. The verdict on the
needs is that on the node. If it relies on no depth above that of the node, it relies on nothing any
more, and what is pending below the node is settled. -/
def close (node : ν) (depth : Nat) (needs : Visited ν) : Visited ν :=
  let evaluated := node :: needs.evaluated
  match needs.verdict with
  | .unsupported =>
    ⟨.unsupported, [], evaluated, (needs.marks.eraseAll needs.pending).set node (.settled false)⟩
  | .supported low =>
    match low.filter (· < depth) with
    | none =>
      ⟨.supported none, [], evaluated,
        (needs.marks.settleAll needs.pending).set node (.settled true)⟩
    | some low =>
      ⟨.supported (some low), node :: needs.pending, evaluated,
        needs.marks.set node (.pending low)⟩

/-- Visits a node at a depth. `demand` says what a node needs, and has nothing for one that is
unsupported by itself. No more than `levels` nodes may be open below each other. -/
def visit (demand : ν → Except TypeError (Option (List ν))) :
    (levels : Nat) → (depth : Nat) → ν → Marks ν → Except TypeError (Visited ν)
  | 0, _, _, _ => .error .endlessType
  | levels + 1, depth, node, marks =>
    match marks.get? node with
    | some mark => .ok ⟨mark.verdict, [], [], marks⟩
    | none =>
      match demand node with
      | .error e => .error e
      | .ok none => .ok ⟨.unsupported, [], [node], marks.set node (.settled false)⟩
      | .ok (some needs) =>
        match visitAll (visit demand levels (depth + 1)) needs (marks.set node (.opened depth)) with
        | .error e => .error e
        | .ok visited => .ok (close node depth visited)

/-! ### Ways to end -/

omit [DecidableEq ν] in
/-- The needs of a node at a depth are unsupported, or they rely on nothing above the node, or they
rely on a depth above it. -/
theorem verdict_cases (needs : Visited ν) (depth : Nat) :
    needs.verdict = .unsupported ∨
      (∃ low, needs.verdict = .supported low ∧ low.filter (· < depth) = none) ∨
      ∃ low, needs.verdict = .supported (some low) ∧ low < depth := by
  cases needs.verdict with
  | unsupported => exact .inl rfl
  | supported low =>
    cases hlow : low.filter (· < depth) with
    | none => exact .inr (.inl ⟨low, rfl, hlow⟩)
    | some low' =>
      obtain ⟨rfl, hlt⟩ := Option.filter_eq_some_iff.mp hlow
      exact .inr (.inr ⟨low', rfl, by simpa using hlt⟩)

theorem close_of_unsupported {node : ν} {depth : Nat} {needs : Visited ν}
    (h : needs.verdict = .unsupported) :
    close node depth needs =
      ⟨.unsupported, [], node :: needs.evaluated,
        (needs.marks.eraseAll needs.pending).set node (.settled false)⟩ := by
  simp [close, h]

theorem close_of_settled {node : ν} {depth : Nat} {needs : Visited ν} {low : Option Nat}
    (h : needs.verdict = .supported low) (hlow : low.filter (· < depth) = none) :
    close node depth needs =
      ⟨.supported none, [], node :: needs.evaluated,
        (needs.marks.settleAll needs.pending).set node (.settled true)⟩ := by
  simp only [close, h, hlow]

theorem close_of_pending {node : ν} {depth low : Nat} {needs : Visited ν}
    (h : needs.verdict = .supported (some low)) (hlow : low < depth) :
    close node depth needs =
      ⟨.supported (some low), node :: needs.pending, node :: needs.evaluated,
        needs.marks.set node (.pending low)⟩ := by
  simp [close, h, Option.filter, hlow]

omit [DecidableEq ν] in
/-- A search of several nodes stops at the first that is unsupported, or it goes through all. -/
theorem visitAll_cons_cases {visit : ν → Marks ν → Except TypeError (Visited ν)} {node : ν}
    {rest : List ν} {marks : Marks ν} {v : Visited ν}
    (h : visitAll visit (node :: rest) marks = .ok v) :
    ∃ first, visit node marks = .ok first ∧
      ((first.verdict = .unsupported ∧ v = first) ∨
        ∃ low others, first.verdict = .supported low ∧
          visitAll visit rest first.marks = .ok others ∧
          v = ⟨others.verdict.relyingOn low, others.pending ++ first.pending,
            others.evaluated ++ first.evaluated, others.marks⟩) := by
  unfold visitAll at h
  cases hfirst : visit node marks with
  | error e => simp [hfirst] at h
  | ok first =>
    refine ⟨first, rfl, ?_⟩
    cases hverdict : first.verdict with
    | unsupported =>
      simp only [hfirst, hverdict, Except.ok.injEq] at h
      exact .inl ⟨rfl, h.symm⟩
    | supported low =>
      cases hothers : visitAll visit rest first.marks with
      | error e => simp [hfirst, hverdict, hothers] at h
      | ok others =>
        simp only [hfirst, hverdict, hothers, Except.ok.injEq] at h
        exact .inr ⟨low, others, rfl, rfl, h.symm⟩

/-- A visit finds an earlier mark, or a node that is unsupported by itself, or it opens the node,
visits what it needs and closes it. -/
theorem visit_cases {demand : ν → Except TypeError (Option (List ν))} {levels depth : Nat}
    {node : ν} {marks : Marks ν} {v : Visited ν}
    (h : visit demand levels depth node marks = .ok v) :
    (∃ mark, marks.get? node = some mark ∧ v = ⟨mark.verdict, [], [], marks⟩) ∨
      (marks.get? node = none ∧ demand node = .ok none ∧
        v = ⟨.unsupported, [], [node], marks.set node (.settled false)⟩) ∨
      ∃ below needs visited, levels = below + 1 ∧ marks.get? node = none ∧
        demand node = .ok (some needs) ∧
        visitAll (visit demand below (depth + 1)) needs (marks.set node (.opened depth)) =
          .ok visited ∧
        v = close node depth visited := by
  cases levels with
  | zero => simp [visit] at h
  | succ below =>
    unfold visit at h
    cases hmark : marks.get? node with
    | some mark =>
      simp only [hmark, Except.ok.injEq] at h
      exact .inl ⟨mark, rfl, h.symm⟩
    | none =>
      right
      cases hdemand : demand node with
      | error e => simp [hmark, hdemand] at h
      | ok lacks =>
        cases lacks with
        | none =>
          simp only [hmark, hdemand, Except.ok.injEq] at h
          exact .inl ⟨rfl, rfl, h.symm⟩
        | some needs =>
          right
          cases hvisited :
              visitAll (visit demand below (depth + 1)) needs (marks.set node (.opened depth)) with
          | error e => simp [hmark, hdemand, hvisited] at h
          | ok visited =>
            simp only [hmark, hdemand, hvisited, Except.ok.injEq] at h
            exact ⟨below, needs, visited, rfl, rfl, rfl, hvisited, h.symm⟩

omit [DecidableEq ν] in
/-- A search of several nodes fails when the visit of one does. -/
theorem visitAll_error_cases {visit : ν → Marks ν → Except TypeError (Visited ν)} {node : ν}
    {rest : List ν} {marks : Marks ν} {e : TypeError}
    (h : visitAll visit (node :: rest) marks = .error e) :
    visit node marks = .error e ∨
      ∃ first, visit node marks = .ok first ∧ visitAll visit rest first.marks = .error e := by
  unfold visitAll at h
  cases hfirst : visit node marks with
  | error e' =>
    simp only [hfirst, Except.error.injEq] at h
    exact .inl (congrArg Except.error h)
  | ok first =>
    right
    refine ⟨first, rfl, ?_⟩
    cases hverdict : first.verdict with
    | unsupported => simp [hfirst, hverdict] at h
    | supported low =>
      cases hothers : visitAll visit rest first.marks with
      | ok others => simp [hfirst, hverdict, hothers] at h
      | error e' =>
        simp only [hfirst, hverdict, hothers, Except.error.injEq] at h
        exact congrArg Except.error h

/-- A visit with levels left fails when the node cannot be looked at, or when the search of what it
needs does. -/
theorem visit_error_cases {demand : ν → Except TypeError (Option (List ν))} {levels depth : Nat}
    {node : ν} {marks : Marks ν} {e : TypeError}
    (h : visit demand (levels + 1) depth node marks = .error e) :
    demand node = .error e ∨
      ∃ needs, marks.get? node = none ∧ demand node = .ok (some needs) ∧
        visitAll (visit demand levels (depth + 1)) needs (marks.set node (.opened depth)) =
          .error e := by
  unfold visit at h
  cases hmark : marks.get? node with
  | some mark => simp [hmark] at h
  | none =>
    cases hdemand : demand node with
    | error e' =>
      simp only [hmark, hdemand, Except.error.injEq] at h
      exact .inl (congrArg Except.error h)
    | ok lacks =>
      right
      cases lacks with
      | none => simp [hmark, hdemand] at h
      | some needs =>
        cases hvisited :
            visitAll (visit demand levels (depth + 1)) needs (marks.set node (.opened depth)) with
        | ok visited => simp [hmark, hdemand, hvisited] at h
        | error e' =>
          simp only [hmark, hdemand, hvisited, Except.error.injEq] at h
          exact ⟨needs, rfl, rfl, h ▸ hvisited⟩

end ObjcMetadata.Support
