import ObjcMetadata.Proofs.Support.Once
/-!
The search as a machine.

A search may be run on one register, which all visits share: the marks, the stack of all pending
nodes, and the number of open nodes. A visit raises the depth while its node is open, and when it
closes the node it deals with the part of the stack above the height that the stack had when the
node was opened. `visit` has neither a stack nor a counter: it is given its depth, and it reports
what it leaves pending. Both come to the same (`Register.visit_eq`). So the part of the stack above
the old height is always just what the closed node's own search has left pending, and the depth
comes back to what it was.
-/

namespace ObjcMetadata.Support

/-- What a search keeps while it runs. -/
structure Register (ν : Type) where
  marks : Marks ν := []
  /-- The nodes that are pending, the newest first. -/
  pending : List ν := []
  /-- The number of nodes that are open. -/
  depth : Nat := 0
  /-- The nodes that have been evaluated, the last first. -/
  evaluated : List ν := []
deriving Repr

namespace Register

variable {ν : Type} [DecidableEq ν]

/-! ### Visits on a register -/

/-- Opens a node at the depth of the register. -/
def opening (r : Register ν) (node : ν) : Register ν :=
  { r with marks := r.marks.set node (.opened r.depth), depth := r.depth + 1 }

omit [DecidableEq ν] in
@[simp] theorem opening_marks (r : Register ν) (node : ν) :
    (r.opening node).marks = r.marks.set node (.opened r.depth) :=
  rfl

/-- Closes a node that was opened at a depth, when the stack of pending nodes had a height. -/
def closing (r : Register ν) (node : ν) (depth height : Nat) (needs : Verdict) :
    Verdict × Register ν :=
  let newer := r.pending.take (r.pending.length - height)
  let older := r.pending.drop (r.pending.length - height)
  let closed := { r with depth := r.depth - 1, evaluated := node :: r.evaluated }
  match needs with
  | .unsupported =>
    (.unsupported, { closed with
      marks := (r.marks.eraseAll newer).set node (.settled false), pending := older })
  | .supported low =>
    match low.filter (· < depth) with
    | none =>
      (.supported none, { closed with
        marks := (r.marks.settleAll newer).set node (.settled true), pending := older })
    | some low =>
      (.supported (some low), { closed with
        marks := r.marks.set node (.pending low), pending := node :: r.pending })

/-- Visits nodes in order and stops at the first that is unsupported. -/
def visitAll (visit : ν → Register ν → Except TypeError (Verdict × Register ν)) :
    List ν → Register ν → Except TypeError (Verdict × Register ν)
  | [], r => .ok (.supported none, r)
  | node :: rest, r =>
    match visit node r with
    | .error e => .error e
    | .ok (.unsupported, r) => .ok (.unsupported, r)
    | .ok (.supported low, r) =>
      match visitAll visit rest r with
      | .error e => .error e
      | .ok (verdict, r) => .ok (verdict.relyingOn low, r)

/-- Visits a node. -/
def visit (demand : ν → Except TypeError (Option (List ν))) :
    (levels : Nat) → ν → Register ν → Except TypeError (Verdict × Register ν)
  | 0, _, _ => .error .endlessType
  | levels + 1, node, r =>
    match r.marks.get? node with
    | some mark => .ok (mark.verdict, r)
    | none =>
      match demand node with
      | .error e => .error e
      | .ok none =>
        .ok (.unsupported, { r with
          marks := r.marks.set node (.settled false), evaluated := node :: r.evaluated })
      | .ok (some needs) =>
        match visitAll (visit demand levels) needs (r.opening node) with
        | .error e => .error e
        | .ok (verdict, after) => .ok (after.closing node r.depth r.pending.length verdict)

/-! ### The same search -/

variable {demand : ν → Except TypeError (Option (List ν))}

/-- The register after a visit that is described by itself: what the visit leaves pending is put on
the stack, and the depth is as before. -/
def after (r : Register ν) (v : Visited ν) : Verdict × Register ν :=
  (v.verdict, ⟨v.marks, v.pending ++ r.pending, r.depth, v.evaluated ++ r.evaluated⟩)

/-- What is above the old height of the stack is what the needs of the node have left pending. -/
theorem closing_eq (r : Register ν) (node : ν) (needs : Visited ν) :
    ((r.opening node).after needs).2.closing node r.depth r.pending.length needs.verdict =
      r.after (close node r.depth needs) := by
  have hheight : (needs.pending ++ r.pending).length - r.pending.length = needs.pending.length := by
    rw [List.length_append, Nat.add_sub_cancel]
  rcases verdict_cases needs r.depth with h | ⟨low, h, hlow⟩ | ⟨low, h, hlt⟩
  · rw [close_of_unsupported h]
    simp only [closing, after, opening, h, hheight, List.take_left, List.drop_left]
    rfl
  · rw [close_of_settled h hlow]
    simp only [closing, after, opening, h, hlow, hheight, List.take_left, List.drop_left]
    rfl
  · rw [close_of_pending h hlt]
    have hfilter : (some low).filter (· < r.depth) = some low := by simp [Option.filter, hlt]
    simp only [closing, after, opening, h, hfilter]
    rfl

omit [DecidableEq ν] in
theorem visitAll_eq {visit : ν → Register ν → Except TypeError (Verdict × Register ν)}
    {visit' : ν → Marks ν → Except TypeError (Visited ν)} {depth : Nat}
    (hvisit : ∀ (node : ν) (r : Register ν), r.depth = depth →
      visit node r = (visit' node r.marks).map r.after)
    (nodes : List ν) (r : Register ν) (hdepth : r.depth = depth) :
    visitAll visit nodes r = (Support.visitAll visit' nodes r.marks).map r.after := by
  induction nodes generalizing r with
  | nil => rfl
  | cons node rest ih =>
    unfold visitAll Support.visitAll
    rw [hvisit node r hdepth]
    cases visit' node r.marks with
    | error e => rfl
    | ok first =>
      cases hverdict : first.verdict with
      | unsupported => simp [Except.map, after, hverdict]
      | supported low =>
        have hrest := ih (r.after first).2 hdepth
        simp only [Except.map, after, hverdict] at hrest ⊢
        rw [hrest]
        cases Support.visitAll visit' rest first.marks with
        | error e => rfl
        | ok others => simp [List.append_assoc]

/-- **A visit on a register is a visit by itself**, begun with the marks and at the depth of the
register. -/
theorem visit_eq (levels : Nat) (node : ν) (r : Register ν) :
    r.visit demand levels node =
      (Support.visit demand levels r.depth node r.marks).map r.after := by
  induction levels generalizing node r with
  | zero => rfl
  | succ levels ih =>
    unfold visit Support.visit
    cases r.marks.get? node with
    | some mark => rfl
    | none =>
      cases demand node with
      | error e => rfl
      | ok lacks =>
        cases lacks with
        | none => rfl
        | some needs =>
          have hvisit : ∀ (other : ν) (s : Register ν), s.depth = r.depth + 1 →
              visit demand levels other s =
                (Support.visit demand levels (r.depth + 1) other s.marks).map s.after :=
            fun other s hs => by rw [ih other s, hs]
          have hneeds := visitAll_eq hvisit needs (r.opening node) rfl
          rw [opening_marks] at hneeds
          simp only [hneeds]
          cases Support.visitAll (Support.visit demand levels (r.depth + 1)) needs
              (r.marks.set node (.opened r.depth)) with
          | error e => rfl
          | ok visited => exact congrArg Except.ok (r.closing_eq node visited)

end Register

end ObjcMetadata.Support
