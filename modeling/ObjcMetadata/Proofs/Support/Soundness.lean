import Mathlib.Logic.Relation
import ObjcMetadata.Proofs.Support.Extension
/-!
What a search finds out is right, up to what it may lose.

A node is doomed if needs lead from it to a node that is unsupported by itself; these are the nodes
that a search may call unsupported. The marks of a search are `Sound`: what is settled as
unsupported is doomed, what is upheld needs only what is favoured or lost, and what is pending leads
to a node that is open no deeper than the pending mark says. Every visit keeps the marks sound
(`visit_found`).

The last part survives the reuse of a depth. When the open node of a depth is closed as pending
itself, the nodes that relied on it lead on to a node that is open further up. So a pending mark may
name too large a depth, but never a depth above which there is nothing to rely on.

What may be lost is a parameter. A search that finds nothing unsupported loses nothing. One that
does forgets what was pending, and all of that leads to an open node and hence is doomed.
-/

namespace ObjcMetadata.Support

open Relation

variable {ν : Type} {demand : ν → Except TypeError (Option (List ν))}

/-! ### Needs -/

/-- One node needs another directly. -/
def Needs (demand : ν → Except TypeError (Option (List ν))) (a b : ν) : Prop :=
  ∃ needs, demand a = .ok (some needs) ∧ b ∈ needs

/-- Needs lead from a node to one that is unsupported by itself. -/
def Doomed (demand : ν → Except TypeError (Option (List ν))) (a : ν) : Prop :=
  ∃ b, ReflTransGen (Needs demand) a b ∧ demand b = .ok none

theorem Doomed.of_leads {a b : ν} (h : ReflTransGen (Needs demand) a b) (hb : Doomed demand b) :
    Doomed demand a := by
  obtain ⟨c, hc, hnone⟩ := hb
  exact ⟨c, h.trans hc, hnone⟩

/-! ### Sound marks -/

namespace Marks

variable [DecidableEq ν]

/-- A node has a mark that takes it to be supported, for good or for the moment. -/
def Favours (marks : Marks ν) (node : ν) : Prop :=
  ∃ mark, marks.get? node = some mark ∧ mark.verdict.isSupported

/-- A node has been closed as supported, for good or pending. -/
def Upholds (marks : Marks ν) (node : ν) : Prop :=
  marks.get? node = some (.settled true) ∨ ∃ low, marks.get? node = some (.pending low)

/-- Needs lead from a node to one that is open at this depth or further up. -/
def LeadsToOpen (demand : ν → Except TypeError (Option (List ν))) (marks : Marks ν) (node : ν)
    (low : Nat) : Prop :=
  ∃ head depth, depth ≤ low ∧ marks.get? head = some (.opened depth) ∧
    ReflTransGen (Needs demand) node head

/-- The marks say nothing wrong, but for what may be `lost`. -/
structure Sound (demand : ν → Except TypeError (Option (List ν))) (lost : ν → Prop)
    (marks : Marks ν) : Prop where
  doomed : ∀ node, marks.get? node = some (.settled false) → Doomed demand node
  needs : ∀ node, marks.Upholds node →
    ∃ needs, demand node = .ok (some needs) ∧ ∀ need ∈ needs, marks.Favours need ∨ lost need
  pending : ∀ node low, marks.get? node = some (.pending low) → marks.LeadsToOpen demand node low

variable {marks marks' : Marks ν} {node other : ν} {lost : ν → Prop} {low depth : Nat}

theorem Upholds.favours (h : marks.Upholds node) : marks.Favours node := by
  rcases h with h | ⟨low, h⟩
  · exact ⟨_, h, rfl⟩
  · exact ⟨_, h, rfl⟩

theorem Favours.of_get?_eq (h : marks.Favours node) (heq : marks'.get? node = marks.get? node) :
    marks'.Favours node := by
  obtain ⟨mark, hmark, hs⟩ := h
  exact ⟨mark, heq.trans hmark, hs⟩

theorem Upholds.of_get?_eq (h : marks.Upholds node) (heq : marks'.get? node = marks.get? node) :
    marks'.Upholds node := by
  rw [Upholds, heq]
  exact h

theorem LeadsToOpen.mono (h : marks.LeadsToOpen demand node low)
    (hopen : ∀ head depth, marks.get? head = some (.opened depth) →
      marks'.get? head = some (.opened depth)) : marks'.LeadsToOpen demand node low := by
  obtain ⟨head, depth, hle, hhead, hleads⟩ := h
  exact ⟨head, depth, hle, hopen head depth hhead, hleads⟩

theorem LeadsToOpen.of_leads (h : marks.LeadsToOpen demand other low)
    (hleads : ReflTransGen (Needs demand) node other) : marks.LeadsToOpen demand node low := by
  obtain ⟨head, depth, hle, hhead, hother⟩ := h
  exact ⟨head, depth, hle, hhead, hleads.trans hother⟩

theorem sound_nil : Sound demand lost ([] : Marks ν) where
  doomed node h := by simp [get?] at h
  needs node h := by
    rcases h with h | ⟨low, h⟩
    · simp [get?] at h
    · simp [get?] at h
  pending node low h := by simp [get?] at h

/-- Marks stay sound when a node that has none is opened, or is found to be doomed. -/
theorem Sound.set_unmarked {mark : Mark} (h : marks.Sound demand lost)
    (hnone : marks.get? node = none)
    (hmark : (∃ depth, mark = .opened depth) ∨ mark = .settled false ∧ Doomed demand node) :
    (marks.set node mark).Sound demand lost where
  doomed other hother := by
    rw [get?_set] at hother
    split_ifs at hother with heq
    · rcases hmark with ⟨depth, rfl⟩ | ⟨-, hdoomed⟩
      · cases hother
      · exact heq ▸ hdoomed
    · exact h.doomed other hother
  needs other hother := by
    have hne : other ≠ node := by
      rintro rfl
      rcases hmark with ⟨depth, rfl⟩ | ⟨rfl, -⟩ <;> simp [Upholds] at hother
    have hold : marks.Upholds other := hother.of_get?_eq (by simp [hne])
    obtain ⟨needs, hdemand, hneeds⟩ := h.needs other hold
    refine ⟨needs, hdemand, fun need hmem => (hneeds need hmem).imp_left fun hf => ?_⟩
    have hneed : need ≠ node := by
      rintro rfl
      obtain ⟨mark, hmark, -⟩ := hf
      simp [hnone] at hmark
    exact hf.of_get?_eq (by simp [hneed])
  pending other low hother := by
    rw [get?_set] at hother
    split_ifs at hother with heq
    · rcases hmark with ⟨depth, rfl⟩ | ⟨rfl, -⟩ <;> cases hother
    · refine (h.pending other low hother).mono ?_
      intro head depth' hhead
      have hne : head ≠ node := by
        rintro rfl
        simp [hnone] at hhead
      simpa [hne] using hhead

end Marks

/-! ### What a search has found -/

variable [DecidableEq ν] {lost : ν → Prop} {marks : Marks ν} {node : ν}

/-- What the verdict of a search says about the nodes that were searched. -/
structure Found (demand : ν → Except TypeError (Option (List ν))) (nodes : List ν)
    (marks : Marks ν) (v : Visited ν) : Prop where
  doomed : v.verdict = .unsupported → ∃ node ∈ nodes, Doomed demand node
  favoured : v.verdict.isSupported → ∀ node ∈ nodes, v.marks.Favours node
  low : ∀ low, v.verdict = .supported (some low) →
    ∃ node ∈ nodes, marks.LeadsToOpen demand node low

/-- A node that was opened at a depth, with all that is known when its needs have been visited. -/
structure Closing (demand : ν → Except TypeError (Option (List ν))) (lost : ν → Prop) (node : ν)
    (depth : Nat) (marks : Marks ν) (needs : List ν) (visited : Visited ν) : Prop where
  unmarked : marks.get? node = none
  sound : marks.Sound demand lost
  heads : ∀ head depth, marks.get? head = some (.opened depth) →
    ReflTransGen (Needs demand) head node
  demand_eq : demand node = .ok (some needs)
  extends_opened : Extends (marks.set node (.opened depth)) visited.marks visited.pending
  sound_visited : visited.marks.Sound demand lost
  found : Found demand needs (marks.set node (.opened depth)) visited

namespace Closing

variable {depth : Nat} {needs : List ν} {visited : Visited ν}

theorem opened (c : Closing demand lost node depth marks needs visited) :
    visited.marks.get? node = some (.opened depth) :=
  c.extends_opened.keeps node _ (by simp)

/-- Whatever is open when the node is closed was open before, the node itself apart. -/
theorem opened_before (c : Closing demand lost node depth marks needs visited) {head : ν}
    {depth' : Nat} (h : visited.marks.get? head = some (.opened depth')) :
    head = node ∧ depth' = depth ∨ head ≠ node ∧ marks.get? head = some (.opened depth') := by
  have hbefore := c.extends_opened.opened_iff.mp h
  rw [Marks.get?_set] at hbefore
  split_ifs at hbefore with heq
  · cases hbefore
    exact .inl ⟨heq, rfl⟩
  · exact .inr ⟨heq, hbefore⟩

/-- When the needs of the node are unsupported, all that is pending below it is doomed. -/
theorem doomed_pending (c : Closing demand lost node depth marks needs visited)
    (hdoomed : Doomed demand node) {other : ν} (hmem : other ∈ visited.pending) :
    Doomed demand other := by
  obtain ⟨-, low, hlow⟩ := c.extends_opened.pending other hmem
  obtain ⟨head, depth', -, hhead, hleads⟩ := c.sound_visited.pending other low hlow
  rcases c.opened_before hhead with ⟨rfl, -⟩ | ⟨-, hopen⟩
  · exact .of_leads hleads hdoomed
  · exact .of_leads (hleads.trans (c.heads head depth' hopen)) hdoomed

/-- Closing the node keeps every mark that is older than it. -/
theorem extends_close (c : Closing demand lost node depth marks needs visited) :
    Extends marks (close node depth visited).marks (close node depth visited).pending :=
  Support.extends_close c.unmarked c.extends_opened

/-- A pending mark that is not new still leads to an open node when the node is closed. -/
theorem leads_after (c : Closing demand lost node depth marks needs visited) {other : ν}
    {low : Nat} (hne : other ≠ node) (hnew : other ∉ visited.pending)
    (h : visited.marks.get? other = some (.pending low)) :
    (close node depth visited).marks.LeadsToOpen demand other low := by
  have hbefore := c.extends_opened.pending_before h hnew
  rw [Marks.get?_set, if_neg hne] at hbefore
  exact (c.sound.pending other low hbefore).mono fun head depth' => c.extends_close.keeps head _

theorem doomed (c : Closing demand lost node depth marks needs visited)
    (h : visited.verdict = .unsupported) : Doomed demand node := by
  obtain ⟨need, hmem, hdoomed⟩ := c.found.doomed h
  exact .of_leads (.single ⟨needs, c.demand_eq, hmem⟩) hdoomed

/-- Closing a node as unsupported forgets what is pending, which is lost anyway. -/
theorem sound_of_unsupported (c : Closing demand lost node depth marks needs visited)
    (h : visited.verdict = .unsupported) (hlost : ∀ other, Doomed demand other → lost other) :
    (close node depth visited).marks.Sound demand lost := by
  have hdoomed := c.doomed h
  have hget : ∀ other, (close node depth visited).marks.get? other =
      if other = node then some (.settled false)
      else if other ∈ visited.pending then none else visited.marks.get? other := by
    intro other
    rw [close_of_unsupported h, Marks.get?_set, Marks.get?_eraseAll]
  constructor
  · intro other hother
    rw [hget] at hother
    split_ifs at hother with heq hmem
    · exact heq ▸ hdoomed
    · exact c.sound_visited.doomed other hother
  · intro other hother
    have hold : visited.marks.Upholds other := by
      unfold Marks.Upholds at hother
      rw [hget] at hother
      split_ifs at hother with heq hmem
      · simp at hother
      · simp at hother
      · exact hother
    obtain ⟨needs', hdemand, hneeds⟩ := c.sound_visited.needs other hold
    refine ⟨needs', hdemand, ?_⟩
    intro need hneed
    by_cases heq : need = node
    · exact .inr (hlost need (heq ▸ hdoomed))
    by_cases hmem : need ∈ visited.pending
    · exact .inr (hlost need (c.doomed_pending hdoomed hmem))
    · exact (hneeds need hneed).imp_left fun hf => hf.of_get?_eq (by rw [hget]; simp [heq, hmem])
  · intro other low hother
    rw [hget] at hother
    split_ifs at hother with heq hmem
    · cases hother
    · exact c.leads_after heq hmem hother

/-- Closing a node that relies on nothing above it settles what is pending below it. -/
theorem sound_of_settled (c : Closing demand lost node depth marks needs visited)
    {low : Option Nat} (h : visited.verdict = .supported low)
    (hlow : low.filter (· < depth) = none) :
    (close node depth visited).marks.Sound demand lost := by
  have hget : ∀ other, (close node depth visited).marks.get? other =
      if other = node ∨ other ∈ visited.pending then some (.settled true)
      else visited.marks.get? other := by
    intro other
    rw [close_of_settled h hlow, Marks.get?_set, Marks.get?_settleAll]
    by_cases heq : other = node
    · simp [heq]
    · simp [heq]
  have hfavours : ∀ other, visited.marks.Favours other →
      (close node depth visited).marks.Favours other := by
    intro other hother
    by_cases hmem : other = node ∨ other ∈ visited.pending
    · exact ⟨.settled true, by rw [hget, if_pos hmem], rfl⟩
    · exact hother.of_get?_eq (by rw [hget, if_neg hmem])
  constructor
  · intro other hother
    rw [hget] at hother
    split_ifs at hother with hmem
    · cases hother
    · exact c.sound_visited.doomed other hother
  · intro other hother
    have hneeds : ∃ needs', demand other = .ok (some needs') ∧
        ∀ need ∈ needs', visited.marks.Favours need ∨ lost need := by
      by_cases heq : other = node
      · subst heq
        refine ⟨needs, c.demand_eq, ?_⟩
        intro need hmem
        exact .inl (c.found.favoured (by rw [h]; rfl) need hmem)
      by_cases hmem : other ∈ visited.pending
      · obtain ⟨-, hpending⟩ := c.extends_opened.pending other hmem
        exact c.sound_visited.needs other (.inr hpending)
      · exact c.sound_visited.needs other (hother.of_get?_eq (by rw [hget]; simp [heq, hmem]))
    obtain ⟨needs', hdemand, hall⟩ := hneeds
    exact ⟨needs', hdemand, fun need hmem => (hall need hmem).imp_left (hfavours need)⟩
  · intro other low hother
    rw [hget] at hother
    split_ifs at hother with hmem
    · cases hother
    · obtain ⟨hne, hnew⟩ := not_or.mp hmem
      exact c.leads_after hne hnew hother

/-- A node that relies on a depth above its own leads to a node that was open before it. -/
theorem leads_of_pending (c : Closing demand lost node depth marks needs visited) {low : Nat}
    (h : visited.verdict = .supported (some low)) (hlt : low < depth) :
    marks.LeadsToOpen demand node low := by
  obtain ⟨need, hmem, head, depth', hle, hhead, hleads⟩ := c.found.low low h
  rcases c.opened_before (c.extends_opened.keeps head _ hhead) with ⟨-, rfl⟩ | ⟨-, hopen⟩
  · omega
  · exact ⟨head, depth', hle, hopen, hleads.head ⟨needs, c.demand_eq, hmem⟩⟩

/-- Closing a node as pending hands on what relied on it: that leads further up now. -/
theorem sound_of_pending (c : Closing demand lost node depth marks needs visited) {low : Nat}
    (h : visited.verdict = .supported (some low)) (hlt : low < depth) :
    (close node depth visited).marks.Sound demand lost := by
  have hget : ∀ other, (close node depth visited).marks.get? other =
      if other = node then some (.pending low) else visited.marks.get? other := by
    intro other
    rw [close_of_pending h hlt, Marks.get?_set]
  have hfavours : ∀ other, visited.marks.Favours other →
      (close node depth visited).marks.Favours other := by
    intro other hother
    by_cases heq : other = node
    · exact ⟨.pending low, by rw [hget, if_pos heq], rfl⟩
    · exact hother.of_get?_eq (by rw [hget, if_neg heq])
  have hup := c.leads_of_pending h hlt
  constructor
  · intro other hother
    rw [hget] at hother
    split_ifs at hother with heq
    · cases hother
    · exact c.sound_visited.doomed other hother
  · intro other hother
    have hneeds : ∃ needs', demand other = .ok (some needs') ∧
        ∀ need ∈ needs', visited.marks.Favours need ∨ lost need := by
      by_cases heq : other = node
      · subst heq
        refine ⟨needs, c.demand_eq, ?_⟩
        intro need hmem
        exact .inl (c.found.favoured (by rw [h]; rfl) need hmem)
      · exact c.sound_visited.needs other (hother.of_get?_eq (by rw [hget]; simp [heq]))
    obtain ⟨needs', hdemand, hall⟩ := hneeds
    exact ⟨needs', hdemand, fun need hmem => (hall need hmem).imp_left (hfavours need)⟩
  · intro other low' hother
    refine Marks.LeadsToOpen.mono ?_ fun head depth' => c.extends_close.keeps head _
    rw [hget] at hother
    split_ifs at hother with heq
    · cases hother
      exact heq ▸ hup
    · obtain ⟨head, depth', hle, hhead, hleads⟩ := c.sound_visited.pending other low' hother
      rcases c.opened_before hhead with ⟨rfl, rfl⟩ | ⟨-, hopen⟩
      · -- The node was the one that `other` relied on, and its own low depth is smaller still.
        obtain ⟨head', depth'', hle', hhead', hleads'⟩ := hup.of_leads hleads
        exact ⟨head', depth'', by omega, hhead', hleads'⟩
      · exact ⟨head, depth', hle, hopen, hleads⟩

/-- What is found of a node when it is closed. The doomed nodes may be lost if it is unsupported. -/
theorem sound_close (c : Closing demand lost node depth marks needs visited)
    (hlost : (close node depth visited).verdict = .unsupported →
      ∀ other, Doomed demand other → lost other) :
    (close node depth visited).marks.Sound demand lost ∧
      Found demand [node] marks (close node depth visited) := by
  rcases verdict_cases visited depth with h | ⟨low, h, hlow⟩ | ⟨low, h, hlt⟩
  · have hclose : close node depth visited = _ := close_of_unsupported h
    refine ⟨c.sound_of_unsupported h (hlost (by rw [hclose])), ?_⟩
    exact {
      doomed := fun _ => ⟨node, List.mem_singleton_self node, c.doomed h⟩
      favoured := fun hs => by rw [hclose] at hs; cases hs
      low := fun low hs => by rw [hclose] at hs; cases hs }
  · have hclose : close node depth visited = _ := close_of_settled h hlow
    refine ⟨c.sound_of_settled h hlow, ?_⟩
    exact {
      doomed := fun hs => by rw [hclose] at hs; cases hs
      favoured := fun _ other hmem => by
        rw [List.mem_singleton.mp hmem, hclose]
        exact ⟨.settled true, by simp, rfl⟩
      low := fun low hs => by rw [hclose] at hs; cases hs }
  · have hclose : close node depth visited = _ := close_of_pending h hlt
    refine ⟨c.sound_of_pending h hlt, ?_⟩
    exact {
      doomed := fun hs => by rw [hclose] at hs; cases hs
      favoured := fun _ other hmem => by
        rw [List.mem_singleton.mp hmem, hclose]
        exact ⟨.pending low, by simp, rfl⟩
      low := fun low' hs => by
        rw [hclose] at hs
        cases hs
        exact ⟨node, List.mem_singleton_self node, c.leads_of_pending h hlt⟩ }

end Closing

/-- What a mark says of its node is found already. -/
theorem found_marked {mark : Mark} (hs : marks.Sound demand lost)
    (hmark : marks.get? node = some mark) :
    Found demand [node] marks ⟨mark.verdict, [], [], marks⟩ where
  doomed hverdict := by
    refine ⟨node, List.mem_singleton_self node, hs.doomed node ?_⟩
    cases mark with
    | opened depth => cases hverdict
    | pending low => cases hverdict
    | settled supported =>
      cases supported with
      | false => exact hmark
      | true => cases hverdict
  favoured hfavoured other hmem := by
    rw [List.mem_singleton.mp hmem]
    exact ⟨mark, hmark, hfavoured⟩
  low low hverdict := by
    refine ⟨node, List.mem_singleton_self node, ?_⟩
    cases mark with
    | opened depth =>
      cases hverdict
      exact ⟨node, low, Nat.le_refl low, hmark, .refl⟩
    | pending low' =>
      cases hverdict
      exact hs.pending node low hmark
    | settled supported => cases supported <;> cases hverdict

/-- A search of several nodes goes on from one that is favoured. -/
theorem found_cons {first others : Visited ν} {low : Option Nat} {rest : List ν}
    (hfirst : Found demand [node] marks first) (hverdict : first.verdict = .supported low)
    (hopened : ∀ head depth, first.marks.get? head = some (.opened depth) →
      marks.get? head = some (.opened depth))
    (hkeeps : ∀ other, first.marks.Favours other → others.marks.Favours other)
    (hothers : Found demand rest first.marks others) (pending evaluated : List ν) :
    Found demand (node :: rest) marks
      ⟨others.verdict.relyingOn low, pending, evaluated, others.marks⟩ where
  doomed h := by
    have hunsupported : others.verdict = .unsupported := by
      cases hv : others.verdict with
      | unsupported => rfl
      | supported low' => simp [hv, Verdict.relyingOn] at h
    obtain ⟨other, hmem, hdoomed⟩ := hothers.doomed hunsupported
    exact ⟨other, List.mem_cons_of_mem node hmem, hdoomed⟩
  favoured h other hmem := by
    rcases List.mem_cons.mp hmem with rfl | hmem
    · have hfavours := hfirst.favoured (by rw [hverdict]; rfl) other (List.mem_singleton_self other)
      exact hkeeps other hfavours
    · refine hothers.favoured ?_ other hmem
      cases hv : others.verdict with
      | unsupported => simp [hv, Verdict.relyingOn, Verdict.isSupported] at h
      | supported low' => rfl
  low low' h := by
    cases hv : others.verdict with
    | unsupported => simp [hv, Verdict.relyingOn] at h
    | supported low'' =>
      simp only [hv, Verdict.relyingOn, Verdict.supported.injEq] at h
      rcases Verdict.eq_or_eq_of_lowest h with rfl | rfl
      · obtain ⟨other, hmem, hleads⟩ := hfirst.low low' hverdict
        rw [List.mem_singleton.mp hmem] at hleads
        exact ⟨node, List.mem_cons_self, hleads⟩
      · obtain ⟨other, hmem, hleads⟩ := hothers.low low' hv
        exact ⟨other, List.mem_cons_of_mem node hmem, hleads.mono hopened⟩

theorem visitAll_found {visit : ν → Marks ν → Except TypeError (Visited ν)}
    (hextends : ∀ node marks v, visit node marks = .ok v → Extends marks v.marks v.pending)
    (hvisit : ∀ node marks v, visit node marks = .ok v → marks.Sound demand lost →
      (∀ head depth, marks.get? head = some (.opened depth) →
        ReflTransGen (Needs demand) head node) →
      (v.verdict = .unsupported → ∀ other, Doomed demand other → lost other) →
      v.marks.Sound demand lost ∧ Found demand [node] marks v)
    {nodes : List ν} {marks : Marks ν} {v : Visited ν} (h : visitAll visit nodes marks = .ok v)
    (hs : marks.Sound demand lost)
    (hheads : ∀ node ∈ nodes, ∀ head depth, marks.get? head = some (.opened depth) →
      ReflTransGen (Needs demand) head node)
    (hlost : v.verdict = .unsupported → ∀ other, Doomed demand other → lost other) :
    v.marks.Sound demand lost ∧ Found demand nodes marks v := by
  induction nodes generalizing marks v with
  | nil =>
    simp only [visitAll, Except.ok.injEq] at h
    subst h
    exact ⟨hs, by simp, by simp, by simp⟩
  | cons node rest ih =>
    have hnode := hheads node List.mem_cons_self
    obtain ⟨first, hfirst, ⟨hverdict, rfl⟩ | ⟨low, others, hverdict, hothers, rfl⟩⟩ :=
      visitAll_cons_cases h
    · obtain ⟨hs', hf⟩ := hvisit node marks _ hfirst hs hnode hlost
      refine ⟨hs', ?_, ?_, ?_⟩
      · intro hunsupported
        obtain ⟨other, hmem, hdoomed⟩ := hf.doomed hunsupported
        exact ⟨node, List.mem_cons_self, List.mem_singleton.mp hmem ▸ hdoomed⟩
      · intro hsupported
        rw [hverdict] at hsupported
        cases hsupported
      · intro low hlow
        rw [hverdict] at hlow
        cases hlow
    · have hext := hextends node marks first hfirst
      obtain ⟨hs', hf⟩ := hvisit node marks first hfirst hs hnode fun hunsupported => by
        rw [hverdict] at hunsupported
        cases hunsupported
      have hopened : ∀ head depth, first.marks.get? head = some (.opened depth) →
          marks.get? head = some (.opened depth) := fun head depth => hext.opened_iff.mp
      obtain ⟨hs'', hf'⟩ := ih hothers hs'
        (fun other hmem head depth hhead =>
          hheads other (List.mem_cons_of_mem node hmem) head depth (hopened head depth hhead))
        (fun hunsupported => hlost (by simp [hunsupported, Verdict.relyingOn]))
      refine ⟨hs'', found_cons hf hverdict hopened (fun other hother => ?_) hf' _ _⟩
      obtain ⟨mark, hmark, hsupported⟩ := hother
      exact ⟨mark, (visitAll_extends hextends hothers).keeps other mark hmark, hsupported⟩

/-- **A visit keeps the marks sound**, and its verdict is right up to the nodes that are open: an
unsupported node is doomed, and a supported one is favoured and leads to the depth that its verdict
relies on. Every node that is open when the visit begins must lead to the visited one. -/
theorem visit_found {levels depth : Nat} {v : Visited ν}
    (h : visit demand levels depth node marks = .ok v) (hs : marks.Sound demand lost)
    (hheads : ∀ head depth, marks.get? head = some (.opened depth) →
      ReflTransGen (Needs demand) head node)
    (hlost : v.verdict = .unsupported → ∀ other, Doomed demand other → lost other) :
    v.marks.Sound demand lost ∧ Found demand [node] marks v := by
  induction levels generalizing depth node marks v with
  | zero => simp [visit] at h
  | succ levels ih =>
    rcases visit_cases h with ⟨mark, hmark, rfl⟩ | ⟨hnone, hlacks, rfl⟩ |
      ⟨below, needs, visited, hbelow, hnone, hdemand, hvisited, rfl⟩
    · exact ⟨hs, found_marked hs hmark⟩
    · have hdoomed : Doomed demand node := ⟨node, .refl, hlacks⟩
      have hs' := hs.set_unmarked hnone (.inr ⟨rfl, hdoomed⟩)
      refine ⟨hs', ?_, by simp [Verdict.isSupported], by simp⟩
      intro _
      exact ⟨node, List.mem_singleton_self node, hdoomed⟩
    · obtain rfl : levels = below := Nat.succ.inj hbelow
      have hopened := hs.set_unmarked hnone (.inl ⟨depth, rfl⟩)
      have hneeds : ∀ need ∈ needs, ∀ head depth',
          (marks.set node (.opened depth)).get? head = some (.opened depth') →
          ReflTransGen (Needs demand) head need := by
        intro need hmem head depth' hhead
        have hstep : Needs demand node need := ⟨needs, hdemand, hmem⟩
        rw [Marks.get?_set] at hhead
        split_ifs at hhead with heq
        · exact heq ▸ .single hstep
        · exact (hheads head depth' hhead).tail hstep
      obtain ⟨hs', hf⟩ := visitAll_found (fun _ _ _ => visit_extends) (fun _ _ _ => ih) hvisited
        hopened hneeds fun hunsupported => hlost (by rw [close_of_unsupported hunsupported])
      have hextends := visitAll_extends (fun _ _ _ => visit_extends) hvisited
      have hclosing : Closing demand lost node depth marks needs visited :=
        ⟨hnone, hs, hheads, hdemand, hextends, hs', hf⟩
      exact hclosing.sound_close hlost

end ObjcMetadata.Support
