import ObjcMetadata.Proofs.Support.References
import ObjcMetadata.Proofs.Type.Traversal
/-!
Queries that share an analyzer.

An analyzer at rest keeps what it knows, and what it knows of the unsupported nodes is right. It is
`Consistent` if all that it knows to be supported refers only to what it knows to be supported;
then, and only then, all that it knows is what a question with nothing known before would find. A
query with the answer yes keeps an analyzer consistent. A query with the answer no may not: what it
forgets may be something that a verdict, settled at a depth that was used twice, relied on. This is
the only way in which the answers to queries can come to depend on their order
(`judgeEach_agrees_iff`), and it happens (`judgeEach_entangled_disagrees`).
-/

namespace ObjcMetadata

/-! ### Graphs without loose ends -/

/-- The types that a declaration names are nodes. -/
def Declaration.Inside (pool : Pool) (d : Declaration) : Prop :=
  ∀ id ∈ d.ownTypes, pool.contains id = true

instance (pool : Pool) (d : Declaration) : Decidable (d.Inside pool) :=
  inferInstanceAs (Decidable (∀ id ∈ d.ownTypes, _))

namespace Support

open Relation

namespace Graph

/-- A node that can be looked at. -/
def Has (g : Graph) : Node → Prop
  | .type id => g.pool.contains id = true
  | .decl _ => True

/-- References lead only to nodes that can be looked at. -/
def Inside (g : Graph) : Prop :=
  ∀ a b, g.Refers a b → g.Has b

instance (g : Graph) (node : Node) : Decidable (g.Has node) :=
  match node with
  | .type id => inferInstanceAs (Decidable (g.pool.contains id = true))
  | .decl _ => isTrue trivial

variable {g : Graph}

theorem mem_ownTypes_of_demand {d : Declaration} {id : TypeId} (h : .type id ∈ declDemand d) :
    id ∈ d.ownTypes := by
  unfold declDemand at h
  unfold Declaration.ownTypes
  cases hbody : d.body <;> simp_all [List.mem_map]

/-- A closed pool and declarations inside of it make a graph without loose ends. -/
theorem inside_of_closed (hpool : g.pool.Closed)
    (hdecls : ∀ key d, g.lookup.find? key = some d → d.Inside g.pool) : g.Inside := by
  intro a b hrefers
  cases b with
  | decl key => trivial
  | type part =>
    cases a with
    | type id =>
      cases hrefers with
      | part hnode hpart =>
        exact hpool _ (Array.mem_toList_iff.mpr (Array.mem_of_getElem? hnode)) part hpart
    | decl key =>
      obtain ⟨d, hfind, hmem⟩ := refers_decl_iff.mp hrefers
      exact hdecls key d hfind part (mem_ownTypes_of_demand hmem)

/-- A declaration inside of the pool may stand for its key. -/
theorem Inside.overriding (h : g.Inside) {d : Declaration} (hd : d.Inside g.pool) :
    (g.overriding d).Inside := by
  intro a b hrefers
  cases b with
  | decl key => trivial
  | type part =>
    cases a with
    | type id =>
      obtain ⟨node, needs, hnode, hneeds, hmem⟩ := refers_type_iff.mp hrefers
      exact h (.type id) (.type part) (refers_type_iff.mpr ⟨node, needs, hnode, hneeds, hmem⟩)
    | decl key =>
      obtain ⟨e, hfind, hmem⟩ := refers_decl_iff.mp hrefers
      simp only [Graph.overriding, Lookup.overriding] at hfind
      split at hfind
      · obtain rfl : d = e := Option.some.inj hfind
        exact hd part (mem_ownTypes_of_demand hmem)
      · exact h (.decl key) (.type part) (refers_decl_iff.mpr ⟨e, hfind, hmem⟩)

theorem Inside.has_of_leads (h : g.Inside) {a b : Node} (ha : g.Has a)
    (hleads : ReflTransGen g.Refers a b) : g.Has b := by
  induction hleads with
  | refl => exact ha
  | tail _ hrefers _ => exact h _ _ hrefers

theorem has_of_demand {node : Node} {lacks : Option (List Node)} (h : g.demand node = .ok lacks) :
    g.Has node := by
  cases node with
  | type id =>
    rw [demand_type] at h
    cases hnode : g.pool.node? id with
    | none => simp [hnode] at h
    | some node => exact decide_eq_true (Array.getElem?_eq_some_iff.mp hnode).1
  | decl key => trivial

theorem node?_ne_none_of_has {id : TypeId} (h : g.Has (.type id)) : g.pool.node? id ≠ none := by
  have hlt : id.index < g.pool.nodes.size := of_decide_eq_true h
  simp [Pool.node?, hlt]

/-- In a graph without loose ends every visit comes to an end. -/
theorem Inside.visit_total (h : g.Inside) {node : Node} (hnode : g.Has node) (depth : Nat)
    (marks : Marks Node) : ∃ v, visit g.demand g.levels depth node marks = .ok v := by
  cases hvisit : visit g.demand g.levels depth node marks with
  | ok v => exact ⟨v, rfl⟩
  | error e =>
    obtain ⟨id, hleads, hnone, -⟩ := Graph.visit_levels_error hvisit
    exact absurd hnone (node?_ne_none_of_has (h.has_of_leads hnode hleads))

/-- The verdict on a node, with nothing known before. -/
def judge (g : Graph) (node : Node) : Except TypeError Bool :=
  (Analyzer.judgeIn { graph := g } g node).map (·.1)

/-- In a graph without loose ends there is a verdict on every node. -/
theorem Inside.judge_eq_ok_iff (h : g.Inside) {node : Node} (hnode : g.Has node)
    {supported : Bool} :
    g.judge node = .ok supported ↔ (supported = false ↔ g.Unsupported node) := by
  have hjudges := g.judges_visit node
  rw [← judgeIn_map_fst { graph := g } g node] at hjudges
  unfold judge
  cases hjudge : (Analyzer.judgeIn { graph := g } g node).map (·.1) with
  | error e =>
    rw [hjudge] at hjudges
    obtain ⟨id, hleads, hnone, -⟩ := hjudges
    exact absurd hnone (node?_ne_none_of_has (h.has_of_leads hnode hleads))
  | ok answer =>
    rw [hjudge] at hjudges
    have hanswer : answer = false ↔ g.Unsupported node := hjudges
    rw [← hanswer, Except.ok.injEq]
    cases answer <;> cases supported <;> simp

end Graph

/-! ### Analyzers at rest -/

namespace Analyzer

/-- The settled verdict on a node. -/
def known? (a : Analyzer) : Node → Option Bool
  | .type id => a.knownType id
  | .decl key => a.knownKey key

theorem known?_eq (a : Analyzer) (node : Node) : a.known? node = a.marks.settled? node := by
  cases node <;> rfl

/-- All that an analyzer has marked is settled, and it is right about what is unsupported. -/
def Resting (a : Analyzer) : Prop :=
  a.marks.AtRest a.graph.demand

/-- What an analyzer knows to be supported refers only to what it knows to be supported. -/
def Consistent (a : Analyzer) : Prop :=
  ∀ node other, a.known? node = some true → a.graph.Refers node other → a.known? other = some true

theorem resting_fresh (g : Graph) : Resting { graph := g } :=
  Marks.atRest_nil

theorem consistent_iff_closed {a : Analyzer} : a.Consistent ↔ a.marks.Closed a.graph.demand := by
  unfold Consistent Marks.Closed
  simp only [known?_eq, Graph.needs_eq_refers]

theorem consistent_fresh (g : Graph) : Consistent { graph := g } :=
  consistent_iff_closed.mpr Marks.closed_nil

variable {a : Analyzer}

theorem Resting.unsupported (h : a.Resting) {node : Node} (hnode : a.known? node = some false) :
    a.graph.Unsupported node := by
  rw [known?_eq] at hnode
  exact Graph.doomed_iff.mp (h.doomed hnode)

/-- A consistent analyzer is right about what is supported. -/
theorem Resting.supported (h : a.Resting) (hconsistent : a.Consistent) {node : Node}
    (hnode : a.known? node = some true) : ¬ a.graph.Unsupported node := by
  rw [known?_eq] at hnode
  rw [← Graph.doomed_iff]
  exact h.not_doomed (consistent_iff_closed.mp hconsistent) hnode

/-- An analyzer is consistent exactly if it is right about what is supported. -/
theorem Resting.consistent_iff (h : a.Resting) :
    a.Consistent ↔ ∀ node, a.known? node = some true → ¬ a.graph.Unsupported node := by
  rw [consistent_iff_closed, h.closed_iff]
  simp only [known?_eq, Graph.doomed_iff]

theorem Resting.has (h : a.Resting) {node : Node} {supported : Bool}
    (hnode : a.known? node = some supported) : a.graph.Has node := by
  rw [known?_eq] at hnode
  cases supported with
  | true =>
    obtain ⟨needs, hdemand⟩ := h.demand_eq hnode
    exact Graph.has_of_demand hdemand
  | false =>
    obtain ⟨last, hleads, hlacks⟩ := h.doomed hnode
    rcases ReflTransGen.cases_head hleads with rfl | ⟨other, ⟨needs, hdemand, -⟩, -⟩
    · exact Graph.has_of_demand hlacks
    · exact Graph.has_of_demand hdemand

/-- **A consistent analyzer knows what a question with nothing known before would find**, and only
a consistent one does. -/
theorem Resting.consistent_iff_judge (h : a.Resting) (hinside : a.graph.Inside) :
    a.Consistent ↔
      ∀ node supported, a.known? node = some supported → a.graph.judge node = .ok supported := by
  rw [h.consistent_iff]
  constructor
  · intro hright node supported hnode
    rw [hinside.judge_eq_ok_iff (h.has hnode)]
    cases supported with
    | true => simpa using hright node hnode
    | false => simpa using h.unsupported hnode
  · intro hagrees node hnode
    have hjudge := (hinside.judge_eq_ok_iff (h.has hnode)).mp (hagrees node true hnode)
    simpa using hjudge

/-! ### One query -/

/-- One analyzer comes from another by queries. -/
structure Later (a after : Analyzer) : Prop where
  graph : after.graph = a.graph
  resting : after.Resting
  keeps : ∀ node supported, a.known? node = some supported → after.known? node = some supported

theorem Later.refl (h : a.Resting) : Later a a :=
  ⟨rfl, h, fun _ _ hnode => hnode⟩

theorem Later.trans {b c : Analyzer} (h : Later a b) (h' : Later b c) : Later a c where
  graph := h'.graph.trans h.graph
  resting := h'.resting
  keeps node supported hnode := h'.keeps node supported (h.keeps node supported hnode)

/-- What a query comes to. -/
structure Judged (a : Analyzer) (node : Node) (answer : Bool) (after : Analyzer) : Prop
    extends Later a after where
  known : after.known? node = some answer
  consistent : answer = true → a.Consistent → after.Consistent

/-- **A query to an analyzer at rest** leaves it at rest, and it forgets nothing. The graph of the
query may resolve keys by another lookup that makes no difference. -/
theorem judgeIn_judged {g : Graph} {node : Node} {answer : Bool} {after : Analyzer}
    (h : a.judgeIn g node = .ok (answer, after)) (hrest : a.Resting)
    (hdemand : g.demand = a.graph.demand) : Judged a node answer after := by
  unfold judgeIn at h
  cases hvisit : visit g.demand g.levels 0 node a.marks with
  | error e => simp [hvisit] at h
  | ok v =>
    simp only [hvisit, Except.ok.injEq, Prod.mk.injEq] at h
    obtain ⟨rfl, rfl⟩ := h
    have hanswered := visit_atRest hvisit (hdemand ▸ hrest)
    rw [hdemand] at hanswered
    refine ⟨⟨rfl, hanswered.atRest, ?_⟩, ?_, ?_⟩
    · intro other supported hother
      rw [known?_eq] at hother ⊢
      exact hanswered.keeps other supported hother
    · rw [known?_eq]
      exact hanswered.answer
    · intro hsupported hconsistent
      rw [consistent_iff_closed] at hconsistent ⊢
      exact hanswered.closed hsupported hconsistent

/-- In a graph without loose ends every query has an answer. -/
theorem judgeIn_total (a : Analyzer) {g : Graph} (hinside : g.Inside) {node : Node}
    (hnode : g.Has node) : ∃ answer after, a.judgeIn g node = .ok (answer, after) := by
  obtain ⟨v, hvisit⟩ := hinside.visit_total hnode 0 a.marks
  unfold judgeIn
  rw [hvisit]
  exact ⟨_, _, rfl⟩

/-! ### Queries one after the other -/

/-- Judges a type or the declaration of a key. -/
def judge (a : Analyzer) : Node → Answer Bool
  | .type id => a.judgeType id
  | .decl key => a.judgeKey key

theorem judge_eq (a : Analyzer) (node : Node) : a.judge node = a.judgeIn a.graph node := by
  cases node <;> rfl

/-- A query that was made: its node, its answer, and the analyzer after it. -/
structure Query where
  node : Node
  answer : Bool
  after : Analyzer

/-- Judges nodes one after the other. -/
def judgeEach (a : Analyzer) : List Node → Except TypeError (List Query)
  | [] => .ok []
  | node :: rest =>
    match a.judge node with
    | .error e => .error e
    | .ok (answer, after) =>
      match judgeEach after rest with
      | .error e => .error e
      | .ok queries => .ok (⟨node, answer, after⟩ :: queries)

/-- A query agrees with what is found with nothing known before: its answer does, and so does all
that is known after it. -/
def Query.Agrees (g : Graph) (q : Query) : Prop :=
  g.judge q.node = .ok q.answer ∧
    ∀ node supported, q.after.known? node = some supported → g.judge node = .ok supported

/-- Queries to an analyzer at rest have answers, which are known at rest ever after. If each answer
no leaves the analyzer consistent, it is consistent all the time. -/
theorem judgeEach_run {nodes : List Node} (hrest : a.Resting) (hinside : a.graph.Inside)
    (hnodes : ∀ node ∈ nodes, a.graph.Has node) :
    ∃ queries, judgeEach a nodes = .ok queries ∧ queries.map Query.node = nodes ∧
      (∀ q ∈ queries, q.after.graph = a.graph ∧ q.after.Resting ∧
        q.after.known? q.node = some q.answer) ∧
      (a.Consistent → (∀ q ∈ queries, q.answer = false → q.after.Consistent) →
        ∀ q ∈ queries, q.after.Consistent) := by
  induction nodes generalizing a with
  | nil => exact ⟨[], rfl, rfl, by simp, by simp⟩
  | cons node rest ih =>
    obtain ⟨answer, after, hjudge⟩ := a.judgeIn_total hinside (hnodes node List.mem_cons_self)
    have hjudged := judgeIn_judged hjudge hrest rfl
    obtain ⟨queries, hqueries, hasked, hqrest, hconsistent⟩ := ih hjudged.resting
      (hjudged.graph ▸ hinside)
      fun other hmem => hjudged.graph ▸ hnodes other (List.mem_cons_of_mem node hmem)
    refine ⟨⟨node, answer, after⟩ :: queries, ?_, ?_, ?_, ?_⟩
    · simp only [judgeEach, judge_eq, hjudge, hqueries]
    · rw [List.map_cons, hasked]
    · intro q hq
      rcases List.mem_cons.mp hq with rfl | hq
      · exact ⟨hjudged.graph, hjudged.resting, hjudged.known⟩
      · exact hjudged.graph ▸ hqrest q hq
    · intro hstart hno
      have hafter : after.Consistent := by
        cases answer with
        | true => exact hjudged.consistent rfl hstart
        | false => exact hno _ List.mem_cons_self rfl
      intro q hq
      rcases List.mem_cons.mp hq with rfl | hq
      · exact hafter
      · exact hconsistent hafter (fun q hq => hno q (List.mem_cons_of_mem _ hq)) q hq

/-- **Queries to one analyzer agree with questions that are asked by themselves exactly if every
query with the answer no leaves the analyzer consistent.** Wherever references do not lead out of
the pool, all queries have answers, and what is known to be unsupported always agrees. -/
theorem judgeEach_agrees_iff (g : Graph) (nodes : List Node) (hinside : g.Inside)
    (hnodes : ∀ node ∈ nodes, g.Has node) :
    ∃ queries, judgeEach { graph := g } nodes = .ok queries ∧ queries.map Query.node = nodes ∧
      (∀ q ∈ queries, ∀ node, q.after.known? node = some false → g.judge node = .ok false) ∧
      ((∀ q ∈ queries, q.Agrees g) ↔
        ∀ q ∈ queries, q.answer = false → q.after.Consistent) := by
  obtain ⟨queries, hqueries, hasked, hrun, hconsistent⟩ :=
    judgeEach_run (resting_fresh g) hinside hnodes
  refine ⟨queries, hqueries, hasked, ?_, ?_⟩
  · intro q hq node hnode
    obtain ⟨hgraph, hrest, -⟩ := hrun q hq
    have hunsupported := hrest.unsupported hnode
    have hhas := hrest.has hnode
    rw [hgraph] at hunsupported hhas
    exact (hinside.judge_eq_ok_iff hhas).mpr (by simpa using hunsupported)
  have hiff : ∀ q ∈ queries, q.after.Consistent ↔
      ∀ node supported, q.after.known? node = some supported → g.judge node = .ok supported := by
    intro q hq
    obtain ⟨hgraph, hrest, -⟩ := hrun q hq
    have hq := hrest.consistent_iff_judge (hgraph ▸ hinside)
    rwa [hgraph] at hq
  constructor
  · intro hagrees q hq _
    exact (hiff q hq).mpr (hagrees q hq).2
  · intro hno q hq
    have hknown := (hiff q hq).mp (hconsistent (consistent_fresh g) hno q hq)
    exact ⟨hknown q.node q.answer (hrun q hq).2.2, hknown⟩

end Analyzer

/-! ### Answers that depend on the order -/

namespace Entangled

/-- The name of a struct of the example. -/
def name (short : String) : QualifiedName :=
  ⟨"M", short⟩

/-- The structs of the example, each followed by the pointer to it. -/
def pool : Pool :=
  Pool.initial.internAll
    [.struct (name "D"), .pointer ⟨30⟩, .struct (name "E"), .pointer ⟨32⟩,
      .struct (name "X"), .pointer ⟨34⟩, .struct (name "R"), .pointer ⟨36⟩]

/-- Every struct leads to `R`, which has a field of an unsupported kind. -/
def declarations : List Declaration :=
  [⟨name "R", .struct [⟨"d", ⟨31⟩⟩, ⟨"e", ⟨33⟩⟩, ⟨"wide", .ofPrimitive .int128⟩]⟩,
    ⟨name "D", .struct [⟨"x", ⟨35⟩⟩, ⟨"r", ⟨37⟩⟩]⟩,
    ⟨name "X", .struct [⟨"d", ⟨31⟩⟩]⟩,
    ⟨name "E", .struct [⟨"x", ⟨35⟩⟩]⟩]

/-- The graph of the example. -/
def graph : Graph :=
  ⟨pool, (DeclTable.ofList declarations).toLookup⟩

/-- What is asked in the example. -/
def nodes : List Node :=
  [.decl ⟨.struct, name "R"⟩, .decl ⟨.struct, name "E"⟩]

theorem graph_inside : graph.Inside := by
  refine Graph.inside_of_closed (by decide +kernel) ?_
  intro key d hfind
  have hinside : ∀ d ∈ declarations, d.Inside pool := by decide +kernel
  have hfound : declarations.find? (fun d => d.key == key) = some d :=
    (DeclTable.get?_ofList declarations key).symm.trans hfind
  exact hinside d (List.mem_of_find?_eq_some hfound)

end Entangled

namespace Analyzer

/-- In this order the queries agree. -/
theorem judgeEach_entangled_agrees :
    Entangled.graph.Inside ∧ (∀ node ∈ Entangled.nodes.reverse, Entangled.graph.Has node) ∧
      ∃ queries, judgeEach { graph := Entangled.graph } Entangled.nodes.reverse = .ok queries ∧
        queries.map Query.answer = [false, false] ∧
        ((∀ q ∈ queries, q.Agrees Entangled.graph) ↔
          ∀ q ∈ queries, q.answer = false → q.after.Consistent) := by
  obtain ⟨queries, hqueries, -, -, hiff⟩ :=
    judgeEach_agrees_iff Entangled.graph Entangled.nodes.reverse Entangled.graph_inside
      (by decide)
  refine ⟨Entangled.graph_inside, by decide, queries, hqueries, ?_, hiff⟩
  have hanswers : (judgeEach { graph := Entangled.graph } Entangled.nodes.reverse).map
      (·.map Query.answer) = .ok [false, false] := by decide +kernel
  rw [hqueries] at hanswers
  exact Except.ok.inj hanswers

/-- The query of `R` opens `D` and below it `X`, which rely on `R` and on `D`. Then `E` is open at
the depth where `D` was, so what `X` relies on is taken to be `E` itself. Hence `E` is settled as
supported, and stays so when `R` turns out to be unsupported. -/
theorem judgeEach_entangled_disagrees :
    Entangled.graph.Inside ∧ (∀ node ∈ Entangled.nodes, Entangled.graph.Has node) ∧
      ∃ queries, judgeEach { graph := Entangled.graph } Entangled.nodes = .ok queries ∧
        ¬ ∀ q ∈ queries, q.Agrees Entangled.graph := by
  have hnodes : ∀ node ∈ Entangled.nodes, Entangled.graph.Has node := by decide
  obtain ⟨queries, hqueries, hasked, -, -⟩ :=
    judgeEach_run (resting_fresh Entangled.graph) Entangled.graph_inside hnodes
  refine ⟨Entangled.graph_inside, hnodes, queries, hqueries, ?_⟩
  intro hagrees
  have hanswers : (judgeEach { graph := Entangled.graph } Entangled.nodes).map
      (·.map fun q => (q.node, q.answer)) =
        .ok [(.decl ⟨.struct, Entangled.name "R"⟩, false),
          (.decl ⟨.struct, Entangled.name "E"⟩, true)] := by decide +kernel
  have halone : Entangled.graph.judge (.decl ⟨.struct, Entangled.name "E"⟩) = .ok false := by
    decide +kernel
  rw [hqueries] at hanswers
  have hlog : queries.map (fun q => (q.node, q.answer)) = _ := Except.ok.inj hanswers
  have hmem : (Node.decl ⟨.struct, Entangled.name "E"⟩, true) ∈
      queries.map fun q => (q.node, q.answer) := by
    rw [hlog]
    simp
  obtain ⟨q, hq, heq⟩ := List.mem_map.mp hmem
  obtain ⟨hnode, hanswer⟩ := Prod.mk.inj heq
  have hagree := (hagrees q hq).1
  rw [hnode, hanswer, halone] at hagree
  cases hagree

end Analyzer

end Support

end ObjcMetadata
