import ObjcMetadata.Proofs.Support.References
/-!
Support depends only on what is resolved.

A lookup bounds the search for what is supported by the keys that it has in store, which may be more
than those that it resolves. Two graphs `Agree` if they have one pool and resolve all keys alike;
then their levels differ, but both are enough, so every query to analyzers that agree has the same
answer and leaves analyzers that agree (`Analyzer.Queries`).
-/

namespace ObjcMetadata.Support

/-! ### Graphs -/

/-- Two graphs have one pool and resolve all keys alike. -/
structure Graph.Agree (g h : Graph) : Prop where
  pool : g.pool = h.pool
  find? : g.lookup.find? = h.lookup.find?

namespace Graph.Agree

variable {g h : Graph}

theorem demand_eq (hagree : g.Agree h) : g.demand = h.demand := by
  funext node
  cases node with
  | type id => simp only [demand, hagree.pool]
  | decl key => simp only [demand, hagree.find?]

theorem overriding (hagree : g.Agree h) (d : Declaration) :
    (g.overriding d).Agree (h.overriding d) where
  pool := hagree.pool
  find? := by
    funext key
    simp only [Graph.overriding, Lookup.overriding, hagree.find?]

/-- The levels of both graphs are enough. -/
theorem visit_eq (hagree : g.Agree h) (node : Node) (marks : Marks Node) :
    visit g.demand g.levels 0 node marks = visit h.demand h.levels 0 node marks := by
  rw [← hagree.demand_eq]
  have hnodes : ∀ node need needs, g.demand node = .ok (some (need :: needs)) →
      node ∈ g.nodes ∩ h.nodes := by
    intro node need needs hdemand
    refine Finset.mem_inter.mpr ⟨mem_nodes_of_demand hdemand, ?_⟩
    rw [hagree.demand_eq] at hdemand
    exact mem_nodes_of_demand hdemand
  have hlevels : ∀ k : Graph, g.nodes ∩ h.nodes ⊆ k.nodes →
      (unopened (g.nodes ∩ h.nodes) marks).card < k.levels := by
    intro k hsubset
    refine Nat.lt_of_le_of_lt ?_ k.card_nodes_lt_levels
    exact Finset.card_le_card ((Finset.filter_subset _ _).trans hsubset)
  exact visit_levels_eq hnodes (hlevels g Finset.inter_subset_left)
    (hlevels h Finset.inter_subset_right)

end Graph.Agree

/-! ### Analyzers -/

/-- Two analyzers know the same of graphs that agree. -/
structure Analyzer.Agree (a b : Analyzer) : Prop where
  graph : a.graph.Agree b.graph
  marks : a.marks = b.marks

/-- Two answers are the same and leave analyzers that agree, or both fail alike. -/
inductive Answer.Agree {α : Type} : Answer α → Answer α → Prop where
  | ok {x : α} {a b : Analyzer} : a.Agree b → Agree (.ok (x, a)) (.ok (x, b))
  | error (e : TypeError) : Agree (.error e) (.error e)

theorem Answer.agree_iff {α : Type} {r s : Answer α} :
    Answer.Agree r s ↔
      (∃ e, r = .error e ∧ s = .error e) ∨
        ∃ x a b, r = .ok (x, a) ∧ s = .ok (x, b) ∧ Analyzer.Agree a b := by
  constructor
  · rintro (hab | e)
    · exact .inr ⟨_, _, _, rfl, rfl, hab⟩
    · exact .inl ⟨e, rfl, rfl⟩
  · rintro (⟨e, rfl, rfl⟩ | ⟨x, a, b, rfl, rfl, hab⟩)
    · exact .error e
    · exact .ok hab

namespace Analyzer

/-- A query that gives analyzers that agree answers that agree. -/
def Queries {α β : Type} (query : Analyzer → α → Answer β) : Prop :=
  ∀ a b x, a.Agree b → Answer.Agree (query a x) (query b x)

theorem Agree.judgeIn {a b : Analyzer} {g h : Graph} (hab : a.Agree b) (hgh : g.Agree h)
    (node : Node) : Answer.Agree (a.judgeIn g node) (b.judgeIn h node) := by
  unfold Analyzer.judgeIn
  rw [hab.marks, hgh.visit_eq node b.marks]
  cases visit h.demand h.levels 0 node b.marks with
  | error e => exact .error e
  | ok visited => exact .ok ⟨hab.graph, rfl⟩

theorem queries_judgeType : Queries judgeType :=
  fun _ _ id hab => hab.judgeIn hab.graph (.type id)

theorem queries_judgeDecl : Queries judgeDecl :=
  fun _ _ d hab => hab.judgeIn (hab.graph.overriding d) (.decl d.key)

section Lists

variable {α : Type} {judge : Analyzer → α → Answer Bool}

theorem Queries.judgeAll (hjudge : Queries judge) : Queries (judgeAll judge) := by
  intro a b xs hab
  induction xs generalizing a b with
  | nil => exact .ok hab
  | cons x rest ih =>
    unfold Analyzer.judgeAll
    rcases Answer.agree_iff.mp (hjudge a b x hab) with
      ⟨e, ha, hb⟩ | ⟨answer, a', b', ha, hb, hnext⟩
    · simp only [ha, hb]
      exact .error e
    · simp only [ha, hb]
      cases answer with
      | false => exact .ok hnext
      | true => exact ih a' b' hnext

theorem Queries.select (hjudge : Queries judge) : Queries (select judge) := by
  intro a b xs hab
  induction xs generalizing a b with
  | nil => exact .ok hab
  | cons x rest ih =>
    unfold Analyzer.select
    rcases Answer.agree_iff.mp (hjudge a b x hab) with
      ⟨e, ha, hb⟩ | ⟨answer, a', b', ha, hb, hnext⟩
    · simp only [ha, hb]
      exact .error e
    · rcases Answer.agree_iff.mp (ih a' b' hnext) with
        ⟨e, ha', hb'⟩ | ⟨kept, a'', b'', ha', hb', hlast⟩
      · simp only [ha, hb, ha', hb']
        exact .error e
      · simp only [ha, hb, ha', hb']
        exact .ok hlast

end Lists

theorem queries_judgeMethod : Queries judgeMethod := by
  intro a b m hab
  unfold judgeMethod
  split
  · exact .ok hab
  · exact queries_judgeType.judgeAll a b m.signature hab

theorem queries_judgeProperty : Queries judgeProperty := by
  intro a b p hab
  unfold judgeProperty
  rcases Answer.agree_iff.mp (queries_judgeType a b p.type hab) with
    ⟨e, ha, hb⟩ | ⟨answer, a', b', ha, hb, hnext⟩
  · simp only [ha, hb]
    exact .error e
  · simp only [ha, hb]
    cases answer with
    | false => exact .ok hnext
    | true => exact queries_judgeMethod.judgeAll a' b' p.accessors hnext

theorem queries_selectMembers : Queries selectMembers := by
  intro a b m hab
  unfold selectMembers
  rcases Answer.agree_iff.mp (queries_judgeMethod.select a b m.instanceMethods hab) with
    ⟨e, ha, hb⟩ | ⟨instanceMethods, a', b', ha, hb, hfirst⟩
  · simp only [ha, hb]
    exact .error e
  · rcases Answer.agree_iff.mp (queries_judgeMethod.select a' b' m.classMethods hfirst) with
      ⟨e, ha', hb'⟩ | ⟨classMethods, a'', b'', ha', hb', hsecond⟩
    · simp only [ha, hb, ha', hb']
      exact .error e
    · rcases Answer.agree_iff.mp (queries_judgeProperty.select a'' b'' m.properties hsecond) with
        ⟨e, ha'', hb''⟩ | ⟨properties, _, _, ha'', hb'', hthird⟩
      · simp only [ha, hb, ha', hb', ha'', hb'']
        exact .error e
      · simp only [ha, hb, ha', hb', ha'', hb'']
        exact .ok hthird

end Analyzer

end ObjcMetadata.Support
