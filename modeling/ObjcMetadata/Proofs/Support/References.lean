import Mathlib.Data.Finset.Dedup
import ObjcMetadata.Proofs.Support.Rest
import ObjcMetadata.Support.Analyzer
/-!
References between types and declarations.

`Graph.Refers` says which node refers to which: a composite type to its parts, a named type to the
declaration that it names, an interface to its base, a category to the interface that it extends,
and a record, function or variable to the types that it names. A node is `Unsupported` if a finite
chain of references leads from it to an unsupported primitive kind or to a key that does not
resolve. A question that is asked with nothing known before is answered with no exactly for the
unsupported nodes, and it fails only if references lead out of the pool
(`isTypeSupported_isDeclSupported_judges`).
-/

namespace ObjcMetadata.Support

open Relation

namespace Graph

/-! ### References -/

/-- One node refers to another. The protocols that qualify a type are no references. -/
inductive Refers (g : Graph) : Node → Node → Prop where
  | part {id part : TypeId} {node : TypeNode} :
      g.pool.node? id = some node → part ∈ node.children → Refers g (.type id) (.type part)
  | interface {id : TypeId} {name : QualifiedName} {protocols : List QualifiedName} :
      g.pool.node? id = some (.interface name protocols) →
      Refers g (.type id) (.decl ⟨.interface, name⟩)
  | struct {id : TypeId} {name : QualifiedName} :
      g.pool.node? id = some (.struct name) → Refers g (.type id) (.decl ⟨.struct, name⟩)
  | union {id : TypeId} {name : QualifiedName} :
      g.pool.node? id = some (.union name) → Refers g (.type id) (.decl ⟨.union, name⟩)
  | base {key : DeclKey} {d : Declaration} {base : QualifiedName} :
      g.lookup.find? key = some d → d.base? = some base →
      Refers g (.decl key) (.decl ⟨.interface, base⟩)
  | extended {key : DeclKey} {d : Declaration} {c : Category} :
      g.lookup.find? key = some d → d.category? = some c →
      Refers g (.decl key) (.decl ⟨.interface, c.extended⟩)
  | field {key : DeclKey} {d : Declaration} {fields : List RecordField} {field : RecordField} :
      g.lookup.find? key = some d → d.body = .struct fields ∨ d.body = .union fields →
      field ∈ fields → Refers g (.decl key) (.type field.type)
  | signature {key : DeclKey} {d : Declaration} {signature : List TypeId} {flags : FunctionFlags}
      {id : TypeId} :
      g.lookup.find? key = some d → d.body = .function signature flags → id ∈ signature →
      Refers g (.decl key) (.type id)
  | var {key : DeclKey} {d : Declaration} {id : TypeId} :
      g.lookup.find? key = some d → d.body = .var id → Refers g (.decl key) (.type id)

/-- What makes a node unsupported by itself. -/
inductive Unrepresentable (g : Graph) : Node → Prop where
  | primitive {id : TypeId} {kind : Primitive} :
      g.pool.node? id = some (.primitive kind) → kind.isSupported = false →
      Unrepresentable g (.type id)
  | unresolved {key : DeclKey} : g.lookup.find? key = none → Unrepresentable g (.decl key)

/-- References lead from a node to one that is unsupported by itself. -/
def Unsupported (g : Graph) (node : Node) : Prop :=
  ∃ last, ReflTransGen g.Refers node last ∧ g.Unrepresentable last

/-! ### References and needs -/

variable {g : Graph}

theorem typeDemand_of_mem_children {node : TypeNode} {part : TypeId} (h : part ∈ node.children) :
    typeDemand node = some (node.children.map .type) := by
  cases node <;> first | rfl | simp [TypeNode.children] at h

theorem demand_type (g : Graph) (id : TypeId) :
    g.demand (.type id) =
      match g.pool.node? id with
      | some node => .ok (typeDemand node)
      | none => .error (.unknownType id) := by
  simp only [demand, Pool.node]
  cases g.pool.node? id with
  | none => rfl
  | some node => rfl

theorem needs_type_iff {id : TypeId} {b : Node} :
    Needs g.demand (.type id) b ↔
      ∃ node needs, g.pool.node? id = some node ∧ typeDemand node = some needs ∧ b ∈ needs := by
  unfold Needs
  rw [demand_type]
  cases g.pool.node? id <;> simp

theorem needs_decl_iff {key : DeclKey} {b : Node} :
    Needs g.demand (.decl key) b ↔ ∃ d, g.lookup.find? key = some d ∧ b ∈ declDemand d := by
  unfold Needs demand
  cases hfind : g.lookup.find? key with
  | none => simp [hfind]
  | some d => simp [hfind]

theorem refers_type_iff {id : TypeId} {b : Node} :
    g.Refers (.type id) b ↔
      ∃ node needs, g.pool.node? id = some node ∧ typeDemand node = some needs ∧ b ∈ needs := by
  constructor
  · intro h
    cases h with
    | part hnode hmem =>
      exact ⟨_, _, hnode, typeDemand_of_mem_children hmem, List.mem_map.mpr ⟨_, hmem, rfl⟩⟩
    | interface hnode => exact ⟨_, _, hnode, rfl, List.mem_singleton_self _⟩
    | struct hnode => exact ⟨_, _, hnode, rfl, List.mem_singleton_self _⟩
    | union hnode => exact ⟨_, _, hnode, rfl, List.mem_singleton_self _⟩
  · rintro ⟨node, needs, hnode, hdemand, hmem⟩
    have hparts : ∀ {parts : List TypeId}, node.children = parts → b ∈ parts.map Node.type →
        g.Refers (.type id) b := by
      rintro _ rfl hpart
      obtain ⟨part, hchild, rfl⟩ := List.mem_map.mp hpart
      exact .part hnode hchild
    cases node with
    | primitive kind =>
      simp only [typeDemand] at hdemand
      split at hdemand
      · cases hdemand
        simp at hmem
      · cases hdemand
    | interface name protocols =>
      cases hdemand
      exact List.mem_singleton.mp hmem ▸ .interface hnode
    | struct name =>
      cases hdemand
      exact List.mem_singleton.mp hmem ▸ .struct hnode
    | union name =>
      cases hdemand
      exact List.mem_singleton.mp hmem ▸ .union hnode
    | _ =>
      cases hdemand
      exact hparts rfl hmem

theorem refers_decl_iff {key : DeclKey} {b : Node} :
    g.Refers (.decl key) b ↔ ∃ d, g.lookup.find? key = some d ∧ b ∈ declDemand d := by
  constructor
  · intro h
    cases h with
    | @base _ d base hfind hbase =>
      refine ⟨d, hfind, ?_⟩
      unfold Declaration.base? Declaration.interface? at hbase
      unfold declDemand
      cases hbody : d.body with
      | interface i => simpa [hbody] using hbase
      | _ => simp [hbody] at hbase
    | @extended _ d c hfind hcategory =>
      refine ⟨d, hfind, ?_⟩
      unfold Declaration.category? at hcategory
      unfold declDemand
      cases hbody : d.body with
      | category c' =>
        obtain rfl : c' = c := by simpa [hbody] using hcategory
        exact List.mem_singleton_self _
      | _ => simp [hbody] at hcategory
    | @field _ d fields field hfind hbody hmem =>
      refine ⟨d, hfind, ?_⟩
      have hneed := List.mem_map_of_mem (f := fun field : RecordField => Node.type field.type) hmem
      rcases hbody with hbody | hbody
      · simpa only [declDemand, hbody] using hneed
      · simpa only [declDemand, hbody] using hneed
    | @signature _ d signature flags id hfind hbody hmem =>
      refine ⟨d, hfind, ?_⟩
      simpa only [declDemand, hbody] using List.mem_map_of_mem (f := Node.type) hmem
    | @var _ d id hfind hbody => exact ⟨d, hfind, by simp [declDemand, hbody]⟩
  · rintro ⟨d, hfind, hmem⟩
    unfold declDemand at hmem
    cases hbody : d.body with
    | interface i =>
      simp only [hbody, List.mem_map, Option.mem_toList] at hmem
      obtain ⟨base, hbase, rfl⟩ := hmem
      exact .base hfind (by simpa [Declaration.base?, Declaration.interface?, hbody] using hbase)
    | category c =>
      simp only [hbody, List.mem_singleton] at hmem
      exact hmem ▸ .extended hfind (by simp [Declaration.category?, hbody])
    | protocol p => simp [hbody] at hmem
    | struct fields =>
      simp only [hbody, List.mem_map] at hmem
      obtain ⟨field, hfield, rfl⟩ := hmem
      exact .field hfind (.inl hbody) hfield
    | union fields =>
      simp only [hbody, List.mem_map] at hmem
      obtain ⟨field, hfield, rfl⟩ := hmem
      exact .field hfind (.inr hbody) hfield
    | function signature flags =>
      simp only [hbody, List.mem_map] at hmem
      obtain ⟨id, hid, rfl⟩ := hmem
      exact .signature hfind hbody hid
    | var id =>
      simp only [hbody, List.mem_singleton] at hmem
      exact hmem ▸ .var hfind hbody

/-- What refers to a node needs it, and the other way round. -/
theorem needs_eq_refers (g : Graph) : Needs g.demand = g.Refers := by
  funext a b
  cases a with
  | type id => exact propext (needs_type_iff.trans refers_type_iff.symm)
  | decl key => exact propext (needs_decl_iff.trans refers_decl_iff.symm)

theorem demand_eq_none_iff {node : Node} : g.demand node = .ok none ↔ g.Unrepresentable node := by
  constructor
  · intro h
    cases node with
    | type id =>
      rw [demand_type] at h
      cases hnode : g.pool.node? id with
      | none => simp [hnode] at h
      | some node =>
        simp only [hnode, Except.ok.injEq] at h
        unfold typeDemand at h
        cases node with
        | primitive kind => exact .primitive hnode (by simpa using h)
        | _ => simp at h
    | decl key => exact .unresolved (by simpa [demand] using h)
  · intro h
    cases h with
    | primitive hnode hkind => simp [demand_type, hnode, typeDemand, hkind]
    | unresolved hfind => simp [demand, hfind]

/-- The unsupported nodes are the doomed ones. -/
theorem doomed_iff {node : Node} : Doomed g.demand node ↔ g.Unsupported node := by
  unfold Doomed Unsupported
  rw [needs_eq_refers]
  exact exists_congr fun last => and_congr_right fun _ => demand_eq_none_iff

/-- All keys that a supported node leads to resolve. -/
theorem resolves_of_leads {node : Node} {key : DeclKey} (h : ¬ g.Unsupported node)
    (hleads : ReflTransGen g.Refers node (.decl key)) : ∃ d, g.lookup.find? key = some d := by
  refine Option.ne_none_iff_exists'.mp fun hnone => h ⟨.decl key, hleads, ?_⟩
  exact .unresolved hnone

/-- What is supported stays so in a graph where all that is supported needs the same. -/
theorem not_unsupported_of_agree {g' : Graph}
    (hagree : ∀ node, ¬ g.Unsupported node → g'.demand node = g.demand node) {node : Node}
    (h : ¬ g.Unsupported node) : ¬ g'.Unsupported node := by
  intro hunsupported
  obtain ⟨last, hleads, hlacks⟩ := doomed_iff.mpr hunsupported
  have hsupported : ¬ g.Unsupported last := by
    clear hlacks
    induction hleads with
    | refl => exact h
    | tail _ hneeds ih =>
      obtain ⟨needs, hdemand, hmem⟩ := hneeds
      rw [hagree _ ih] at hdemand
      intro hother
      exact ih (doomed_iff.mp (.of_leads (.single ⟨needs, hdemand, hmem⟩) (doomed_iff.mpr hother)))
  rw [hagree last hsupported] at hlacks
  exact hsupported (doomed_iff.mp ⟨last, .refl, hlacks⟩)

/-- A node can be looked at unless it is a type without a node in the pool. -/
theorem demand_eq_error_iff {node : Node} {e : TypeError} :
    g.demand node = .error e ↔
      ∃ id, node = .type id ∧ g.pool.node? id = none ∧ e = .unknownType id := by
  cases node with
  | type id =>
    rw [demand_type]
    cases hnode : g.pool.node? id with
    | none => simp [hnode, eq_comm]
    | some node => simp [hnode]
  | decl key => simp [demand]

/-! ### Levels -/

/-- The types of the pool and the keys of the lookup. -/
def nodes (g : Graph) : Finset Node :=
  ((List.range g.pool.size).map (fun i => Node.type ⟨i⟩) ++ g.lookup.keys.map Node.decl).toFinset

theorem mem_nodes_type {id : TypeId} {node : TypeNode} (h : g.pool.node? id = some node) :
    .type id ∈ g.nodes := by
  unfold nodes
  rw [List.mem_toFinset, List.mem_append]
  left
  refine List.mem_map.mpr ⟨id.index, List.mem_range.mpr ?_, rfl⟩
  exact (Array.getElem?_eq_some_iff.mp h).1

theorem mem_nodes_decl {key : DeclKey} {d : Declaration} (h : g.lookup.find? key = some d) :
    .decl key ∈ g.nodes := by
  unfold nodes
  rw [List.mem_toFinset, List.mem_append]
  right
  exact List.mem_map_of_mem (g.lookup.mem_keys key (by rw [h]; rfl))

theorem mem_nodes_of_demand {node : Node} {needs : List Node}
    (h : g.demand node = .ok (some needs)) : node ∈ g.nodes := by
  cases node with
  | type id =>
    rw [demand_type] at h
    cases hnode : g.pool.node? id with
    | none => simp [hnode] at h
    | some node => exact mem_nodes_type hnode
  | decl key =>
    cases hfind : g.lookup.find? key with
    | none => simp [demand, hfind] at h
    | some d => exact mem_nodes_decl hfind

theorem card_nodes_lt_levels (g : Graph) : g.nodes.card < g.levels := by
  have hcard : g.nodes.card ≤ g.pool.size + g.lookup.keys.length := by
    unfold nodes
    refine Nat.le_trans (List.toFinset_card_le _) ?_
    simp
  unfold levels
  omega

/-- **The levels of a graph are enough**: from whatever marks, a visit fails only if references lead
to a type without a node. -/
theorem visit_levels_error {depth : Nat} {node : Node} {marks : Marks Node} {e : TypeError}
    (h : visit g.demand g.levels depth node marks = .error e) :
    ∃ id, ReflTransGen g.Refers node (.type id) ∧ g.pool.node? id = none ∧
      e = .unknownType id := by
  have hlevels : (unopened g.nodes marks).card < g.levels :=
    Nat.lt_of_le_of_lt (Finset.card_filter_le _ _) g.card_nodes_lt_levels
  obtain ⟨other, hleads, hfails⟩ :=
    visit_error (fun _ _ _ => mem_nodes_of_demand) h hlevels
  obtain ⟨id, rfl, hnone, rfl⟩ := demand_eq_error_iff.mp hfails
  exact ⟨id, needs_eq_refers g ▸ hleads, hnone, rfl⟩

/-! ### Single questions -/

/-- What a question about a node must come to: no exactly if the node is unsupported, and an error
only if references lead to a type without a node. -/
def Judges (g : Graph) (node : Node) : Except TypeError Bool → Prop
  | .ok supported => supported = false ↔ g.Unsupported node
  | .error e => ∃ id, ReflTransGen g.Refers node (.type id) ∧ g.pool.node? id = none ∧
      e = .unknownType id

/-- The verdict on a node with nothing known before. -/
theorem judges_visit (g : Graph) (node : Node) :
    g.Judges node ((visit g.demand g.levels 0 node []).map (·.verdict.isSupported)) := by
  cases h : visit g.demand g.levels 0 node [] with
  | error e => exact visit_levels_error h
  | ok v =>
    have hanswered := visit_atRest h Marks.atRest_nil
    show v.verdict.isSupported = false ↔ g.Unsupported node
    rw [← doomed_iff]
    constructor
    · intro hunsupported
      exact hanswered.atRest.doomed (hunsupported ▸ hanswered.answer)
    · intro hdoomed
      by_contra hsupported
      rw [Bool.not_eq_false] at hsupported
      exact hanswered.atRest.not_doomed (hanswered.closed hsupported Marks.closed_nil)
        (hsupported ▸ hanswered.answer) hdoomed

end Graph

theorem judgeIn_map_fst (a : Analyzer) (g : Graph) (node : Node) :
    (a.judgeIn g node).map (·.1) =
      (visit g.demand g.levels 0 node a.marks).map (·.verdict.isSupported) := by
  unfold Analyzer.judgeIn
  cases visit g.demand g.levels 0 node a.marks with
  | error e => rfl
  | ok v => rfl

/-- **A question that is asked with nothing known before is answered with no exactly if a finite
chain of references leads from its node to an unsupported primitive kind or to a key that does not
resolve.** A declaration stands for its own key wherever that is reached again. There is no answer
only if references lead out of the pool. -/
theorem isTypeSupported_isDeclSupported_judges (g : Graph) (id : TypeId) (d : Declaration) :
    g.Judges (.type id) (isTypeSupported g id) ∧
      (g.overriding d).Judges (.decl d.key) (isDeclSupported g d) := by
  constructor
  · unfold isTypeSupported Analyzer.judgeType
    rw [judgeIn_map_fst]
    exact g.judges_visit (.type id)
  · unfold isDeclSupported Analyzer.judgeDecl
    rw [judgeIn_map_fst]
    exact (g.overriding d).judges_visit (.decl d.key)

end ObjcMetadata.Support
