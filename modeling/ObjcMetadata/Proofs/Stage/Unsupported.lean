import Mathlib.Data.List.Forall2
import ObjcMetadata.Proofs.Support.Members
import ObjcMetadata.Stage.Unsupported
/-!
What the removal of unsupported declarations leaves.

A pass over a module keeps, in order, the declarations whose keys the analyzer comes to know as
supported, each with the members whose types it knows as supported (`trimAll_trimming`). What is
supported is never dropped, so a second pass over what a first has left sees at least as much of it
as supported. The second pass changes nothing exactly if all that is left is supported in its own
view (`apply_apply_iff`); it is if the analyzer is consistent at the end of the first pass. It need
not be otherwise (`apply_entangled_drops_more`).
-/

namespace ObjcMetadata

namespace Support

open Relation

/-! ### Declarations with other members -/

/-- One declaration is another with other members, of which the types were named before and meet a
condition. -/
structure Trimmed (P : TypeId → Prop) (d d' : Declaration) : Prop where
  shape : ∃ members, d' = d.withMembers members
  types : ∀ id ∈ d'.ownTypes, id ∈ d.ownTypes
  meet : ∀ members, d'.members? = some members → members.Meet P

theorem Trimmed.key_eq {P : TypeId → Prop} {d d' : Declaration} (h : Trimmed P d d') :
    d'.key = d.key := by
  obtain ⟨members, rfl⟩ := h.shape
  exact d.key_withMembers members

theorem Trimmed.mono {P Q : TypeId → Prop} {d d' : Declaration} (h : Trimmed P d d')
    (himp : ∀ id, P id → Q id) : Trimmed Q d d' :=
  ⟨h.shape, h.types, fun members hmembers => (h.meet members hmembers).mono himp⟩

/-- A declaration is supported, and so are its members. -/
def Graph.Supports (g : Graph) (d : Declaration) : Prop :=
  ¬ g.Unsupported (.decl d.key) ∧ ∀ members, d.members? = some members → members.Meet g.Admits

/-! ### Queries about declarations -/

namespace Analyzer

variable {a after : Analyzer}

/-- A query about a node with a settled verdict gives it and changes nothing. -/
theorem judgeIn_known {node : Node} {supported : Bool} (h : a.known? node = some supported)
    (g : Graph) : a.judgeIn g node = .ok (supported, a) := by
  rw [known?_eq, Marks.settled?_eq_some_iff] at h
  unfold judgeIn Graph.levels
  simp only [visit, h]
  cases supported <;> rfl

theorem demand_overriding {g : Graph} {d : Declaration} (h : g.lookup.find? d.key = some d) :
    (g.overriding d).demand = g.demand := by
  have hfind : (g.lookup.overriding d).find? = g.lookup.find? := by
    funext key
    by_cases hkey : key = d.key
    · simp [Lookup.overriding, hkey, h]
    · simp [Lookup.overriding, hkey]
  funext node
  cases node with
  | type id => rfl
  | decl key => simp only [Graph.demand, Graph.overriding, hfind]

/-- A declaration that its key resolves to, or whose key has been judged before, is judged like its
key. -/
theorem judgeDecl_judged {d : Declaration} {answer : Bool}
    (h : a.judgeDecl d = .ok (answer, after)) (hrest : a.Resting)
    (hfind : a.graph.lookup.find? d.key = some d ∨ (a.known? (.decl d.key)).isSome) :
    Judged a (.decl d.key) answer after := by
  rcases hfind with hfind | hknown
  · exact judgeIn_judged h hrest (demand_overriding hfind)
  · obtain ⟨supported, hknown⟩ := Option.isSome_iff_exists.mp hknown
    unfold judgeDecl at h
    rw [judgeIn_known hknown, Except.ok.injEq, Prod.mk.injEq] at h
    obtain ⟨rfl, rfl⟩ := h
    exact ⟨.refl hrest, hknown, fun _ hconsistent => hconsistent⟩

end Analyzer

end Support

namespace Unsupported

open Support Analyzer

variable {a after : Analyzer}

/-! ### One declaration -/

/-- What the trimming of a declaration comes to. -/
structure TrimResult (a : Analyzer) (d : Declaration) (kept : Option Declaration)
    (after : Analyzer) : Prop extends Later a after where
  known : after.known? (.decl d.key) = some kept.isSome
  trimmed : ∀ d', kept = some d' → Trimmed after.Knows d d'
  complete : a.graph.Supports d → kept = some d
  consistent : kept = some d → a.Consistent → after.Consistent

/-- A declaration is dropped, or it stays as it is, or it stays with a selection of its members. -/
theorem trim_cases {d : Declaration} {kept : Option Declaration}
    (h : trim a d = .ok (kept, after)) :
    (a.judgeDecl d = .ok (false, after) ∧ kept = none) ∨
      (a.judgeDecl d = .ok (true, after) ∧ d.members? = none ∧ kept = some d) ∨
      ∃ next members chosen, a.judgeDecl d = .ok (true, next) ∧ d.members? = some members ∧
        next.selectMembers members = .ok (chosen, after) ∧ kept = some (d.withMembers chosen) := by
  unfold trim at h
  cases hjudge : a.judgeDecl d with
  | error e => simp [hjudge] at h
  | ok first =>
    obtain ⟨answer, next⟩ := first
    cases answer with
    | false =>
      simp only [hjudge, Except.ok.injEq, Prod.mk.injEq] at h
      obtain ⟨rfl, rfl⟩ := h
      exact .inl ⟨rfl, rfl⟩
    | true =>
      cases hmembers : d.members? with
      | none =>
        simp only [hjudge, hmembers, Except.ok.injEq, Prod.mk.injEq] at h
        obtain ⟨rfl, rfl⟩ := h
        exact .inr (.inl ⟨rfl, rfl, rfl⟩)
      | some members =>
        cases hselect : next.selectMembers members with
        | error e => simp [hjudge, hmembers, hselect] at h
        | ok second =>
          obtain ⟨chosen, last⟩ := second
          simp only [hjudge, hmembers, hselect, Except.ok.injEq, Prod.mk.injEq] at h
          obtain ⟨rfl, rfl⟩ := h
          exact .inr (.inr ⟨next, members, chosen, rfl, rfl, hselect, rfl⟩)

theorem trim_result {d : Declaration} {kept : Option Declaration}
    (h : trim a d = .ok (kept, after)) (hrest : a.Resting)
    (hfind : a.graph.lookup.find? d.key = some d ∨ (a.known? (.decl d.key)).isSome) :
    TrimResult a d kept after := by
  rcases trim_cases h with ⟨hjudge, rfl⟩ | ⟨hjudge, hmembers, rfl⟩ |
    ⟨next, members, chosen, hjudge, hmembers, hselect, rfl⟩
  · have hjudged := judgeDecl_judged hjudge hrest hfind
    refine ⟨hjudged.toLater, hjudged.known, by simp, fun hsupports => ?_, by simp⟩
    have hunsupported := hjudged.resting.unsupported hjudged.known
    rw [hjudged.graph] at hunsupported
    exact absurd hunsupported hsupports.1
  · have hjudged := judgeDecl_judged hjudge hrest hfind
    refine ⟨hjudged.toLater, hjudged.known, ?_, fun _ => rfl, fun _ => hjudged.consistent rfl⟩
    rintro d' ⟨⟩
    refine ⟨⟨{}, (d.withMembers_of_none hmembers).symm⟩, fun id hid => hid, ?_⟩
    simp [hmembers]
  · have hjudged := judgeDecl_judged hjudge hrest hfind
    have hchosen := selectMembers_selection hselect hjudged.resting
    have hmembers' : (d.withMembers chosen).members? = some chosen := by simp [hmembers]
    refine ⟨hjudged.toLater.trans hchosen.toLater, hchosen.keeps _ true hjudged.known,
      ?_, fun hsupports => ?_, fun hsame hconsistent => ?_⟩
    · rintro d' ⟨⟩
      refine ⟨⟨chosen, rfl⟩, ?_, ?_⟩
      · intro id hid
        rw [Declaration.ownTypes_of_members? hmembers'] at hid
        rw [Declaration.ownTypes_of_members? hmembers]
        exact hchosen.types id hid
      · intro other hother
        obtain rfl : chosen = other := Option.some.inj (hmembers'.symm.trans hother)
        exact hchosen.meet
    · rw [hchosen.complete (hjudged.graph ▸ hsupports.2 members hmembers),
        Declaration.withMembers_of_members? hmembers]
    · refine hchosen.consistent ?_ (hjudged.consistent rfl hconsistent)
      rw [Option.some.inj hsame, hmembers] at hmembers'
      exact (Option.some.inj hmembers').symm

theorem trim_total {d : Declaration} (hpool : a.graph.pool.Closed)
    (hlookup : ∀ key e, a.graph.lookup.find? key = some e → e.Inside a.graph.pool)
    (hd : d.Inside a.graph.pool) (hrest : a.Resting)
    (hfind : a.graph.lookup.find? d.key = some d ∨ (a.known? (.decl d.key)).isSome) :
    ∃ kept after, trim a d = .ok (kept, after) := by
  have hinside : a.graph.Inside := Graph.inside_of_closed hpool hlookup
  have hhas : (a.graph.overriding d).Has (.decl d.key) := trivial
  obtain ⟨answer, next, hjudge⟩ := a.judgeIn_total (hinside.overriding hd) hhas
  have hjudged := judgeDecl_judged hjudge hrest hfind
  change a.judgeDecl d = _ at hjudge
  unfold trim
  cases answer with
  | false => exact ⟨none, next, by simp only [hjudge]⟩
  | true =>
    cases hmembers : d.members? with
    | none => exact ⟨some d, next, by simp only [hjudge]⟩
    | some members =>
      have htypes : ∀ id ∈ members.types, next.graph.Has (.type id) := by
        intro id hid
        rw [hjudged.graph]
        exact hd id (Declaration.ownTypes_of_members? hmembers ▸ hid)
      obtain ⟨chosen, last, hselect⟩ :=
        selectMembers_total hjudged.resting (hjudged.graph ▸ hinside) htypes
      simp only [hjudge, hselect]
      exact ⟨_, last, rfl⟩

/-! ### All declarations -/

/-- The declarations of which every key resolves to the first one, or has been judged before. -/
def Resolves (a : Analyzer) (ds : List Declaration) : Prop :=
  ∀ d ∈ ds, a.graph.lookup.find? d.key = ds.find? (·.key == d.key) ∨
    (a.known? (.decl d.key)).isSome

theorem Resolves.head {d : Declaration} {rest : List Declaration} (h : Resolves a (d :: rest)) :
    a.graph.lookup.find? d.key = some d ∨ (a.known? (.decl d.key)).isSome :=
  (h d List.mem_cons_self).imp_left fun hfind => by simpa using hfind

theorem Resolves.tail {d : Declaration} {rest : List Declaration} {kept : Option Declaration}
    (h : Resolves a (d :: rest)) (hd : TrimResult a d kept after) : Resolves after rest := by
  intro e he
  by_cases hkey : d.key = e.key
  · exact .inr (by rw [← hkey, hd.known]; rfl)
  · refine (h e (List.mem_cons_of_mem d he)).imp (fun hfind => ?_) fun hknown => ?_
    · rw [hd.graph, hfind, List.find?_cons_of_neg (by simpa using hkey)]
    · obtain ⟨supported, hknown⟩ := Option.isSome_iff_exists.mp hknown
      rw [hd.keeps _ supported hknown]
      rfl

/-- What the trimming of a list of declarations comes to. -/
structure Trimming (a : Analyzer) (ds kept : List Declaration) (after : Analyzer) : Prop
    extends Later a after where
  known : ∀ d ∈ ds, (after.knownKey d.key).isSome
  trimmed : List.Forall₂ (Trimmed after.Knows)
    (ds.filter fun d => after.knownKey d.key = some true) kept
  complete : (∀ d ∈ ds, a.graph.Supports d) → kept = ds
  consistent : kept = ds → a.Consistent → after.Consistent

theorem trimAll_cons_ok {d : Declaration} {rest kept : List Declaration}
    (h : trimAll a (d :: rest) = .ok (kept, after)) :
    ∃ first next others, trim a d = .ok (first, next) ∧ trimAll next rest = .ok (others, after) ∧
      kept = first.toList ++ others := by
  unfold trimAll at h
  cases htrim : trim a d with
  | error e => simp [htrim] at h
  | ok result =>
    obtain ⟨first, next⟩ := result
    cases hothers : trimAll next rest with
    | error e => simp [htrim, hothers] at h
    | ok result =>
      obtain ⟨others, last⟩ := result
      simp only [htrim, hothers, Except.ok.injEq, Prod.mk.injEq] at h
      obtain ⟨rfl, rfl⟩ := h
      exact ⟨first, next, others, rfl, hothers, rfl⟩

/-- **A pass over declarations** keeps those whose keys it comes to know as supported, with the
members that it knows to be supported, and all of them if they all are supported. -/
theorem trimAll_trimming {ds kept : List Declaration} (h : trimAll a ds = .ok (kept, after))
    (hrest : a.Resting) (hresolves : Resolves a ds) : Trimming a ds kept after := by
  induction ds generalizing a kept with
  | nil =>
    simp only [trimAll, Except.ok.injEq, Prod.mk.injEq] at h
    obtain ⟨rfl, rfl⟩ := h
    exact ⟨.refl hrest, by simp, .nil, fun _ => rfl, fun _ hconsistent => hconsistent⟩
  | cons d rest ih =>
    obtain ⟨kept?, next, others, htrim, hothers, rfl⟩ := trimAll_cons_ok h
    have hd := trim_result htrim hrest hresolves.head
    have hrest' := ih hothers hd.resting (hresolves.tail hd)
    have hlast : after.knownKey d.key = some kept?.isSome := hrest'.keeps _ _ hd.known
    refine ⟨hd.toLater.trans hrest'.toLater, ?_, ?_, fun hall => ?_, fun hsame => ?_⟩
    · intro e he
      rcases List.mem_cons.mp he with rfl | he
      · rw [hlast]
        rfl
      · exact hrest'.known e he
    · cases kept? with
      | none =>
        rw [List.filter_cons_of_neg (by simp [hlast])]
        exact hrest'.trimmed
      | some d' =>
        rw [List.filter_cons_of_pos (by simp [hlast])]
        exact .cons ((hd.trimmed d' rfl).mono fun id => hrest'.knows) hrest'.trimmed
    · rw [hd.complete (hall d List.mem_cons_self), hrest'.complete fun e he =>
        hd.graph ▸ hall e (List.mem_cons_of_mem d he)]
      rfl
    · -- Nothing can stand in for a declaration that is dropped: the list would be too short.
      have hle := hrest'.trimmed.length_eq ▸ List.length_filter_le _ rest
      cases kept? with
      | none =>
        have hlength := congrArg List.length hsame
        simp only [Option.toList_none, List.nil_append, List.length_cons] at hlength
        omega
      | some d' =>
        obtain ⟨rfl, hothers⟩ := List.cons.inj hsame
        exact fun hconsistent => hrest'.consistent hothers (hd.consistent rfl hconsistent)

variable {ds kept : List Declaration}

/-- A pass leaves what is supported with all its members as it is. -/
theorem mem_of_supports (h : trimAll a ds = .ok (kept, after)) (hrest : a.Resting)
    (hresolves : Resolves a ds) {d : Declaration} (hd : d ∈ ds) (hsupports : a.graph.Supports d) :
    d ∈ kept := by
  induction ds generalizing a kept with
  | nil => cases hd
  | cons first rest ih =>
    obtain ⟨kept?, next, others, htrim, hothers, rfl⟩ := trimAll_cons_ok h
    have hfirst := trim_result htrim hrest hresolves.head
    rcases List.mem_cons.mp hd with rfl | hd
    · rw [hfirst.complete hsupports]
      exact List.mem_cons_self
    · refine List.mem_append_right _ (ih hothers hfirst.resting (hresolves.tail hfirst) hd ?_)
      rwa [hfirst.graph]

theorem Trimming.exists_of_mem (h : Trimming a ds kept after) {d' : Declaration} (hd' : d' ∈ kept) :
    ∃ d ∈ ds, after.knownKey d.key = some true ∧ Trimmed after.Knows d d' := by
  obtain ⟨hlength, hzip⟩ := List.forall₂_iff_zip.mp h.trimmed
  obtain ⟨i, hi, rfl⟩ := List.mem_iff_getElem.mp hd'
  have hmem : ((ds.filter fun d => after.knownKey d.key = some true)[i], kept[i]) ∈
      (ds.filter fun d => after.knownKey d.key = some true).zip kept := by
    rw [← List.getElem_zip (h := by rw [List.length_zip, hlength]; omega)]
    exact List.getElem_mem _
  obtain ⟨hd, hknown⟩ := List.mem_filter.mp (List.of_mem_zip hmem).1
  exact ⟨_, hd, of_decide_eq_true hknown, hzip hmem⟩

theorem Trimming.keys_eq (h : Trimming a ds kept after) :
    (ds.filter fun d => after.knownKey d.key = some true).map Declaration.key =
      kept.map Declaration.key := by
  have hkeys : List.Forall₂ (· = ·)
      ((ds.filter fun d => after.knownKey d.key = some true).map Declaration.key)
      (kept.map Declaration.key) :=
    List.forall₂_map_left_iff.mpr
      (List.forall₂_map_right_iff.mpr (h.trimmed.imp fun d d' hd => hd.key_eq.symm))
  rwa [List.forall₂_eq_eq_eq] at hkeys

theorem Trimming.keys (h : Trimming a ds kept after) :
    (kept.map Declaration.key).Sublist (ds.map Declaration.key) :=
  h.keys_eq ▸ List.filter_sublist.map _

/-- Lists whose elements have the same keys find elements at the same places. -/
theorem find?_of_forall₂ {R : Declaration → Declaration → Prop}
    (hkeys : ∀ d d', R d d' → d'.key = d.key) (h : List.Forall₂ R ds kept) (key : DeclKey) :
    (ds.find? (·.key == key) = none ∧ kept.find? (·.key == key) = none) ∨
      ∃ d d', ds.find? (·.key == key) = some d ∧ kept.find? (·.key == key) = some d' ∧ R d d' := by
  induction h with
  | nil => exact .inl ⟨rfl, rfl⟩
  | @cons d d' _ _ hd _ ih =>
    by_cases hkey : d.key = key
    · have hkey' : d'.key = key := (hkeys d d' hd).trans hkey
      exact .inr ⟨d, d', by simp [hkey], by simp [hkey'], hd⟩
    · have hkey' : d'.key ≠ key := fun heq => hkey ((hkeys d d' hd).symm.trans heq)
      simpa [hkey, hkey'] using ih

/-- A pass keeps what a key resolves to exactly if it comes to know the key as supported. -/
theorem Trimming.find? (h : Trimming a ds kept after) (key : DeclKey) :
    (kept.find? (·.key == key) = none ∧
        (after.knownKey key = some true → ds.find? (·.key == key) = none)) ∨
      ∃ d d', ds.find? (·.key == key) = some d ∧ kept.find? (·.key == key) = some d' ∧
        Trimmed after.Knows d d' := by
  have hfilter : after.knownKey key = some true →
      (ds.filter fun d => after.knownKey d.key = some true).find? (·.key == key) =
        ds.find? (·.key == key) := by
    intro hknown
    rw [List.find?_filter]
    congr 1
    funext d
    by_cases hkey : d.key = key
    · simp [hkey, hknown]
    · simp [hkey]
  rcases find?_of_forall₂ (fun _ _ => Trimmed.key_eq) h.trimmed key with
    ⟨hnone, hnone'⟩ | ⟨d, d', hd, hd', htrimmed⟩
  · exact .inl ⟨hnone', fun hknown => hfilter hknown ▸ hnone⟩
  · have hkey : d.key = key := by simpa using List.find?_some hd
    have hknown := (List.mem_filter.mp (List.mem_of_find?_eq_some hd)).2
    rw [hkey, decide_eq_true_eq] at hknown
    exact .inr ⟨d, d', hfilter hknown ▸ hd, hd', htrimmed⟩

/-- A pass over declarations whose types are in the pool comes to an end. -/
theorem trimAll_total (hpool : a.graph.pool.Closed)
    (hlookup : ∀ key d, a.graph.lookup.find? key = some d → d.Inside a.graph.pool)
    (hrest : a.Resting) (hresolves : Resolves a ds) (hds : ∀ d ∈ ds, d.Inside a.graph.pool) :
    ∃ kept after, trimAll a ds = .ok (kept, after) := by
  induction ds generalizing a with
  | nil => exact ⟨[], a, rfl⟩
  | cons d rest ih =>
    have hd := hds d List.mem_cons_self
    obtain ⟨kept?, next, htrim⟩ := trim_total hpool hlookup hd hrest hresolves.head
    have hnext := trim_result htrim hrest hresolves.head
    have hgraph := hnext.graph
    obtain ⟨others, last, hothers⟩ := ih (hgraph ▸ hpool) (hgraph ▸ hlookup) hnext.resting
      (hresolves.tail hnext) fun e he => hgraph ▸ hds e (List.mem_cons_of_mem d he)
    unfold trimAll
    simp only [htrim, hothers]
    exact ⟨_, last, rfl⟩

/-! ### Views of a module -/

/-- The graph in which a module is judged. -/
def view (cx : Context) (m : Module) : Graph :=
  ⟨cx.pool, cx.lookup m⟩

theorem find?_view (cx : Context) (m : Module) (key : DeclKey) :
    (view cx m).lookup.find? key =
      (m.declarations.find? (·.key == key)).or (cx.external.find? key) := by
  show (m.index.get? key).or _ = _
  rw [Module.index, DeclTable.get?_ofList]

theorem resolves_view (cx : Context) (m : Module) :
    Resolves { graph := view cx m } m.declarations := by
  intro d hd
  left
  obtain ⟨first, -, -, hfind⟩ := Declaration.exists_find?_key (List.mem_map_of_mem hd)
  rw [find?_view, hfind]
  rfl

variable {cx : Context} {m : Module}

theorem apply_eq (cx : Context) (m : Module) :
    apply cx m = (trimAll { graph := view cx m } m.declarations).map
      fun result => { m with declarations := result.1 } := by
  unfold apply view
  cases trimAll { graph := ⟨cx.pool, cx.lookup m⟩ } m.declarations with
  | error e => rfl
  | ok result => rfl

theorem apply_eq_ok_iff {m' : Module} :
    apply cx m = .ok m' ↔
      ∃ kept after, trimAll { graph := view cx m } m.declarations = .ok (kept, after) ∧
        m' = { m with declarations := kept } := by
  rw [apply_eq]
  cases trimAll { graph := view cx m } m.declarations with
  | error e => simp [Except.map]
  | ok result =>
    obtain ⟨kept, after⟩ := result
    simp [Except.map, eq_comm]

/-- **What is supported in a module needs the same in what a pass leaves of it.** -/
theorem Trimming.agree (h : Trimming { graph := view cx m } m.declarations kept after) (node : Node)
    (hnode : ¬ (view cx m).Unsupported node) :
    (view cx { m with declarations := kept }).demand node = (view cx m).demand node := by
  cases node with
  | type id => rfl
  | decl key =>
    simp only [Graph.demand, find?_view]
    rcases h.find? key with ⟨hnone, hknown⟩ | ⟨d, d', hd, hd', htrimmed⟩
    · have hlost : m.declarations.find? (·.key == key) = none := by
        by_contra hsome
        obtain ⟨d, hd⟩ := Option.ne_none_iff_exists'.mp hsome
        have hkey : d.key = key := by simpa using List.find?_some hd
        obtain ⟨supported, hsupported⟩ :=
          Option.isSome_iff_exists.mp (h.known d (List.mem_of_find?_eq_some hd))
        rw [hkey] at hsupported
        cases supported with
        | true => exact hsome (hknown hsupported)
        | false =>
          have hunsupported : after.graph.Unsupported (.decl key) :=
            h.resting.unsupported hsupported
          rw [h.graph] at hunsupported
          exact hnode hunsupported
      rw [hnone, hlost]
    · obtain ⟨members, rfl⟩ := htrimmed.shape
      rw [hd, hd']
      simp [declDemand_withMembers]

/-- If no key of the module resolves outside of it, what is supported in what a pass leaves needs
the same in the module. -/
theorem Trimming.agree_of_disjoint
    (h : Trimming { graph := view cx m } m.declarations kept after)
    (hdisjoint : ∀ d ∈ m.declarations, cx.external.find? d.key = none) (node : Node)
    (hnode : ¬ (view cx { m with declarations := kept }).Unsupported node) :
    (view cx m).demand node = (view cx { m with declarations := kept }).demand node := by
  cases node with
  | type id => rfl
  | decl key =>
    simp only [Graph.demand, find?_view]
    rcases h.find? key with ⟨hnone, -⟩ | ⟨d, d', hd, hd', htrimmed⟩
    · cases hfind : m.declarations.find? (·.key == key) with
      | none => rw [hnone]
      | some d =>
        have hkey : d.key = key := by simpa using List.find?_some hfind
        have hexternal := hdisjoint d (List.mem_of_find?_eq_some hfind)
        rw [hkey] at hexternal
        refine absurd ⟨.decl key, .refl, .unresolved ?_⟩ hnode
        rw [find?_view, hnone, hexternal]
        rfl
    · obtain ⟨members, rfl⟩ := htrimmed.shape
      rw [hd, hd']
      simp [declDemand_withMembers]

theorem supports_of_agree {g g' : Graph}
    (hagree : ∀ node, ¬ g.Unsupported node → g'.demand node = g.demand node) {d : Declaration}
    (h : g.Supports d) : g'.Supports d := by
  refine ⟨Graph.not_unsupported_of_agree hagree h.1, ?_⟩
  intro members hmembers
  exact (h.2 members hmembers).mono fun id => Graph.not_unsupported_of_agree hagree

/-- A consistent analyzer has kept only what is supported. -/
theorem Trimming.supports (h : Trimming a ds kept after) (hconsistent : after.Consistent)
    {d' : Declaration} (hd' : d' ∈ kept) : a.graph.Supports d' := by
  obtain ⟨d, -, hknown, htrimmed⟩ := h.exists_of_mem hd'
  rw [← h.graph]
  constructor
  · rw [htrimmed.key_eq]
    exact h.resting.supported hconsistent hknown
  · intro members hmembers
    exact (htrimmed.meet members hmembers).mono fun id => h.resting.admits hconsistent

theorem Trimming.inside {pool : Pool} (h : Trimming a ds kept after)
    (hds : ∀ d ∈ ds, d.Inside pool) : ∀ d' ∈ kept, d'.Inside pool := by
  intro d' hd' id hid
  obtain ⟨d, hd, -, htrimmed⟩ := h.exists_of_mem hd'
  exact hds d hd id (htrimmed.types id hid)

/-- What resolves in the view of a module is inside of the pool. -/
theorem inside_of_find?_view
    (hexternal : ∀ key d, cx.external.find? key = some d → d.Inside cx.pool)
    (hm : ∀ d ∈ m.declarations, d.Inside cx.pool) {key : DeclKey} {d : Declaration}
    (hfind : (view cx m).lookup.find? key = some d) : d.Inside cx.pool := by
  rw [find?_view, Option.or_eq_some_iff] at hfind
  rcases hfind with hfind | ⟨-, hfind⟩
  · exact hm d (List.mem_of_find?_eq_some hfind)
  · exact hexternal key d hfind

/-- A pass over a module whose types are in the pool comes to an end. -/
theorem trimAll_view_total (hpool : cx.pool.Closed)
    (hexternal : ∀ key d, cx.external.find? key = some d → d.Inside cx.pool)
    (hm : ∀ d ∈ m.declarations, d.Inside cx.pool) :
    ∃ kept after, trimAll { graph := view cx m } m.declarations = .ok (kept, after) :=
  trimAll_total hpool (fun _ _ => inside_of_find?_view hexternal hm) (resting_fresh _)
    (resolves_view cx m) hm

/-- A pass changes nothing exactly if all of the module is supported. -/
theorem apply_eq_self_iff (hpool : cx.pool.Closed)
    (hexternal : ∀ key d, cx.external.find? key = some d → d.Inside cx.pool)
    (hm : ∀ d ∈ m.declarations, d.Inside cx.pool) :
    apply cx m = .ok m ↔ ∀ d ∈ m.declarations, (view cx m).Supports d := by
  obtain ⟨kept, after, htrim⟩ := trimAll_view_total hpool hexternal hm
  have htrimming := trimAll_trimming htrim (resting_fresh _) (resolves_view cx m)
  have hsame : apply cx m = .ok m ↔ kept = m.declarations := by
    rw [apply_eq_ok_iff]
    simp only [htrim, Except.ok.injEq, Prod.mk.injEq]
    obtain ⟨name, declarations, errors⟩ := m
    simp [eq_comm]
  rw [hsame]
  constructor
  · intro hkept d hd
    exact htrimming.supports (htrimming.consistent hkept (consistent_fresh _)) (hkept ▸ hd)
  · exact htrimming.complete

/-- **A second pass over what a first has left changes nothing exactly if all that is left is
supported in its own view.** This is so whenever the analyzer of the first pass is consistent in the
end. If no key of the module resolves outside of it, it is so only if what is left was supported in
the view of the module as it was. -/
theorem apply_apply_iff (cx : Context) (m : Module) (hpool : cx.pool.Closed)
    (hexternal : ∀ key d, cx.external.find? key = some d → d.Inside cx.pool)
    (hm : ∀ d ∈ m.declarations, d.Inside cx.pool) :
    ∃ kept after m', trimAll { graph := view cx m } m.declarations = .ok (kept, after) ∧
      m' = { m with declarations := kept } ∧ apply cx m = .ok m' ∧
      (apply cx m' = .ok m' ↔ ∀ d ∈ kept, (view cx m').Supports d) ∧
      (after.Consistent → apply cx m' = .ok m') ∧
      ((∀ d ∈ m.declarations, cx.external.find? d.key = none) →
        (apply cx m' = .ok m' ↔ ∀ d ∈ kept, (view cx m).Supports d)) := by
  obtain ⟨kept, after, htrim⟩ := trimAll_view_total hpool hexternal hm
  have htrimming := trimAll_trimming htrim (resting_fresh _) (resolves_view cx m)
  have hiff := apply_eq_self_iff (m := { m with declarations := kept }) hpool hexternal
    (htrimming.inside hm)
  refine ⟨kept, after, _, htrim, rfl, apply_eq_ok_iff.mpr ⟨kept, after, htrim, rfl⟩, hiff,
    fun hconsistent => ?_, fun hdisjoint => ?_⟩
  · rw [hiff]
    intro d hd
    exact supports_of_agree htrimming.agree (htrimming.supports hconsistent hd)
  · rw [hiff]
    constructor
    · intro hall d hd
      exact supports_of_agree (htrimming.agree_of_disjoint hdisjoint) (hall d hd)
    · intro hall d hd
      exact supports_of_agree htrimming.agree (hall d hd)

/-! ### A second pass that drops more -/

/-- The module of the structs that lead to each other. -/
def entangled : Module where
  name := "M"
  declarations := Entangled.declarations

/-- The context of the example, in which nothing is outside of the module. -/
def alone : Context :=
  ⟨Entangled.pool, Lookup.empty⟩

theorem apply_apply_iff_entangled :
    alone.pool.Closed ∧ (∀ key d, alone.external.find? key = some d → d.Inside alone.pool) ∧
      (∀ d ∈ entangled.declarations, d.Inside alone.pool) ∧
      ∃ m', apply alone entangled = .ok m' ∧
        (apply alone m' = .ok m' ↔ ∀ d ∈ m'.declarations, (view alone m').Supports d) := by
  have hpool : alone.pool.Closed := by decide +kernel
  have hexternal : ∀ key d, alone.external.find? key = some d → d.Inside alone.pool := by
    intro key d hfind
    cases hfind
  have hm : ∀ d ∈ entangled.declarations, d.Inside alone.pool := by decide +kernel
  obtain ⟨kept, after, m', -, rfl, happly, hiff, -⟩ :=
    apply_apply_iff alone entangled hpool hexternal hm
  exact ⟨hpool, hexternal, hm, _, happly, hiff⟩

/-- The first pass keeps `E` by mistake, and the second one drops it, since `X` is gone. -/
theorem apply_entangled_drops_more :
    alone.pool.Closed ∧ (∀ d ∈ entangled.declarations, d.Inside alone.pool) ∧
      ∃ m' m'', apply alone entangled = .ok m' ∧ apply alone m' = .ok m'' ∧ m'' ≠ m' := by
  have hfirst : apply alone entangled =
      .ok ⟨"M", [⟨Entangled.name "E", .struct [⟨"x", ⟨35⟩⟩]⟩], []⟩ := by decide +kernel
  have hsecond : apply alone ⟨"M", [⟨Entangled.name "E", .struct [⟨"x", ⟨35⟩⟩]⟩], []⟩ =
      .ok ⟨"M", [], []⟩ := by decide +kernel
  refine ⟨by decide +kernel, by decide +kernel, _, _, hfirst, hsecond, ?_⟩
  decide

end Unsupported

end ObjcMetadata
