import ObjcMetadata.Proofs.Stage.Unsupported
/-!
What the removal of unsupported declarations should leave, declaration by declaration.

The `part` of a declaration is what it comes to by itself: nothing if a question about that very
declaration has the answer no, and else the declaration with the members whose types are all
supported. Each type and each declaration is asked about with nothing known before.

One analyzer judges all of a module, so a pass need not leave the parts of all declarations. What is
supported with all its members always stays. A pass leaves the parts exactly if all that it leaves is
supported and declarations that repeat a key are judged alike (`apply_exact_iff`). Either may fail
(`apply_inexact`): a verdict may have been settled too early, and the verdict on a declaration is
taken for every later one of its key.
-/

namespace ObjcMetadata

/-! ### Members of which all types meet a condition -/

section Restrict

variable (P : TypeId → Prop) [DecidablePred P]

instance (m : Method) : Decidable (m.Meets P) :=
  inferInstanceAs (Decidable (_ ∧ ∀ id ∈ m.signature, P id))

instance (p : Property) : Decidable (p.Meets P) :=
  inferInstanceAs (Decidable (_ ∧ ∀ m ∈ p.accessors, m.Meets P))

/-- The members whose types meet a condition, in order. -/
def Members.restrict (ms : Members) : Members :=
  ⟨ms.instanceMethods.filter (·.Meets P), ms.classMethods.filter (·.Meets P),
    ms.properties.filter (·.Meets P)⟩

/-- A declaration with the members whose types meet a condition, and otherwise as it is. -/
def Declaration.restrict (d : Declaration) : Declaration :=
  match d.members? with
  | none => d
  | some ms => d.withMembers (ms.restrict P)

variable {P}

theorem Members.restrict_meet (ms : Members) : (ms.restrict P).Meet P := by
  constructor
  · intro m hm
    exact of_decide_eq_true (List.mem_filter.mp hm).2
  · intro m hm
    exact of_decide_eq_true (List.mem_filter.mp hm).2
  · intro p hp
    exact of_decide_eq_true (List.mem_filter.mp hp).2

theorem Members.restrict_congr {Q : TypeId → Prop} [DecidablePred Q] {ms : Members}
    (h : ∀ id ∈ ms.types, P id ↔ Q id) : ms.restrict P = ms.restrict Q := by
  have hmethod : ∀ m : Method, (∀ id ∈ m.signature, id ∈ ms.types) → (m.Meets P ↔ m.Meets Q) := by
    intro m hm
    exact and_congr_right fun _ => forall₂_congr fun id hid => h id (hm id hid)
  have hproperty : ∀ p : Property, (∀ id ∈ p.types, id ∈ ms.types) → (p.Meets P ↔ p.Meets Q) := by
    intro p hp
    refine and_congr (h p.type (hp p.type List.mem_cons_self)) ?_
    refine forall₂_congr fun m hm => hmethod m fun id hid => hp id ?_
    exact List.mem_cons_of_mem _ (List.mem_flatMap.mpr ⟨m, hm, hid⟩)
  unfold Members.restrict
  congr 1
  · refine List.filter_congr fun m hm => decide_eq_decide.mpr (hmethod m fun id hid => ?_)
    exact Members.mem_types.mpr (.inl ⟨m, hm, hid⟩)
  · refine List.filter_congr fun m hm => decide_eq_decide.mpr (hmethod m fun id hid => ?_)
    exact Members.mem_types.mpr (.inr (.inl ⟨m, hm, hid⟩))
  · refine List.filter_congr fun p hp => decide_eq_decide.mpr (hproperty p fun id hid => ?_)
    exact Members.mem_types.mpr (.inr (.inr ⟨p, hp, hid⟩))

theorem Declaration.restrict_congr {Q : TypeId → Prop} [DecidablePred Q] {d : Declaration}
    (h : ∀ id ∈ d.ownTypes, P id ↔ Q id) : d.restrict P = d.restrict Q := by
  unfold Declaration.restrict
  cases hmembers : d.members? with
  | none => rfl
  | some ms =>
    rw [Declaration.ownTypes_of_members? hmembers] at h
    simp only [Members.restrict_congr h]

@[simp] theorem Declaration.key_restrict (d : Declaration) : (d.restrict P).key = d.key := by
  unfold Declaration.restrict
  split
  · rfl
  · exact d.key_withMembers _

theorem Declaration.members?_restrict {d : Declaration} {ms : Members}
    (h : (d.restrict P).members? = some ms) : ms.Meet P := by
  unfold Declaration.restrict at h
  split at h
  · rename_i hnone
    rw [hnone] at h
    cases h
  · rename_i ms' hms'
    rw [Declaration.members?_withMembers, hms'] at h
    obtain rfl : ms'.restrict P = ms := Option.some.inj h
    exact ms'.restrict_meet

end Restrict

/-! ### Selections that are right -/

namespace Support.Analyzer

variable {a after : Analyzer}

/-- A selection that keeps only what is supported keeps just that. -/
theorem Replies.select_eq_filter {α : Type} {judge : Analyzer → α → Answer Bool}
    {types : α → List TypeId} {Meets : α → (TypeId → Prop) → Prop}
    (hr : Replies judge types Meets) {g : Graph} [DecidablePred fun x => Meets x g.Admits]
    {xs kept : List α} (h : select judge a xs = .ok (kept, after)) (hrest : a.Resting)
    (hgraph : a.graph = g) (hkept : ∀ x ∈ kept, Meets x g.Admits) :
    kept = xs.filter fun x => Meets x g.Admits := by
  induction xs generalizing a kept with
  | nil =>
    simp only [select, Except.ok.injEq, Prod.mk.injEq] at h
    exact h.1.symm
  | cons x rest ih =>
    obtain ⟨answer, next, others, hx, hothers, rfl⟩ := select_cons_ok h
    have hfirst := hr.reply hx hrest
    have hnext : next.graph = g := hfirst.graph.trans hgraph
    cases answer with
    | false =>
      have hno : ¬ Meets x g.Admits := hgraph ▸ hfirst.no rfl
      rw [List.filter_cons_of_neg (by simpa using hno)]
      exact ih hothers hfirst.resting hnext hkept
    | true =>
      have hyes := hkept x List.mem_cons_self
      rw [List.filter_cons_of_pos (by simpa using hyes)]
      exact congrArg (x :: ·)
        (ih hothers hfirst.resting hnext fun y hy => hkept y (List.mem_cons_of_mem x hy))

/-- A selection of members that keeps only what is supported keeps just that. -/
theorem selectMembers_eq_restrict {g : Graph} [DecidablePred g.Admits] {ms kept : Members}
    (h : a.selectMembers ms = .ok (kept, after)) (hrest : a.Resting) (hgraph : a.graph = g)
    (hkept : kept.Meet g.Admits) : kept = ms.restrict g.Admits := by
  obtain ⟨b, c, hinstance, hclass, hproperties⟩ := selectMembers_ok h
  have hi := replies_judgeMethod.selection hinstance hrest
  have hc := replies_judgeMethod.selection hclass hi.resting
  obtain ⟨instanceMethods, classMethods, properties⟩ := kept
  unfold Members.restrict
  congr 1
  · exact replies_judgeMethod.select_eq_filter hinstance hrest hgraph hkept.instanceMethods
  · exact replies_judgeMethod.select_eq_filter hclass hi.resting (hi.graph.trans hgraph)
      hkept.classMethods
  · exact replies_judgeProperty.select_eq_filter hproperties hc.resting
      (hc.graph.trans (hi.graph.trans hgraph)) hkept.properties

end Support.Analyzer

namespace Unsupported

open Support Analyzer

variable {a after : Analyzer} {g : Graph} {ds kept : List Declaration}

section Trimming

variable [DecidablePred g.Admits]

theorem trim_eq_restrict {d d' : Declaration} (h : trim a d = .ok (some d', after))
    (hrest : a.Resting) (hgraph : a.graph = g)
    (hfind : a.graph.lookup.find? d.key = some d ∨ (a.known? (.decl d.key)).isSome)
    (hmeet : ∀ ms, d'.members? = some ms → ms.Meet g.Admits) : d' = d.restrict g.Admits := by
  unfold Declaration.restrict
  rcases trim_cases h with ⟨-, hnone⟩ | ⟨-, hmembers, hsome⟩ |
    ⟨next, members, chosen, hjudge, hmembers, hselect, hsome⟩
  · cases hnone
  · rw [hmembers]
    exact Option.some.inj hsome
  · obtain rfl : d' = d.withMembers chosen := Option.some.inj hsome
    have hjudged := judgeDecl_judged hjudge hrest hfind
    have hchosen : chosen.Meet g.Admits := hmeet chosen (by simp [hmembers])
    rw [hmembers, selectMembers_eq_restrict hselect hjudged.resting (hjudged.graph.trans hgraph)
      hchosen]

/-- A pass that leaves only supported members leaves all that are supported. -/
theorem trimAll_eq_map_restrict (h : trimAll a ds = .ok (kept, after)) (hrest : a.Resting)
    (hgraph : a.graph = g) (hresolves : Resolves a ds)
    (hmeet : ∀ d' ∈ kept, ∀ ms, d'.members? = some ms → ms.Meet g.Admits) :
    kept = (ds.filter fun d => after.knownKey d.key = some true).map (·.restrict g.Admits) := by
  induction ds generalizing a kept with
  | nil =>
    simp only [trimAll, Except.ok.injEq, Prod.mk.injEq] at h
    exact h.1.symm
  | cons d rest ih =>
    obtain ⟨kept?, next, others, htrim, hothers, rfl⟩ := trimAll_cons_ok h
    have hd := trim_result htrim hrest hresolves.head
    have hresolves' := hresolves.tail hd
    have hlast : after.knownKey d.key = some kept?.isSome :=
      (trimAll_trimming hothers hd.resting hresolves').keeps _ _ hd.known
    have hothers' := ih hothers hd.resting (hd.graph.trans hgraph) hresolves'
      fun d' hd' => hmeet d' (List.mem_append_right _ hd')
    cases kept? with
    | none =>
      rw [List.filter_cons_of_neg (by simp [hlast])]
      exact hothers'
    | some d' =>
      rw [List.filter_cons_of_pos (by simp [hlast]), List.map_cons,
        ← trim_eq_restrict htrim hrest hgraph hresolves.head (hmeet d' List.mem_cons_self),
        ← hothers']
      rfl

end Trimming

/-! ### Parts -/

/-- What a declaration comes to by itself: nothing if it is not supported, and else the declaration
with its supported members. -/
def part (g : Graph) (d : Declaration) : Option Declaration :=
  if isDeclSupported g d = .ok true then
    some (d.restrict fun id => isTypeSupported g id = .ok true)
  else none

theorem admits_of_isTypeSupported {id : TypeId} (h : isTypeSupported g id = .ok true) :
    g.Admits id := by
  have hjudges := g.judges_visit (.type id)
  rw [← judgeIn_map_fst { graph := g } g (.type id)] at hjudges
  change g.Judges (.type id) (isTypeSupported g id) at hjudges
  rw [h] at hjudges
  exact fun hunsupported => Bool.noConfusion (hjudges.mpr hunsupported)

theorem isTypeSupported_eq_ok_true_iff (hinside : g.Inside) {id : TypeId}
    (hid : g.pool.contains id = true) : isTypeSupported g id = .ok true ↔ g.Admits id := by
  refine ⟨admits_of_isTypeSupported, fun hadmits => ?_⟩
  have hhas : g.Has (.type id) := hid
  exact (hinside.judge_eq_ok_iff hhas).mpr (by simpa [Graph.Admits] using hadmits)

theorem isDeclSupported_eq_judge (g : Graph) (d : Declaration) :
    isDeclSupported g d = (g.overriding d).judge (.decl d.key) := by
  unfold isDeclSupported Graph.judge Analyzer.judgeDecl
  rw [judgeIn_map_fst, judgeIn_map_fst]

theorem isDeclSupported_eq_ok_iff (hinside : g.Inside) {d : Declaration} (hd : d.Inside g.pool)
    {supported : Bool} : isDeclSupported g d = .ok supported ↔
      (supported = false ↔ (g.overriding d).Unsupported (.decl d.key)) := by
  have hhas : (g.overriding d).Has (.decl d.key) := trivial
  rw [isDeclSupported_eq_judge]
  exact (hinside.overriding hd).judge_eq_ok_iff hhas

/-- A question about a declaration has an answer. -/
theorem isDeclSupported_total (hinside : g.Inside) {d : Declaration} (hd : d.Inside g.pool) :
    ∃ supported, isDeclSupported g d = .ok supported := by
  by_cases h : (g.overriding d).Unsupported (.decl d.key)
  · exact ⟨false, (isDeclSupported_eq_ok_iff hinside hd).mpr (by simp [h])⟩
  · exact ⟨true, (isDeclSupported_eq_ok_iff hinside hd).mpr (by simp [h])⟩

/-- A declaration that its key resolves to is supported if the key is. -/
theorem isDeclSupported_of_find? (hinside : g.Inside) {d : Declaration} (hd : d.Inside g.pool)
    (hfind : g.lookup.find? d.key = some d) :
    isDeclSupported g d = .ok true ↔ ¬ g.Unsupported (.decl d.key) := by
  rw [isDeclSupported_eq_ok_iff hinside hd, ← Graph.doomed_iff, demand_overriding hfind,
    Graph.doomed_iff]
  simp

theorem part_eq_some {d d' : Declaration} (h : part g d = some d') :
    isDeclSupported g d = .ok true ∧ d' = d.restrict fun id => isTypeSupported g id = .ok true := by
  unfold part at h
  split at h
  · exact ⟨‹_›, (Option.some.inj h).symm⟩
  · cases h

theorem filterMap_part (g : Graph) (ds : List Declaration) :
    ds.filterMap (part g) = (ds.filter fun d => isDeclSupported g d = .ok true).map
      (·.restrict fun id => isTypeSupported g id = .ok true) := by
  induction ds with
  | nil => rfl
  | cons d rest ih =>
    by_cases hd : isDeclSupported g d = .ok true
    · rw [List.filterMap_cons, List.filter_cons_of_pos (by simpa using hd), List.map_cons, ← ih]
      simp only [part, hd, ↓reduceIte]
    · rw [List.filterMap_cons, List.filter_cons_of_neg (by simpa using hd), ← ih]
      simp only [part, hd, ↓reduceIte]

/-! ### What a pass never changes -/

/-- One declaration is another with some of its members, which stand in the same order. -/
structure Thinned (d d' : Declaration) : Prop where
  shape : ∃ members, d' = d.withMembers members
  sublists : ∀ ms ms', d.members? = some ms → d'.members? = some ms' →
    ms'.instanceMethods.Sublist ms.instanceMethods ∧ ms'.classMethods.Sublist ms.classMethods ∧
      ms'.properties.Sublist ms.properties

theorem trim_thinned {d d' : Declaration} (h : trim a d = .ok (some d', after)) : Thinned d d' := by
  rcases trim_cases h with ⟨-, hnone⟩ | ⟨-, hmembers, hsome⟩ |
    ⟨next, members, chosen, -, hmembers, hselect, hsome⟩
  · cases hnone
  · obtain rfl : d' = d := Option.some.inj hsome
    refine ⟨⟨{}, (d'.withMembers_of_none hmembers).symm⟩, fun ms ms' hms => ?_⟩
    rw [hmembers] at hms
    cases hms
  · obtain rfl : d' = d.withMembers chosen := Option.some.inj hsome
    refine ⟨⟨chosen, rfl⟩, fun ms ms' hms hms' => ?_⟩
    obtain rfl : ms = members := Option.some.inj (hms.symm.trans hmembers)
    obtain rfl : chosen = ms' := Option.some.inj (by simpa [hmembers] using hms')
    obtain ⟨b, c, hinstance, hclass, hproperties⟩ := selectMembers_ok hselect
    exact ⟨select_sublist hinstance, select_sublist hclass, select_sublist hproperties⟩

/-- A pass leaves declarations in order, each with members in order. -/
theorem trimAll_thinned (h : trimAll a ds = .ok (kept, after)) :
    ∃ chosen, chosen.Sublist ds ∧ List.Forall₂ Thinned chosen kept := by
  induction ds generalizing a kept with
  | nil =>
    simp only [trimAll, Except.ok.injEq, Prod.mk.injEq] at h
    exact ⟨[], .refl [], h.1 ▸ .nil⟩
  | cons d rest ih =>
    obtain ⟨kept?, next, others, htrim, hothers, rfl⟩ := trimAll_cons_ok h
    obtain ⟨chosen, hsublist, hthinned⟩ := ih hothers
    cases kept? with
    | none => exact ⟨chosen, hsublist.cons d, hthinned⟩
    | some d' => exact ⟨d :: chosen, hsublist.cons_cons d, .cons (trim_thinned htrim) hthinned⟩

/-! ### Choices by key -/

theorem count_key_filter (p : Declaration → Bool) (key : DeclKey) :
    ((ds.filter p).map Declaration.key).count key = (ds.filter (·.key == key)).countP p := by
  rw [List.count, List.countP_map, List.countP_filter, List.countP_filter]
  congr 1
  funext d
  exact Bool.and_comm _ _

/-- If the declarations of chosen keys have the same keys as some chosen declarations, these are
just those. -/
theorem eq_of_filter_keys_eq (chosen : DeclKey → Bool) {p : Declaration → Bool}
    (h : (ds.filter fun d => chosen d.key).map Declaration.key =
      (ds.filter p).map Declaration.key) : ∀ d ∈ ds, chosen d.key = p d := by
  intro d hd
  have hmem : d ∈ ds.filter (·.key == d.key) := List.mem_filter.mpr ⟨hd, by simp⟩
  have hcount := congrArg (List.count d.key) h
  rw [count_key_filter, count_key_filter] at hcount
  have hsame : (ds.filter (·.key == d.key)).countP (fun e => chosen e.key) =
      (ds.filter (·.key == d.key)).countP fun _ => chosen d.key := by
    refine List.countP_congr fun e he => ?_
    rw [beq_iff_eq.mp (List.mem_filter.mp he).2]
  rw [hsame] at hcount
  cases hchosen : chosen d.key with
  | true =>
    rw [hchosen, List.countP_true] at hcount
    exact (List.countP_eq_length.mp hcount.symm d hmem).symm
  | false =>
    rw [hchosen, List.countP_false] at hcount
    have hnot := List.countP_eq_zero.mp hcount.symm d hmem
    exact (Bool.not_eq_true _ ▸ hnot).symm

/-! ### A pass and the parts -/

variable {cx : Context} {m : Module}

/-- Declarations of one key are judged alike, each by itself. -/
def Agrees (g : Graph) (ds : List Declaration) : Prop :=
  ∀ d ∈ ds, ∀ e ∈ ds, d.key = e.key → isDeclSupported g d = isDeclSupported g e

/-- If all that a pass leaves is supported, the keys that it comes to know as supported are. -/
theorem Trimming.known_iff (h : Trimming a ds kept after) (hgraph : a.graph = g)
    (hkept : ∀ d ∈ kept, g.Supports d) {d : Declaration} (hd : d ∈ ds) :
    after.knownKey d.key = some true ↔ ¬ g.Unsupported (.decl d.key) := by
  constructor
  · intro hknown
    have hmem : d.key ∈ kept.map Declaration.key := by
      rw [← h.keys_eq]
      exact List.mem_map_of_mem (List.mem_filter.mpr ⟨hd, decide_eq_true hknown⟩)
    obtain ⟨d', hd', hkey⟩ := List.mem_map.mp hmem
    exact hkey ▸ (hkept d' hd').1
  · intro hsupported
    obtain ⟨answer, hanswer⟩ := Option.isSome_iff_exists.mp (h.known d hd)
    cases answer with
    | true => exact hanswer
    | false =>
      have hunsupported : after.graph.Unsupported (.decl d.key) := h.resting.unsupported hanswer
      rw [h.graph, hgraph] at hunsupported
      exact absurd hunsupported hsupported

section Pass

variable (hpool : cx.pool.Closed)
  (hexternal : ∀ key d, cx.external.find? key = some d → d.Inside cx.pool)
  (hm : ∀ d ∈ m.declarations, d.Inside cx.pool)

include hpool hexternal hm

theorem view_inside : (view cx m).Inside :=
  Graph.inside_of_closed hpool fun _ _ => inside_of_find?_view hexternal hm

/-- The first declaration of a key in a module is judged like the key in the view of the module. -/
theorem exists_first {d : Declaration} (hd : d ∈ m.declarations) :
    ∃ first ∈ m.declarations, first.key = d.key ∧
      (isDeclSupported (view cx m) first = .ok true ↔
        ¬ (view cx m).Unsupported (.decl d.key)) := by
  have hinside := view_inside hpool hexternal hm
  obtain ⟨first, hmem, hkey, hfirst⟩ := Declaration.exists_find?_key (List.mem_map_of_mem hd)
  refine ⟨first, hmem, hkey, ?_⟩
  rw [← hkey]
  refine isDeclSupported_of_find? hinside (hm first hmem) ?_
  rw [find?_view, hkey, hfirst]
  rfl

/-- A pass that leaves only what is supported leaves the parts of all declarations, if those of one
key are judged alike. -/
theorem trimAll_eq_parts
    (htrim : trimAll { graph := view cx m } m.declarations = .ok (kept, after))
    (hkept : ∀ d ∈ kept, (view cx m).Supports d) (hagrees : Agrees (view cx m) m.declarations) :
    kept = m.declarations.filterMap (part (view cx m)) := by
  classical
  have hinside := view_inside hpool hexternal hm
  have htrimming := trimAll_trimming htrim (resting_fresh _) (resolves_view cx m)
  rw [filterMap_part, trimAll_eq_map_restrict htrim (resting_fresh _) rfl (resolves_view cx m)
    fun d hd => (hkept d hd).2]
  have hchosen : ∀ d ∈ m.declarations, after.knownKey d.key = some true ↔
      isDeclSupported (view cx m) d = .ok true := by
    intro d hd
    obtain ⟨first, hfirst, hkey, hjudged⟩ := exists_first hpool hexternal hm hd
    rw [htrimming.known_iff rfl hkept hd, ← hjudged, hagrees first hfirst d hd hkey]
  rw [List.filter_congr fun d hd => decide_eq_decide.mpr (hchosen d hd)]
  refine List.map_congr_left fun d hd => Declaration.restrict_congr fun id hid => ?_
  exact (isTypeSupported_eq_ok_true_iff hinside (hm d (List.mem_filter.mp hd).1 id hid)).symm

/-- A pass that leaves the parts of all declarations leaves only what is supported, and those of one
key are judged alike. -/
theorem supports_of_eq_parts
    (htrim : trimAll { graph := view cx m } m.declarations = .ok (kept, after))
    (hparts : kept = m.declarations.filterMap (part (view cx m))) :
    (∀ d ∈ kept, (view cx m).Supports d) ∧ Agrees (view cx m) m.declarations := by
  have hinside := view_inside hpool hexternal hm
  have htrimming := trimAll_trimming htrim (resting_fresh _) (resolves_view cx m)
  have hchosen : ∀ d ∈ m.declarations, decide (after.knownKey d.key = some true) =
      decide (isDeclSupported (view cx m) d = .ok true) := by
    refine eq_of_filter_keys_eq (fun key => after.knownKey key = some true) ?_
    rw [htrimming.keys_eq, hparts, filterMap_part, List.map_map]
    exact List.map_congr_left fun d _ => d.key_restrict
  have hverdict : ∀ d ∈ m.declarations, ∀ e ∈ m.declarations, d.key = e.key →
      (isDeclSupported (view cx m) d = .ok true ↔ isDeclSupported (view cx m) e = .ok true) := by
    intro d hd e he hkey
    rw [← decide_eq_decide, ← hchosen d hd, ← hchosen e he, hkey]
  constructor
  · intro d' hd'
    rw [hparts] at hd'
    obtain ⟨d, hd, hpart⟩ := List.mem_filterMap.mp hd'
    obtain ⟨hsupported, rfl⟩ := part_eq_some hpart
    obtain ⟨first, hfirst, hkey, hjudged⟩ := exists_first hpool hexternal hm hd
    refine ⟨?_, fun ms hms => ?_⟩
    · rw [Declaration.key_restrict]
      exact hjudged.mp ((hverdict first hfirst d hd hkey).mpr hsupported)
    · exact (Declaration.members?_restrict hms).mono fun id => admits_of_isTypeSupported
  · intro d hd e he hkey
    obtain ⟨answer, hanswer⟩ := isDeclSupported_total hinside (hm d hd)
    obtain ⟨answer', hanswer'⟩ := isDeclSupported_total hinside (hm e he)
    have hsame := hverdict d hd e he hkey
    rw [hanswer, hanswer'] at hsame ⊢
    cases answer <;> cases answer' <;> simp_all

end Pass

/-- **A pass leaves the parts of all declarations exactly if all that it leaves is supported and
declarations of one key are judged alike.** In particular it does so if the analyzer is consistent
in the end and declarations of one key are judged alike. In any case whatever is supported with all
its members stays as it is, and declarations and members that stay do so in their order. -/
theorem apply_exact_iff (cx : Context) (m : Module) (hpool : cx.pool.Closed)
    (hexternal : ∀ key d, cx.external.find? key = some d → d.Inside cx.pool)
    (hm : ∀ d ∈ m.declarations, d.Inside cx.pool) :
    ∃ kept after, trimAll { graph := view cx m } m.declarations = .ok (kept, after) ∧
      apply cx m = .ok { m with declarations := kept } ∧
      (kept = m.declarations.filterMap (part (view cx m)) ↔
        (∀ d ∈ kept, (view cx m).Supports d) ∧ Agrees (view cx m) m.declarations) ∧
      (after.Consistent → Agrees (view cx m) m.declarations →
        kept = m.declarations.filterMap (part (view cx m))) ∧
      (∀ d ∈ m.declarations, (view cx m).Supports d → d ∈ kept) ∧
      ∃ chosen, chosen.Sublist m.declarations ∧ List.Forall₂ Thinned chosen kept := by
  obtain ⟨kept, after, htrim⟩ := trimAll_view_total hpool hexternal hm
  have htrimming := trimAll_trimming htrim (resting_fresh _) (resolves_view cx m)
  refine ⟨kept, after, htrim, apply_eq_ok_iff.mpr ⟨kept, after, htrim, rfl⟩, ⟨?_, ?_⟩, ?_, ?_,
    trimAll_thinned htrim⟩
  · exact supports_of_eq_parts hpool hexternal hm htrim
  · rintro ⟨hkept, hagrees⟩
    exact trimAll_eq_parts hpool hexternal hm htrim hkept hagrees
  · intro hconsistent hagrees
    exact trimAll_eq_parts hpool hexternal hm htrim (fun d => htrimming.supports hconsistent)
      hagrees
  · intro d
    exact mem_of_supports htrim (resting_fresh _) (resolves_view cx m)

/-! ### Passes that leave other things -/

/-- An interface with members of which some are unsupported, a struct that is, and a struct that is
declared twice. -/
def mixed : Module where
  name := "M"
  declarations :=
    [⟨⟨"M", "View"⟩, .interface { members :=
        ⟨[⟨"size", [.ofPrimitive .int], {}⟩, ⟨"wide", [.ofPrimitive .int128], {}⟩],
          [⟨"make", [], {}⟩],
          [⟨"size", .ofPrimitive .int, some ⟨"size", [.ofPrimitive .int], {}⟩, none, {}⟩,
            ⟨"tag", .ofPrimitive .int, some ⟨"tag", [.ofPrimitive .int128], {}⟩, none, {}⟩]⟩ }⟩,
      ⟨⟨"M", "Wide"⟩, .struct [⟨"wide", .ofPrimitive .int128⟩]⟩,
      ⟨⟨"M", "Size"⟩, .struct [⟨"n", .ofPrimitive .int⟩]⟩,
      ⟨⟨"M", "Size"⟩, .struct [⟨"count", .ofPrimitive .int⟩]⟩]

/-- Two structs of one name, of which the second has a field of an unsupported kind. -/
def repeated : Module where
  name := "M"
  declarations :=
    [⟨⟨"M", "Size"⟩, .struct [⟨"n", .ofPrimitive .int⟩]⟩,
      ⟨⟨"M", "Size"⟩, .struct [⟨"wide", .ofPrimitive .int128⟩]⟩]

theorem apply_exact_iff_mixed :
    alone.pool.Closed ∧ (∀ key d, alone.external.find? key = some d → d.Inside alone.pool) ∧
      (∀ d ∈ mixed.declarations, d.Inside alone.pool) ∧ Agrees (view alone mixed) mixed.declarations ∧
      ∃ kept, apply alone mixed = .ok { mixed with declarations := kept } ∧
        kept = mixed.declarations.filterMap (part (view alone mixed)) ∧
        kept.map (fun d => d.ownTypes.length) = [3, 1, 1] ∧
        ∀ d ∈ kept, (view alone mixed).Supports d := by
  have hpool : alone.pool.Closed := by decide +kernel
  have hexternal : ∀ key d, alone.external.find? key = some d → d.Inside alone.pool := by
    intro key d hfind
    cases hfind
  have hm : ∀ d ∈ mixed.declarations, d.Inside alone.pool := by decide +kernel
  obtain ⟨kept, after, -, happly, hiff, -⟩ := apply_exact_iff alone mixed hpool hexternal hm
  have hrun : apply alone mixed = .ok { mixed with
      declarations := mixed.declarations.filterMap (part (view alone mixed)) } := by
    decide +kernel
  have hkept : kept = mixed.declarations.filterMap (part (view alone mixed)) :=
    congrArg Module.declarations (Except.ok.inj (happly.symm.trans hrun))
  obtain ⟨hsupports, hagrees⟩ := hiff.mp hkept
  refine ⟨hpool, hexternal, hm, hagrees, kept, happly, hkept, ?_, hsupports⟩
  rw [hkept]
  decide +kernel

/-- Of the structs that lead to each other, whose names are all different, `E` stays by mistake. Of
the structs of one name the second stays for the sake of the first, and in the other order the
second goes for the sake of the first. -/
theorem apply_inexact :
    (∃ kept, apply alone entangled = .ok { entangled with declarations := kept } ∧
      kept.map Declaration.name = [Entangled.name "E"] ∧
      entangled.declarations.filterMap (part (view alone entangled)) = []) ∧
    apply alone repeated = .ok repeated ∧
      (repeated.declarations.filterMap (part (view alone repeated))).length = 1 ∧
      ∃ reversed, reversed = { repeated with declarations := repeated.declarations.reverse } ∧
        apply alone reversed = .ok { reversed with declarations := [] } ∧
        (reversed.declarations.filterMap (part (view alone reversed))).length = 1 := by
  refine ⟨⟨[⟨Entangled.name "E", .struct [⟨"x", ⟨35⟩⟩]⟩], ?_, ?_, ?_⟩, ?_, ?_, _, rfl, ?_, ?_⟩
  all_goals decide +kernel

end Unsupported

end ObjcMetadata
