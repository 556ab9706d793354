import ObjcMetadata.Proofs.Support.Session
/-!
Queries about members.

A method, a property or a list of members is supported if all its types are, and a method also needs
a return type. What a query about them comes to is stated once for all of them: an answer yes means
that the analyzer knows all the types to be supported, an answer no that they are not all supported
(`Replies`). A selection of members keeps some in order, and it keeps all of them if all are
supported (`Selection`).
-/

namespace ObjcMetadata

/-! ### Members whose types meet a condition -/

variable {P Q : TypeId → Prop}

/-- A method has a return type, and all types of its signature meet a condition. -/
def Method.Meets (P : TypeId → Prop) (m : Method) : Prop :=
  m.signature ≠ [] ∧ ∀ id ∈ m.signature, P id

/-- The type of a property meets a condition, and so do its accessors. -/
def Property.Meets (P : TypeId → Prop) (p : Property) : Prop :=
  P p.type ∧ ∀ m ∈ p.accessors, m.Meets P

/-- All members meet a condition. -/
structure Members.Meet (P : TypeId → Prop) (ms : Members) : Prop where
  instanceMethods : ∀ m ∈ ms.instanceMethods, m.Meets P
  classMethods : ∀ m ∈ ms.classMethods, m.Meets P
  properties : ∀ p ∈ ms.properties, p.Meets P

theorem Method.Meets.mono {m : Method} (h : m.Meets P) (himp : ∀ id, P id → Q id) : m.Meets Q :=
  ⟨h.1, fun id hid => himp id (h.2 id hid)⟩

theorem Property.Meets.mono {p : Property} (h : p.Meets P) (himp : ∀ id, P id → Q id) :
    p.Meets Q :=
  ⟨himp p.type h.1, fun m hm => (h.2 m hm).mono himp⟩

theorem Members.Meet.mono {ms : Members} (h : ms.Meet P) (himp : ∀ id, P id → Q id) :
    ms.Meet Q where
  instanceMethods m hm := (h.instanceMethods m hm).mono himp
  classMethods m hm := (h.classMethods m hm).mono himp
  properties p hp := (h.properties p hp).mono himp

theorem Property.Meets.types {p : Property} (h : p.Meets P) : ∀ id ∈ p.types, P id := by
  intro id hid
  rcases List.mem_cons.mp hid with rfl | hid
  · exact h.1
  · obtain ⟨m, hm, hid⟩ := List.mem_flatMap.mp hid
    exact (h.2 m hm).2 id hid

/-- The types of members that meet a condition meet it. -/
theorem Members.Meet.types {ms : Members} (h : ms.Meet P) : ∀ id ∈ ms.types, P id := by
  intro id hid
  rcases Members.mem_types.mp hid with ⟨m, hm, hid⟩ | ⟨m, hm, hid⟩ | ⟨p, hp, hid⟩
  · exact (h.instanceMethods m hm).2 id hid
  · exact (h.classMethods m hm).2 id hid
  · exact (h.properties p hp).types id hid

namespace Support

/-- A type is supported. -/
def Graph.Admits (g : Graph) (id : TypeId) : Prop :=
  ¬ g.Unsupported (.type id)

namespace Analyzer

/-- A type is known to be supported. -/
def Knows (a : Analyzer) (id : TypeId) : Prop :=
  a.knownType id = some true

variable {a after : Analyzer}

theorem Later.knows (h : Later a after) {id : TypeId} (hid : a.Knows id) : after.Knows id :=
  h.keeps (.type id) true hid

/-- What a consistent analyzer knows to be supported is. -/
theorem Resting.admits (h : a.Resting) (hconsistent : a.Consistent) {id : TypeId}
    (hid : a.Knows id) : a.graph.Admits id :=
  h.supported hconsistent hid

/-! ### Queries about several types -/

/-- What a query comes to, if `Meets` says what must hold of the types that it is about. -/
structure Reply (a : Analyzer) (Meets : (TypeId → Prop) → Prop) (answer : Bool)
    (after : Analyzer) : Prop extends Later a after where
  yes : answer = true → Meets after.Knows
  no : answer = false → ¬ Meets a.graph.Admits
  consistent : answer = true → a.Consistent → after.Consistent

/-- Queries of one kind about elements, which name types of which something must hold. -/
structure Replies {α : Type} (judge : Analyzer → α → Answer Bool) (types : α → List TypeId)
    (Meets : α → (TypeId → Prop) → Prop) : Prop where
  mono : ∀ {x : α} {P Q : TypeId → Prop}, Meets x P → (∀ id, P id → Q id) → Meets x Q
  reply : ∀ {a : Analyzer} {x : α} {answer : Bool} {after : Analyzer},
    judge a x = .ok (answer, after) → a.Resting → Reply a (Meets x) answer after
  total : ∀ {a : Analyzer} {x : α}, a.Resting → a.graph.Inside →
    (∀ id ∈ types x, a.graph.Has (.type id)) → ∃ answer after, judge a x = .ok (answer, after)

theorem replies_judgeType : Replies judgeType (fun id => [id]) fun id P => P id where
  mono h himp := himp _ h
  reply h hrest := by
    have hjudged := judgeIn_judged h hrest rfl
    refine ⟨hjudged.toLater, ?_, ?_, hjudged.consistent⟩
    · rintro rfl
      exact hjudged.known
    · rintro rfl hadmits
      have hunsupported := hjudged.resting.unsupported hjudged.known
      rw [hjudged.graph] at hunsupported
      exact hadmits hunsupported
  total _ hinside hhas := judgeIn_total _ hinside (hhas _ (List.mem_singleton_self _))

section Lists

variable {α : Type} {judge : Analyzer → α → Answer Bool} {types : α → List TypeId}
  {Meets : α → (TypeId → Prop) → Prop}

theorem Replies.judgeAll (hr : Replies judge types Meets) :
    Replies (judgeAll judge) (fun xs => xs.flatMap types) fun xs P => ∀ x ∈ xs, Meets x P where
  mono h himp x hx := hr.mono (h x hx) himp
  reply {a xs answer after} h hrest := by
    induction xs generalizing a with
    | nil =>
      simp only [Analyzer.judgeAll, Except.ok.injEq, Prod.mk.injEq] at h
      obtain ⟨rfl, rfl⟩ := h
      exact ⟨.refl hrest, by simp, by simp, fun _ hconsistent => hconsistent⟩
    | cons x rest ih =>
      unfold Analyzer.judgeAll at h
      cases hx : judge a x with
      | error e => simp [hx] at h
      | ok first =>
        obtain ⟨firstAnswer, next⟩ := first
        have hfirst := hr.reply hx hrest
        cases firstAnswer with
        | false =>
          simp only [hx, Except.ok.injEq, Prod.mk.injEq] at h
          obtain ⟨rfl, rfl⟩ := h
          refine ⟨hfirst.toLater, by simp, fun _ hall => ?_, by simp⟩
          exact hfirst.no rfl (hall x List.mem_cons_self)
        | true =>
          simp only [hx] at h
          have hrest' := ih h hfirst.resting
          refine ⟨hfirst.toLater.trans hrest'.toLater, ?_, ?_, ?_⟩
          · intro hyes y hy
            rcases List.mem_cons.mp hy with rfl | hy
            · exact hr.mono (hfirst.yes rfl) fun id => hrest'.knows
            · exact hrest'.yes hyes y hy
          · intro hno hall
            refine hrest'.no hno ?_
            intro y hy
            rw [hfirst.graph]
            exact hall y (List.mem_cons_of_mem x hy)
          · exact fun hyes hconsistent => hrest'.consistent hyes (hfirst.consistent rfl hconsistent)
  total {a xs} hrest hinside hhas := by
    induction xs generalizing a with
    | nil => exact ⟨true, a, rfl⟩
    | cons x rest ih =>
      have hx := fun id hid => hhas id (List.mem_flatMap.mpr ⟨x, List.mem_cons_self, hid⟩)
      obtain ⟨answer, next, hjudge⟩ := hr.total hrest hinside hx
      have hnext := hr.reply hjudge hrest
      unfold Analyzer.judgeAll
      cases answer with
      | false => exact ⟨false, next, by simp only [hjudge]⟩
      | true =>
        simp only [hjudge]
        refine ih hnext.resting (hnext.graph ▸ hinside) fun id hid => hnext.graph ▸ hhas id ?_
        rw [List.flatMap_cons]
        exact List.mem_append_right _ hid

end Lists

theorem replies_judgeMethod : Replies judgeMethod (·.signature) fun m P => m.Meets P := by
  have hsignature := replies_judgeType.judgeAll
  refine ⟨Method.Meets.mono, ?_, ?_⟩
  · intro a m answer after h hrest
    unfold judgeMethod at h
    cases hm : m.signature with
    | nil =>
      simp only [hm, List.isEmpty_nil, ↓reduceIte, Except.ok.injEq, Prod.mk.injEq] at h
      obtain ⟨rfl, rfl⟩ := h
      exact ⟨.refl hrest, by simp, fun _ hmeets => hmeets.1 hm, by simp⟩
    | cons id ids =>
      simp only [hm, List.isEmpty_cons, Bool.false_eq_true, ↓reduceIte] at h
      have hreply := hsignature.reply h hrest
      refine ⟨hreply.toLater, fun hyes => ⟨by simp [hm], ?_⟩, fun hno hmeets => ?_,
        hreply.consistent⟩
      · rw [hm]
        exact hreply.yes hyes
      · refine hreply.no hno ?_
        rw [← hm]
        exact hmeets.2
  · intro a m hrest hinside hhas
    unfold judgeMethod
    split
    · exact ⟨false, a, rfl⟩
    · exact hsignature.total hrest hinside (by simpa using hhas)

theorem replies_judgeProperty : Replies judgeProperty Property.types fun p P => p.Meets P := by
  have haccessors := replies_judgeMethod.judgeAll
  refine ⟨Property.Meets.mono, ?_, ?_⟩
  · intro a p answer after h hrest
    unfold judgeProperty at h
    cases htype : a.judgeType p.type with
    | error e => simp [htype] at h
    | ok first =>
      obtain ⟨firstAnswer, next⟩ := first
      have hfirst := replies_judgeType.reply htype hrest
      cases firstAnswer with
      | false =>
        simp only [htype, Except.ok.injEq, Prod.mk.injEq] at h
        obtain ⟨rfl, rfl⟩ := h
        exact ⟨hfirst.toLater, by simp, fun _ hmeets => hfirst.no rfl hmeets.1, by simp⟩
      | true =>
        simp only [htype] at h
        have hreply := haccessors.reply h hfirst.resting
        refine ⟨hfirst.toLater.trans hreply.toLater, ?_, ?_, ?_⟩
        · exact fun hyes => ⟨hreply.knows (hfirst.yes rfl), hreply.yes hyes⟩
        · intro hno hmeets
          rw [← hfirst.graph] at hmeets
          exact hreply.no hno hmeets.2
        · exact fun hyes hconsistent => hreply.consistent hyes (hfirst.consistent rfl hconsistent)
  · intro a p hrest hinside hhas
    obtain ⟨answer, next, htype⟩ :=
      replies_judgeType.total hrest hinside (x := p.type)
        (by simpa using hhas p.type List.mem_cons_self)
    have hfirst := replies_judgeType.reply htype hrest
    unfold judgeProperty
    cases answer with
    | false => exact ⟨false, next, by simp only [htype]⟩
    | true =>
      simp only [htype]
      refine haccessors.total hfirst.resting (hfirst.graph ▸ hinside) ?_
      intro id hid
      rw [hfirst.graph]
      exact hhas id (List.mem_cons_of_mem _ hid)

/-! ### Selections -/

/-- What a selection of elements comes to. -/
structure Selection {α : Type} (a : Analyzer) (Meets : α → (TypeId → Prop) → Prop)
    (xs kept : List α) (after : Analyzer) : Prop extends Later a after where
  sublist : kept.Sublist xs
  meets : ∀ x ∈ kept, Meets x after.Knows
  admitted : ∀ x ∈ xs, Meets x a.graph.Admits → x ∈ kept
  complete : (∀ x ∈ xs, Meets x a.graph.Admits) → kept = xs
  consistent : kept = xs → a.Consistent → after.Consistent

section Lists

variable {α : Type} {judge : Analyzer → α → Answer Bool} {types : α → List TypeId}
  {Meets : α → (TypeId → Prop) → Prop}

/-- A selection selects from the rest with what it knows after the first element. -/
theorem select_cons_ok {x : α} {rest kept : List α}
    (h : select judge a (x :: rest) = .ok (kept, after)) :
    ∃ answer next others, judge a x = .ok (answer, next) ∧
      select judge next rest = .ok (others, after) ∧
      kept = if answer then x :: others else others := by
  unfold select at h
  cases hx : judge a x with
  | error e => simp [hx] at h
  | ok first =>
    obtain ⟨answer, next⟩ := first
    cases hothers : select judge next rest with
    | error e => simp [hx, hothers] at h
    | ok second =>
      obtain ⟨others, last⟩ := second
      simp only [hx, hothers, Except.ok.injEq, Prod.mk.injEq] at h
      obtain ⟨rfl, rfl⟩ := h
      exact ⟨answer, next, others, rfl, hothers, rfl⟩

/-- A selection keeps elements in order. -/
theorem select_sublist {xs kept : List α} (h : select judge a xs = .ok (kept, after)) :
    kept.Sublist xs := by
  induction xs generalizing a kept with
  | nil =>
    simp only [select, Except.ok.injEq, Prod.mk.injEq] at h
    exact h.1 ▸ .refl []
  | cons x rest ih =>
    obtain ⟨answer, next, others, -, hothers, rfl⟩ := select_cons_ok h
    cases answer with
    | false => exact (ih hothers).cons x
    | true => exact (ih hothers).cons_cons x

theorem Replies.selection (hr : Replies judge types Meets) {xs kept : List α}
    (h : select judge a xs = .ok (kept, after)) (hrest : a.Resting) :
    Selection a Meets xs kept after := by
  induction xs generalizing a kept with
  | nil =>
    simp only [select, Except.ok.injEq, Prod.mk.injEq] at h
    obtain ⟨rfl, rfl⟩ := h
    exact ⟨.refl hrest, .refl _, by simp, by simp, fun _ => rfl, fun _ hconsistent => hconsistent⟩
  | cons x rest ih =>
    obtain ⟨answer, next, others, hx, hothers, rfl⟩ := select_cons_ok h
    have hfirst := hr.reply hx hrest
    have hrest' := ih hothers hfirst.resting
    have hlater := hfirst.toLater.trans hrest'.toLater
    have hall : (∀ y ∈ x :: rest, Meets y a.graph.Admits) → others = rest := by
      intro hall
      refine hrest'.complete ?_
      intro y hy
      rw [hfirst.graph]
      exact hall y (List.mem_cons_of_mem x hy)
    have hothers' : ∀ y ∈ rest, Meets y a.graph.Admits → y ∈ others := by
      intro y hy hmeets
      exact hrest'.admitted y hy (hfirst.graph ▸ hmeets)
    cases answer with
    | false =>
      refine ⟨hlater, hrest'.sublist.cons x, hrest'.meets, ?_, ?_, ?_⟩
      · intro y hy hmeets
        rcases List.mem_cons.mp hy with rfl | hy
        · exact absurd hmeets (hfirst.no rfl)
        · exact hothers' y hy hmeets
      · intro hall'
        exact absurd (hall' x List.mem_cons_self) (hfirst.no rfl)
      · intro hsame
        -- A list that lacks an element is shorter.
        have hle := hrest'.sublist.length_le
        have hlength := congrArg List.length hsame
        simp only [Bool.false_eq_true, ↓reduceIte, List.length_cons] at hlength
        omega
    | true =>
      refine ⟨hlater, hrest'.sublist.cons_cons x, ?_, ?_, ?_, ?_⟩
      · intro y hy
        rcases List.mem_cons.mp hy with rfl | hy
        · exact hr.mono (hfirst.yes rfl) fun id => hrest'.knows
        · exact hrest'.meets y hy
      · intro y hy hmeets
        rcases List.mem_cons.mp hy with rfl | hy
        · exact List.mem_cons_self
        · exact List.mem_cons_of_mem x (hothers' y hy hmeets)
      · intro hall'
        rw [hall hall']
        rfl
      · intro hsame
        obtain ⟨-, hsame⟩ := List.cons.inj hsame
        exact fun hconsistent => hrest'.consistent hsame (hfirst.consistent rfl hconsistent)

theorem Replies.select_total (hr : Replies judge types Meets) {xs : List α} (hrest : a.Resting)
    (hinside : a.graph.Inside) (hhas : ∀ x ∈ xs, ∀ id ∈ types x, a.graph.Has (.type id)) :
    ∃ kept after, select judge a xs = .ok (kept, after) := by
  induction xs generalizing a with
  | nil => exact ⟨[], a, rfl⟩
  | cons x rest ih =>
    obtain ⟨answer, next, hx⟩ := hr.total hrest hinside (hhas x List.mem_cons_self)
    have hfirst := hr.reply hx hrest
    obtain ⟨others, last, hothers⟩ := ih hfirst.resting (hfirst.graph ▸ hinside)
      fun y hy id hid => hfirst.graph ▸ hhas y (List.mem_cons_of_mem x hy) id hid
    unfold select
    simp only [hx, hothers]
    exact ⟨_, last, rfl⟩

end Lists

/-- What a selection of members comes to. -/
structure MemberSelection (a : Analyzer) (ms kept : Members) (after : Analyzer) : Prop
    extends Later a after where
  types : ∀ id ∈ kept.types, id ∈ ms.types
  meet : kept.Meet after.Knows
  complete : ms.Meet a.graph.Admits → kept = ms
  consistent : kept = ms → a.Consistent → after.Consistent

/-- A selection of members is one of each list. -/
theorem selectMembers_ok {ms kept : Members} (h : a.selectMembers ms = .ok (kept, after)) :
    ∃ b c, select judgeMethod a ms.instanceMethods = .ok (kept.instanceMethods, b) ∧
      select judgeMethod b ms.classMethods = .ok (kept.classMethods, c) ∧
      select judgeProperty c ms.properties = .ok (kept.properties, after) := by
  unfold selectMembers at h
  cases hinstance : select judgeMethod a ms.instanceMethods with
  | error e => simp [hinstance] at h
  | ok first =>
    obtain ⟨instanceMethods, b⟩ := first
    cases hclass : select judgeMethod b ms.classMethods with
    | error e => simp [hinstance, hclass] at h
    | ok second =>
      obtain ⟨classMethods, c⟩ := second
      cases hproperties : select judgeProperty c ms.properties with
      | error e => simp [hinstance, hclass, hproperties] at h
      | ok third =>
        obtain ⟨properties, last⟩ := third
        simp only [hinstance, hclass, hproperties, Except.ok.injEq, Prod.mk.injEq] at h
        obtain ⟨rfl, rfl⟩ := h
        exact ⟨b, c, rfl, hclass, hproperties⟩

/-- **A selection of members** keeps those whose types are known to be supported, and all of them if
they all are supported. -/
theorem selectMembers_selection {ms kept : Members}
    (h : a.selectMembers ms = .ok (kept, after)) (hrest : a.Resting) :
    MemberSelection a ms kept after := by
  obtain ⟨b, c, hinstance, hclass, hproperties⟩ := selectMembers_ok h
  have hi := replies_judgeMethod.selection hinstance hrest
  have hc := replies_judgeMethod.selection hclass hi.resting
  have hp := replies_judgeProperty.selection hproperties hc.resting
  refine ⟨hi.toLater.trans (hc.toLater.trans hp.toLater), ?_, ?_, ?_, ?_⟩
  · intro id hid
    rcases Members.mem_types.mp hid with ⟨m, hm, hid⟩ | ⟨m, hm, hid⟩ | ⟨p, hp', hid⟩
    · exact Members.mem_types.mpr (.inl ⟨m, hi.sublist.subset hm, hid⟩)
    · exact Members.mem_types.mpr (.inr (.inl ⟨m, hc.sublist.subset hm, hid⟩))
    · exact Members.mem_types.mpr (.inr (.inr ⟨p, hp.sublist.subset hp', hid⟩))
  · refine ⟨?_, ?_, hp.meets⟩
    · intro m hm
      exact (hi.meets m hm).mono fun id hid => hp.knows (hc.knows hid)
    · intro m hm
      exact (hc.meets m hm).mono fun id hid => hp.knows hid
  · intro hmeet
    have hinst := hi.complete hmeet.instanceMethods
    have hcl := hc.complete (hi.graph ▸ hmeet.classMethods)
    have hprop := hp.complete (hc.graph ▸ hi.graph ▸ hmeet.properties)
    obtain ⟨instanceMethods, classMethods, properties⟩ := kept
    subst hinst hcl hprop
    rfl
  · intro hsame hconsistent
    have hinst := hi.consistent (congrArg Members.instanceMethods hsame) hconsistent
    have hcl := hc.consistent (congrArg Members.classMethods hsame) hinst
    exact hp.consistent (congrArg Members.properties hsame) hcl

theorem selectMembers_total {ms : Members} (hrest : a.Resting) (hinside : a.graph.Inside)
    (hhas : ∀ id ∈ ms.types, a.graph.Has (.type id)) :
    ∃ kept after, a.selectMembers ms = .ok (kept, after) := by
  obtain ⟨instanceMethods, b, hinstance⟩ := replies_judgeMethod.select_total hrest hinside
    fun m hm id hid => hhas id (Members.mem_types.mpr (.inl ⟨m, hm, hid⟩))
  have hi := replies_judgeMethod.selection hinstance hrest
  obtain ⟨classMethods, c, hclass⟩ := replies_judgeMethod.select_total hi.resting
    (hi.graph ▸ hinside)
    fun m hm id hid => hi.graph ▸ hhas id (Members.mem_types.mpr (.inr (.inl ⟨m, hm, hid⟩)))
  have hc := replies_judgeMethod.selection hclass hi.resting
  have hgraph : c.graph = a.graph := hc.graph.trans hi.graph
  obtain ⟨properties, last, hproperties⟩ := replies_judgeProperty.select_total hc.resting
    (hgraph ▸ hinside)
    fun p hp id hid => hgraph ▸ hhas id (Members.mem_types.mpr (.inr (.inr ⟨p, hp, hid⟩)))
  unfold selectMembers
  simp only [hinstance, hclass, hproperties]
  exact ⟨_, last, rfl⟩

end Analyzer

end Support

end ObjcMetadata
