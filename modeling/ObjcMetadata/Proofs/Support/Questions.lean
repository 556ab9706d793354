import ObjcMetadata.Proofs.Support.Session
/-!
Questions of all kinds to one analyzer.

A `Question` is about a type, a key, a declaration, a method or a property. What it takes to answer
it is known beforehand: a list of steps, of which each evaluates one node at most, and which are
made in order up to the first no (`Analyzer.ask_eq`).
-/

namespace ObjcMetadata.Support

/-! ### Questions -/

/-- A query to an analyzer. -/
inductive Question where
  | type (id : TypeId)
  | key (key : DeclKey)
  /-- About a declaration, which need not be known to the lookup. -/
  | declaration (d : Declaration)
  | method (m : Method)
  | property (p : Property)

/-- The types that a question names are nodes. -/
def Question.Inside (pool : Pool) : Question → Prop
  | .type id => pool.contains id = true
  | .key _ => True
  | .declaration d => d.Inside pool
  | .method m => ∀ id ∈ m.signature, pool.contains id = true
  | .property p => ∀ id ∈ p.types, pool.contains id = true

instance (pool : Pool) (q : Question) : Decidable (q.Inside pool) :=
  match q with
  | .type id => inferInstanceAs (Decidable (pool.contains id = true))
  | .key _ => isTrue trivial
  | .declaration d => inferInstanceAs (Decidable (d.Inside pool))
  | .method m => inferInstanceAs (Decidable (∀ id ∈ m.signature, _))
  | .property p => inferInstanceAs (Decidable (∀ id ∈ p.types, _))

namespace Analyzer

/-- Answers a question. -/
def ask (a : Analyzer) : Question → Answer Bool
  | .type id => a.judgeType id
  | .key key => a.judgeKey key
  | .declaration d => a.judgeDecl d
  | .method m => a.judgeMethod m
  | .property p => a.judgeProperty p

/-- Answers questions one after the other. -/
def askEach (a : Analyzer) : List Question → Answer (List Bool)
  | [] => .ok ([], a)
  | q :: rest =>
    match a.ask q with
    | .error e => .error e
    | .ok (answer, a) =>
      match askEach a rest with
      | .error e => .error e
      | .ok (answers, a) => .ok (answer :: answers, a)

end Analyzer

/-! ### Probes -/

/-- A step towards the answer to a question. -/
inductive Probe where
  /-- Evaluates a type. -/
  | type (id : TypeId)
  /-- Evaluates the declaration of a key. -/
  | key (key : DeclKey)
  /-- Evaluates a declaration, which stands for its own key. -/
  | declaration (d : Declaration)
  /-- Says no without an evaluation. -/
  | refuse

namespace Question

/-- The steps towards the answer for a method. -/
def methodProbes (m : Method) : List Probe :=
  if m.signature.isEmpty then [.refuse] else m.signature.map .type

/-- The steps towards the answer, of which the first no is the last to be made. -/
def probes : Question → List Probe
  | .type id => [.type id]
  | .key k => [.key k]
  | .declaration d => [.declaration d]
  | .method m => methodProbes m
  | .property p => .type p.type :: p.accessors.flatMap methodProbes

end Question

/-- The types that a step names are nodes. -/
def Probe.Inside (pool : Pool) : Probe → Prop
  | .type id => pool.contains id = true
  | .key _ => True
  | .declaration d => d.Inside pool
  | .refuse => True

theorem inside_of_mem_methodProbes {pool : Pool} {m : Method}
    (h : ∀ id ∈ m.signature, pool.contains id = true) {p : Probe}
    (hp : p ∈ Question.methodProbes m) : p.Inside pool := by
  unfold Question.methodProbes at hp
  split at hp
  · obtain rfl := List.mem_singleton.mp hp
    trivial
  · obtain ⟨id, hid, rfl⟩ := List.mem_map.mp hp
    exact h id hid

theorem Question.Inside.probes {pool : Pool} {q : Question} (h : q.Inside pool) :
    ∀ p ∈ q.probes, p.Inside pool := by
  intro p hp
  cases q with
  | type id =>
    obtain rfl := List.mem_singleton.mp hp
    exact h
  | key key =>
    obtain rfl := List.mem_singleton.mp hp
    trivial
  | declaration d =>
    obtain rfl := List.mem_singleton.mp hp
    exact h
  | method m => exact inside_of_mem_methodProbes h hp
  | property property =>
    rcases List.mem_cons.mp hp with rfl | hp
    · exact h _ List.mem_cons_self
    · obtain ⟨m, hm, hp⟩ := List.mem_flatMap.mp hp
      refine inside_of_mem_methodProbes (fun id hid => h id ?_) hp
      exact List.mem_cons_of_mem _ (List.mem_flatMap.mpr ⟨m, hm, hid⟩)

namespace Analyzer

/-- Makes one step towards an answer. -/
def probe (a : Analyzer) : Probe → Answer Bool
  | .type id => a.judgeType id
  | .key key => a.judgeKey key
  | .declaration d => a.judgeDecl d
  | .refuse => .ok (false, a)

section Lists

variable {α β : Type} (judge : Analyzer → β → Answer Bool)

theorem judgeAll_singleton (a : Analyzer) (x : β) : judgeAll judge a [x] = judge a x := by
  unfold judgeAll
  cases judge a x with
  | error e => rfl
  | ok result =>
    obtain ⟨answer, after⟩ := result
    cases answer <;> rfl

theorem judgeAll_map (f : α → β) (a : Analyzer) (xs : List α) :
    judgeAll judge a (xs.map f) = judgeAll (fun b x => judge b (f x)) a xs := by
  induction xs generalizing a with
  | nil => rfl
  | cons x rest ih => simp only [List.map_cons, judgeAll, ih]

theorem judgeAll_append (a : Analyzer) (xs ys : List β) :
    judgeAll judge a (xs ++ ys) =
      match judgeAll judge a xs with
      | .error e => .error e
      | .ok (false, b) => .ok (false, b)
      | .ok (true, b) => judgeAll judge b ys := by
  induction xs generalizing a with
  | nil => rfl
  | cons x rest ih =>
    simp only [List.cons_append, judgeAll]
    cases judge a x with
    | error e => rfl
    | ok result =>
      obtain ⟨answer, after⟩ := result
      cases answer with
      | false => rfl
      | true => exact ih after

theorem judgeAll_flatMap (f : α → List β) (a : Analyzer) (xs : List α) :
    judgeAll judge a (xs.flatMap f) = judgeAll (fun b x => judgeAll judge b (f x)) a xs := by
  induction xs generalizing a with
  | nil => rfl
  | cons x rest ih =>
    rw [List.flatMap_cons, judgeAll_append]
    simp only [ih]
    rfl

end Lists

theorem judgeMethod_eq (a : Analyzer) (m : Method) :
    a.judgeMethod m = judgeAll probe a (Question.methodProbes m) := by
  unfold judgeMethod Question.methodProbes
  split
  · rfl
  · rw [judgeAll_map]
    rfl

/-- **A question is answered by its steps**, up to the first no. -/
theorem ask_eq (a : Analyzer) (q : Question) : a.ask q = judgeAll probe a q.probes := by
  cases q with
  | type id => exact (judgeAll_singleton probe a (.type id)).symm
  | key key => exact (judgeAll_singleton probe a (.key key)).symm
  | declaration d => exact (judgeAll_singleton probe a (.declaration d)).symm
  | method m => exact a.judgeMethod_eq m
  | property p =>
    simp only [ask, judgeProperty, Question.probes, judgeAll, judgeAll_flatMap, ← judgeMethod_eq]
    rfl

end Analyzer

end ObjcMetadata.Support
