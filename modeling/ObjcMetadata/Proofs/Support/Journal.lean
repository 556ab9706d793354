import ObjcMetadata.Proofs.Support.Questions
import ObjcMetadata.Proofs.Support.Register
/-!
What an analyzer goes through.

A `Journal` answers questions like an analyzer, but on one register, and it has an entry for what
the register was after each evaluation. Wherever no type leads out of the pool, all sequences of
questions have answers, the same as those of an analyzer. No evaluation evaluates a node twice; each
leaves the register at rest, with nothing open and nothing pending; and what it has settled stays so
ever after (`Journal.answerEach_inOrder`).

None of this needs the declarations that are asked about to be those that the lookup finds, nor the
verdicts to be right.
-/

namespace ObjcMetadata.Support

/-! ### Registers at rest -/

namespace Register

variable {ν : Type} [DecidableEq ν]

/-- Nothing is open, and nothing is pending. -/
structure AtRest (r : Register ν) : Prop where
  settled : ∀ node mark, r.marks.get? node = some mark → ∃ supported, mark = .settled supported
  pending : r.pending = []
  depth : r.depth = 0

/-- What has been settled in an earlier register is settled in the same way. -/
def Keeps (r earlier : Register ν) : Prop :=
  ∀ node supported, earlier.marks.settled? node = some supported →
    r.marks.settled? node = some supported

theorem atRest_empty : AtRest ({} : Register ν) where
  settled node mark h := by simp [Marks.get?] at h
  pending := rfl
  depth := rfl

/-- The register when the next evaluation begins. -/
def restarted (r : Register ν) : Register ν :=
  { r with evaluated := [] }

variable {demand : ν → Except TypeError (Option (List ν))} {levels : Nat} {node : ν}
  {r : Register ν} {v : Visited ν}

theorem AtRest.visit_eq (h : r.AtRest)
    (hv : Support.visit demand levels 0 node r.marks = .ok v) :
    r.restarted.visit demand levels node = .ok (r.restarted.after v) := by
  have hdepth : r.restarted.depth = 0 := h.depth
  have hmarks : r.restarted.marks = r.marks := rfl
  rw [Register.visit_eq, hdepth, hmarks, hv]
  rfl

/-- **An evaluation of a node on a register at rest** leaves the register at rest. -/
theorem AtRest.after (h : r.AtRest) (hv : Support.visit demand levels 0 node r.marks = .ok v) :
    (r.restarted.after v).2.AtRest := by
  have hpending := pending_eq_nil_of_outermost hv
  have hextends := visit_extends hv
  refine ⟨fun other mark hmark => ?_, ?_, h.depth⟩
  · cases hbefore : r.marks.get? other with
    | none =>
      refine (hextends.settles other mark hbefore hmark).resolve_right ?_
      simp [hpending]
    | some mark' =>
      obtain ⟨supported, rfl⟩ := h.settled other mark' hbefore
      have hkept := hextends.keeps other _ hbefore
      exact ⟨supported, Option.some.inj (hmark.symm.trans hkept)⟩
  · show v.pending ++ r.pending = []
    rw [hpending, h.pending]
    rfl

/-- An evaluation evaluates no node twice. -/
theorem nodup_after (hv : Support.visit demand levels 0 node r.marks = .ok v) :
    (r.restarted.after v).2.evaluated.Nodup := by
  show (v.evaluated ++ []).Nodup
  rw [List.append_nil]
  exact (visit_once hv).nodup

/-- An evaluation keeps all that was settled before. -/
theorem keeps_after (hv : Support.visit demand levels 0 node r.marks = .ok v) :
    (r.restarted.after v).2.Keeps r := by
  intro other supported hother
  rw [Marks.settled?_eq_some_iff] at hother ⊢
  exact (visit_extends hv).keeps other _ hother

end Register

/-! ### Journals -/

/-- The register after each evaluation, the last first. -/
structure Journal where
  entries : List (Register Node) := []

namespace Journal

/-- The register as it is now. -/
def register (j : Journal) : Register Node :=
  j.entries.headD {}

/-- Evaluates a node of a graph. -/
def evaluate (j : Journal) (g : Graph) (node : Node) : Except TypeError (Bool × Journal) :=
  match j.register.restarted.visit g.demand g.levels node with
  | .error e => .error e
  | .ok (verdict, r) => .ok (verdict.isSupported, ⟨r :: j.entries⟩)

/-- Makes one step towards an answer. -/
def probe (g : Graph) (j : Journal) : Probe → Except TypeError (Bool × Journal)
  | .type id => j.evaluate g (.type id)
  | .key key => j.evaluate g (.decl key)
  | .declaration d => j.evaluate (g.overriding d) (.decl d.key)
  | .refuse => .ok (false, j)

/-- Makes steps up to the first no. -/
def probeAll (g : Graph) (j : Journal) : List Probe → Except TypeError (Bool × Journal)
  | [] => .ok (true, j)
  | p :: rest =>
    match j.probe g p with
    | .error e => .error e
    | .ok (false, j) => .ok (false, j)
    | .ok (true, j) => probeAll g j rest

/-- Answers questions one after the other. -/
def answerEach (g : Graph) (j : Journal) : List Question → Except TypeError (List Bool × Journal)
  | [] => .ok ([], j)
  | q :: rest =>
    match j.probeAll g q.probes with
    | .error e => .error e
    | .ok (answer, j) =>
      match answerEach g j rest with
      | .error e => .error e
      | .ok (answers, j) => .ok (answer :: answers, j)

/-- The analyzer that knows what the journal does. -/
def analyzer (g : Graph) (j : Journal) : Analyzer :=
  ⟨g, j.register.marks⟩

/-- Every evaluation evaluated each node at most once and came to rest, and later ones keep what it
has settled. -/
structure InOrder (j : Journal) : Prop where
  once : ∀ r ∈ j.entries, r.evaluated.Nodup
  atRest : ∀ r ∈ j.entries, r.AtRest
  keeps : j.entries.Pairwise Register.Keeps

theorem inOrder_empty : InOrder {} :=
  ⟨by simp, by simp, .nil⟩

variable {g : Graph} {j : Journal}

theorem InOrder.register_atRest (h : j.InOrder) : j.register.AtRest := by
  obtain ⟨entries⟩ := j
  cases entries with
  | nil => exact Register.atRest_empty
  | cons r rest => exact h.atRest r List.mem_cons_self

/-- What is kept from the register as it is now is kept from all the entries. -/
theorem InOrder.keeps_of_register (h : j.InOrder) {r : Register Node}
    (hr : r.Keeps j.register) : ∀ earlier ∈ j.entries, r.Keeps earlier := by
  intro earlier hmem
  obtain ⟨entries⟩ := j
  cases entries with
  | nil => simp at hmem
  | cons last rest =>
    rcases List.mem_cons.mp hmem with rfl | hmem
    · exact hr
    · intro node supported hnode
      exact hr node supported (List.rel_of_pairwise_cons h.keeps hmem node supported hnode)

/-! ### The same answers -/

/-- A journal and its analyzer come to the same answer, and the journal is in order then. -/
def Matches (g : Graph) {α : Type} (answered : Except TypeError (α × Journal))
    (asked : Answer α) : Prop :=
  ∃ answer after, answered = .ok (answer, after) ∧ asked = .ok (answer, after.analyzer g) ∧
    after.InOrder

/-- **An evaluation** in a graph without loose ends, which may resolve keys in its own way. -/
theorem evaluate_matches (h : j.InOrder) {within : Graph} (hinside : within.Inside) {node : Node}
    (hnode : within.Has node) :
    Matches g (j.evaluate within node) ((j.analyzer g).judgeIn within node) := by
  obtain ⟨v, hv⟩ := hinside.visit_total hnode 0 j.register.marks
  refine ⟨v.verdict.isSupported, ⟨(j.register.restarted.after v).2 :: j.entries⟩, ?_, ?_, ?_, ?_, ?_⟩
  · unfold evaluate
    rw [h.register_atRest.visit_eq hv]
    rfl
  · simp only [Analyzer.judgeIn, analyzer, hv]
    rfl
  · exact List.forall_mem_cons.mpr ⟨Register.nodup_after hv, h.once⟩
  · exact List.forall_mem_cons.mpr ⟨h.register_atRest.after hv, h.atRest⟩
  · exact .cons (h.keeps_of_register (Register.keeps_after hv)) h.keeps

theorem probe_matches (h : j.InOrder) (hinside : g.Inside) {p : Probe} (hp : p.Inside g.pool) :
    Matches g (j.probe g p) ((j.analyzer g).probe p) := by
  cases p with
  | type id => exact evaluate_matches h hinside hp
  | key key => exact evaluate_matches h hinside trivial
  | declaration d => exact evaluate_matches h (hinside.overriding hp) trivial
  | refuse => exact ⟨false, j, rfl, rfl, h⟩

/-- Steps up to the first no. -/
theorem probeAll_matches {ps : List Probe} (h : j.InOrder) (hinside : g.Inside)
    (hps : ∀ p ∈ ps, p.Inside g.pool) :
    Matches g (j.probeAll g ps) (Analyzer.judgeAll Analyzer.probe (j.analyzer g) ps) := by
  induction ps generalizing j with
  | nil => exact ⟨true, j, rfl, rfl, h⟩
  | cons p rest ih =>
    obtain ⟨answer, next, hj, ha, hnext⟩ := probe_matches h hinside (hps p List.mem_cons_self)
    simp only [probeAll, Analyzer.judgeAll, hj, ha]
    cases answer with
    | false => exact ⟨false, next, rfl, rfl, hnext⟩
    | true => exact ih hnext fun q hq => hps q (List.mem_cons_of_mem p hq)

/-- Questions one after the other. -/
theorem answerEach_matches {questions : List Question} (h : j.InOrder) (hinside : g.Inside)
    (hquestions : ∀ q ∈ questions, q.Inside g.pool) :
    Matches g (j.answerEach g questions) ((j.analyzer g).askEach questions) := by
  induction questions generalizing j with
  | nil => exact ⟨[], j, rfl, rfl, h⟩
  | cons q rest ih =>
    obtain ⟨answer, next, hj, ha, hnext⟩ :=
      probeAll_matches h hinside (hquestions q List.mem_cons_self).probes
    obtain ⟨answers, last, hj', ha', hlast⟩ :=
      ih hnext fun q' hq' => hquestions q' (List.mem_cons_of_mem q hq')
    simp only [answerEach, Analyzer.askEach, Analyzer.ask_eq, hj, ha, hj', ha']
    exact ⟨_, last, rfl, rfl, hlast⟩

/-- **An analyzer answers all questions inside of its pool.** It evaluates no node twice in one
evaluation, after each of which nothing is open and nothing pending, and nothing that has been
settled is ever changed or forgotten. -/
theorem answerEach_inOrder (g : Graph) (questions : List Question) (hinside : g.Inside)
    (hquestions : ∀ q ∈ questions, q.Inside g.pool) :
    ∃ answers journal, answerEach g {} questions = .ok (answers, journal) ∧
      Analyzer.askEach { graph := g } questions = .ok (answers, journal.analyzer g) ∧
      (∀ r ∈ journal.entries, r.evaluated.Nodup) ∧
      (∀ r ∈ journal.entries, (∀ node depth, r.marks.get? node ≠ some (.opened depth)) ∧
        (∀ node low, r.marks.get? node ≠ some (.pending low)) ∧ r.pending = [] ∧ r.depth = 0) ∧
      journal.entries.Pairwise fun r earlier => ∀ node supported,
        earlier.marks.settled? node = some supported →
          r.marks.settled? node = some supported := by
  obtain ⟨answers, journal, hj, ha, horder⟩ := answerEach_matches inOrder_empty hinside hquestions
  refine ⟨answers, journal, hj, ha, horder.once, ?_, horder.keeps⟩
  intro r hr
  have hrest := horder.atRest r hr
  refine ⟨?_, ?_, hrest.pending, hrest.depth⟩
  · intro node depth hopened
    obtain ⟨supported, heq⟩ := hrest.settled node _ hopened
    cases heq
  · intro node low hpending
    obtain ⟨supported, heq⟩ := hrest.settled node _ hpending
    cases heq

end Journal

/-! ### Questions about the structs that lead to each other -/

/-- Questions of all kinds, among them one about a struct that the lookup does not know. -/
def Entangled.questions : List Question :=
  [.key ⟨.struct, name "R"⟩, .key ⟨.struct, name "E"⟩, .type ⟨31⟩,
    .declaration ⟨name "F", .struct [⟨"e", ⟨33⟩⟩]⟩, .method ⟨"link", [⟨33⟩, ⟨31⟩], {}⟩,
    .property ⟨"next", ⟨33⟩, some ⟨"next", [⟨33⟩], {}⟩, some ⟨"setNext:", [], {}⟩, {}⟩]

theorem Journal.answerEach_entangled_inOrder :
    Entangled.graph.Inside ∧ (∀ q ∈ Entangled.questions, q.Inside Entangled.graph.pool) ∧
      ∃ answers journal, answerEach Entangled.graph {} Entangled.questions = .ok (answers, journal) ∧
        answers = [false, true, false, true, false, false] ∧ journal.entries.length = 8 ∧
        ∀ r ∈ journal.entries, r.evaluated.Nodup := by
  have hquestions : ∀ q ∈ Entangled.questions, q.Inside Entangled.graph.pool := by decide +kernel
  obtain ⟨answers, journal, hj, -, honce, -⟩ :=
    answerEach_inOrder Entangled.graph Entangled.questions Entangled.graph_inside hquestions
  have hrun : (answerEach Entangled.graph {} Entangled.questions).map
      (fun result => (result.1, result.2.entries.length)) =
        .ok ([false, true, false, true, false, false], 8) := by decide +kernel
  rw [hj] at hrun
  obtain ⟨hanswers, hlength⟩ := Prod.mk.inj (Except.ok.inj hrun)
  exact ⟨Entangled.graph_inside, hquestions, answers, journal, hj, hanswers, hlength, honce⟩

end ObjcMetadata.Support
