import ObjcMetadata.Printer
import ObjcMetadata.Proofs.Module.Keys
import ObjcMetadata.Proofs.Type.Interning
import ObjcMetadata.Proofs.Type.Spelling
/-!
Texts of declarations, one after the other.

What is printed of a declaration is an entry: its header, and under it the lines of its own members
or fields (`entry`). The printer prints the members before it comes to the header, so in between
lines wait. But whatever the kind of a declaration, no line waits when it has been visited
(`print_eq`), and so the text of declarations is that of their entries, one after the other
(`printAll_eq`). Entries fail only for types that cannot be spelled (`exists_entry`).
-/

namespace ObjcMetadata.Printer

variable {pool : Pool} {d : Declaration}

/-! ### Entries -/

/-- What is printed of one declaration. -/
structure Entry where
  header : String
  lines : List String
deriving DecidableEq, Repr

/-- The header, and then each line indented. -/
def Entry.text (e : Entry) : String :=
  e.header ++ "\n" ++ String.join (e.lines.map fun line => "  " ++ line ++ "\n")

/-- The lines of the members or fields of a declaration. -/
def ownLines (pool : Pool) (d : Declaration) : Except TypeError (List String) :=
  match d.body with
  | .interface i => memberLines pool i.members
  | .protocol p => memberLines pool p.members
  | .category c => memberLines pool c.members
  | .struct fields | .union fields => fieldLines pool fields
  | .function _ _ | .var _ => .ok []

/-- The header of a declaration. -/
def ownHeader (pool : Pool) (d : Declaration) : Except TypeError String :=
  match d.body with
  | .interface i => .ok ("INTERFACE_DECLARATION: " ++ d.name.name ++ baseSuffix i.base ++
      protocolSuffix i.protocols)
  | .protocol p => .ok ("PROTOCOL_DECLARATION: " ++ d.name.name ++ protocolSuffix p.protocols)
  | .category c => .ok ("CATEGORY_DECLARATION: " ++ c.extended.name ++ " (" ++ d.name.name ++ ")" ++
      protocolSuffix c.protocols)
  | .struct _ => .ok ("STRUCT_DECLARATION: " ++ d.name.name)
  | .union _ => .ok ("UNION_DECLARATION: " ++ d.name.name)
  | .function signature _ => functionHeader pool d.name.name signature
  | .var type => ("VAR_DECLARATION: " ++ ·) <$> pool.declare type d.name.name true

/-- The entry of a declaration, which depends on nothing else. -/
def entry (pool : Pool) (d : Declaration) : Except TypeError Entry := do
  let lines ← ownLines pool d
  let header ← ownHeader pool d
  return ⟨header, lines⟩

/-! ### Printing adds entries -/

theorem header_eq (p : Printer) (line : String) :
    p.header line = ⟨p.text ++ Entry.text ⟨line, p.waiting⟩, []⟩ := by
  simp [header, Entry.text, String.append_assoc]

/-- If no line waits before a declaration is visited, its entry is added, and no line waits then. -/
theorem print_eq (pool : Pool) (text : String) (d : Declaration) :
    print pool ⟨text, []⟩ d = (entry pool d).map fun e => ⟨text ++ e.text, []⟩ := by
  obtain ⟨name, body⟩ := d
  unfold print entry ownLines ownHeader
  -- Each kind has one thing to be spelled: its lines, or its header if no lines are under it.
  cases body
  case' interface i => cases hspelled : memberLines pool i.members
  case' protocol p => cases hspelled : memberLines pool p.members
  case' category c => cases hspelled : memberLines pool c.members
  case' struct fields => cases hspelled : fieldLines pool fields
  case' union fields => cases hspelled : fieldLines pool fields
  case' function signature flags => cases hspelled : functionHeader pool name.name signature
  case' var type => cases hspelled : pool.declare type name.name true
  all_goals
    simp [Declaration.visits, Declaration.members?, Declaration.bodyVisit, step, hspelled,
      header_eq, bind, Except.bind, Except.map, pure, Except.pure]

/-- Entries are added in order. -/
theorem printAll_eq (pool : Pool) (text : String) (ds : List Declaration) :
    printAll pool ⟨text, []⟩ ds =
      (ds.mapM (entry pool)).map fun es => ⟨text ++ String.join (es.map Entry.text), []⟩ := by
  induction ds generalizing text with
  | nil => simp [printAll, pure, Except.pure, Except.map]
  | cons d ds ih =>
    unfold printAll at ih ⊢
    rw [List.foldlM_cons, print_eq, List.mapM_cons]
    cases entry pool d with
    | error e => rfl
    | ok e =>
      have hrest := ih (text ++ e.text)
      simp only [Except.map, bind, Except.bind] at hrest ⊢
      rw [hrest]
      cases ds.mapM (entry pool) with
      | error e' => rfl
      | ok es => simp [pure, Except.pure, String.append_assoc]

theorem renderDeclaration_eq (pool : Pool) (d : Declaration) :
    renderDeclaration pool d = (entry pool d).map Entry.text := by
  rw [renderDeclaration, print_eq]
  cases entry pool d <;> simp [Except.map]

theorem mapM_renderDeclaration_eq (pool : Pool) (ds : List Declaration) :
    ds.mapM (renderDeclaration pool) = (ds.mapM (entry pool)).map (List.map Entry.text) := by
  induction ds with
  | nil => rfl
  | cons d ds ih =>
    rw [List.mapM_cons, List.mapM_cons, ih, renderDeclaration_eq]
    cases entry pool d <;> cases ds.mapM (entry pool) <;> rfl

/-- Also where types cannot be spelled, declarations come out as each of them by itself: the first
that fails decides. -/
theorem renderDeclarations_eq (pool : Pool) (ds : List Declaration) :
    renderDeclarations pool ds = (ds.mapM (renderDeclaration pool)).map String.join := by
  rw [renderDeclarations, printAll_eq, mapM_renderDeclaration_eq]
  cases ds.mapM (entry pool) <;> simp [Except.map]

/-! ### What can be printed -/

theorem exists_spellings {types : List TypeId} (h : ∀ id ∈ types, pool.Spells id) :
    ∃ texts, spellings pool types = .ok texts :=
  exists_mapM_eq_ok fun id hid => h id hid "" true

theorem exists_resultText {signature : List TypeId} (h : ∀ id ∈ signature, pool.Spells id) :
    ∃ text, resultText pool signature = .ok text := by
  cases signature with
  | nil => exact ⟨_, rfl⟩
  | cons result params => exact h result List.mem_cons_self "" true

theorem exists_methodLine {m : Method} (sign : String) (h : ∀ id ∈ m.signature, pool.Spells id) :
    ∃ line, methodLine pool sign m = .ok line := by
  obtain ⟨result, hresult⟩ := exists_resultText h
  obtain ⟨params, hparams⟩ : ∃ texts, spellings pool m.params = .ok texts :=
    exists_spellings fun id hid => h id (List.mem_of_mem_tail hid)
  simp [methodLine, hresult, hparams, bind, Except.bind, pure, Except.pure]

theorem exists_propertyLine {p : Property} (h : pool.Spells p.type) :
    ∃ line, propertyLine pool p = .ok line := by
  obtain ⟨declared, hdeclared⟩ := h p.name true
  simp [propertyLine, hdeclared, bind, Except.bind, pure, Except.pure]

theorem exists_memberLines {m : Members} (h : ∀ id ∈ m.types, pool.Spells id) :
    ∃ lines, memberLines pool m = .ok lines := by
  obtain ⟨classLines, hclass⟩ : ∃ lines, m.classMethods.mapM (methodLine pool "+") = .ok lines :=
    exists_mapM_eq_ok fun method hmethod => exists_methodLine "+" fun id hid =>
      h id (Members.mem_types.mpr (.inr (.inl ⟨method, hmethod, hid⟩)))
  obtain ⟨instanceLines, hinstance⟩ :
      ∃ lines, m.instanceMethods.mapM (methodLine pool "-") = .ok lines :=
    exists_mapM_eq_ok fun method hmethod => exists_methodLine "-" fun id hid =>
      h id (Members.mem_types.mpr (.inl ⟨method, hmethod, hid⟩))
  obtain ⟨propertyLines, hproperties⟩ :
      ∃ lines, m.properties.mapM (propertyLine pool) = .ok lines :=
    exists_mapM_eq_ok fun p hp => exists_propertyLine
      (h p.type (Members.mem_types.mpr (.inr (.inr ⟨p, hp, List.mem_cons_self⟩))))
  simp [memberLines, hclass, hinstance, hproperties, bind, Except.bind, pure, Except.pure]

theorem exists_fieldLines {fields : List RecordField}
    (h : ∀ field ∈ fields, pool.Spells field.type) :
    ∃ lines, fieldLines pool fields = .ok lines := by
  refine exists_mapM_eq_ok fun field hfield => ?_
  obtain ⟨declared, hdeclared⟩ := h field hfield field.name true
  exact ⟨declared ++ ";", by rw [hdeclared, Except.map]⟩

theorem exists_functionHeader {signature : List TypeId} (name : String)
    (h : ∀ id ∈ signature, pool.Spells id) :
    ∃ line, functionHeader pool name signature = .ok line := by
  obtain ⟨result, hresult⟩ := exists_resultText h
  obtain ⟨params, hparams⟩ : ∃ texts, spellings pool signature.tail = .ok texts :=
    exists_spellings fun id hid => h id (List.mem_of_mem_tail hid)
  simp [functionHeader, hresult, hparams, bind, Except.bind, pure, Except.pure]

theorem exists_ownLines (h : ∀ id ∈ d.ownTypes, pool.Spells id) :
    ∃ lines, ownLines pool d = .ok lines := by
  obtain ⟨name, body⟩ := d
  cases body with
  | interface i => exact exists_memberLines h
  | protocol p => exact exists_memberLines h
  | category c => exact exists_memberLines h
  | struct fields => exact exists_fieldLines fun field hfield => h _ (List.mem_map_of_mem hfield)
  | union fields => exact exists_fieldLines fun field hfield => h _ (List.mem_map_of_mem hfield)
  | function signature flags => exact ⟨[], rfl⟩
  | var type => exact ⟨[], rfl⟩

theorem exists_ownHeader (h : ∀ id ∈ d.ownTypes, pool.Spells id) :
    ∃ line, ownHeader pool d = .ok line := by
  obtain ⟨name, body⟩ := d
  cases body with
  | function signature flags => exact exists_functionHeader name.name h
  | var type =>
    obtain ⟨declared, hdeclared⟩ := h type List.mem_cons_self name.name true
    exact ⟨"VAR_DECLARATION: " ++ declared, congrArg (("VAR_DECLARATION: " ++ ·) <$> ·) hdeclared⟩
  | _ => exact ⟨_, rfl⟩

/-- A declaration whose own types can be spelled has an entry. -/
theorem exists_entry (h : ∀ id ∈ d.ownTypes, pool.Spells id) : ∃ e, entry pool d = .ok e := by
  obtain ⟨lines, hlines⟩ := exists_ownLines h
  obtain ⟨line, hline⟩ := exists_ownHeader h
  exact ⟨⟨line, lines⟩, by rw [entry, hlines, hline]; rfl⟩

/-! ### Declarations one after the other -/

/-- **Declarations printed one after the other** come out as each of them by itself, and no line is
left over: the text is that of their entries, and an entry has no lines but those of its own
declaration. This is also the text of a module that is closed with these declarations. -/
theorem printAll_exact (pool : Pool) (ds : List Declaration) (hacyclic : pool.Acyclic)
    (hinside : ∀ d ∈ ds, ∀ id ∈ d.ownTypes, pool.Grounded id) :
    ∃ entries, ds.mapM (entry pool) = .ok entries ∧
      ds.mapM (renderDeclaration pool) = .ok (entries.map Entry.text) ∧
      printAll pool {} ds = .ok ⟨String.join (entries.map Entry.text), []⟩ ∧
      renderDeclarations pool ds = .ok (String.join (entries.map Entry.text)) ∧
      ∀ (m : Module) (closed : FinalModule), m.declarations = ds → m.finalize = .ok closed →
        closed.render pool = .ok (String.join (entries.map Entry.text)) := by
  obtain ⟨entries, hentries⟩ : ∃ entries, ds.mapM (entry pool) = .ok entries :=
    exists_mapM_eq_ok fun d hd => exists_entry fun id hid => hacyclic.spells (hinside d hd id hid)
  have hprint : printAll pool {} ds = .ok ⟨String.join (entries.map Entry.text), []⟩ := by
    rw [printAll_eq, hentries, Except.map, String.empty_append]
  have hdeclarations : ds.mapM (renderDeclaration pool) = .ok (entries.map Entry.text) := by
    rw [mapM_renderDeclaration_eq, hentries, Except.map]
  have hrender : renderDeclarations pool ds = .ok (String.join (entries.map Entry.text)) := by
    rw [renderDeclarations_eq, hdeclarations, Except.map]
  refine ⟨entries, hentries, hdeclarations, hprint, hrender, ?_⟩
  rintro m closed rfl hclosed
  obtain ⟨-, rfl⟩ := (m.finalize_eq_ok_iff closed).mp hclosed
  exact hrender

namespace Printed

/-- A record, a pointer to it, and a block that takes the pointer. -/
def types : Pool :=
  .ofHistory [.struct ⟨"UIKit", "Point"⟩, .pointer ⟨30⟩, .block [⟨0⟩, ⟨31⟩]]

/-- Declarations with members or fields, each followed by one that has none. -/
def declarations : List Declaration :=
  [⟨⟨"UIKit", "Running"⟩,
      .protocol { members := { instanceMethods := [⟨"run:", [⟨0⟩, ⟨32⟩], {}⟩] } }⟩,
    ⟨⟨"UIKit", "count"⟩, .var ⟨4⟩⟩,
    ⟨⟨"UIKit", "Point"⟩, .struct [⟨"x", ⟨4⟩⟩, ⟨"next", ⟨31⟩⟩]⟩,
    ⟨⟨"UIKit", "origin"⟩, .function [⟨31⟩] {}⟩,
    ⟨⟨"UIKit", "View"⟩, .interface {
      base := some ⟨"UIKit", "Responder"⟩
      protocols := [⟨"UIKit", "Running"⟩]
      members := { properties := [⟨"frame", ⟨30⟩, none, none, { readonly := true }⟩] } }⟩]

/-- The entries of the declarations. -/
def entries : List Entry :=
  [⟨"PROTOCOL_DECLARATION: Running", ["- (void) run:(void (^)(struct Point *))"]⟩,
    ⟨"VAR_DECLARATION: int count", []⟩,
    ⟨"STRUCT_DECLARATION: Point", ["int x;", "struct Point *next;"]⟩,
    ⟨"FUNCTION_DECLARATION: struct Point * origin(void)", []⟩,
    ⟨"INTERFACE_DECLARATION: View : Responder <Running>",
      ["@property (readonly) struct Point frame"]⟩]

theorem descending_types : types.Descending :=
  Pool.descending_initial.internAll
    ⟨by decide +kernel, by decide +kernel, by decide +kernel, trivial⟩

/-- Each line stands under the header of its own declaration. -/
theorem printAll_declarations :
    types.Acyclic ∧ (∀ d ∈ declarations, ∀ id ∈ d.ownTypes, types.Grounded id) ∧
      printAll types {} declarations = .ok ⟨String.join (entries.map Entry.text), []⟩ ∧
      String.join (entries.map Entry.text) =
        "PROTOCOL_DECLARATION: Running\n" ++
        "  - (void) run:(void (^)(struct Point *))\n" ++
        "VAR_DECLARATION: int count\n" ++
        "STRUCT_DECLARATION: Point\n" ++
        "  int x;\n" ++
        "  struct Point *next;\n" ++
        "FUNCTION_DECLARATION: struct Point * origin(void)\n" ++
        "INTERFACE_DECLARATION: View : Responder <Running>\n" ++
        "  @property (readonly) struct Point frame\n" := by
  have hclosed : types.Closed := by decide +kernel
  have hcontains : ∀ d ∈ declarations, ∀ id ∈ d.ownTypes, types.contains id = true := by
    decide +kernel
  have hinside : ∀ d ∈ declarations, ∀ id ∈ d.ownTypes, types.Grounded id :=
    fun d hd id hid => hclosed.grounded (hcontains d hd id hid)
  have hentries : declarations.mapM (entry types) = .ok entries := by decide +kernel
  obtain ⟨es, hes, -, hprint, -⟩ :=
    printAll_exact types declarations descending_types.acyclic hinside
  obtain rfl := Except.ok.inj (hentries.symm.trans hes)
  exact ⟨descending_types.acyclic, hinside, hprint, by decide +kernel⟩

end Printed

end ObjcMetadata.Printer
