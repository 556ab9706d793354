import Mathlib.Data.List.Perm.Basic
import ObjcMetadata.Proofs.Stage.Exceptions
/-!
Exception rules in another order.

Each rule is applied to what the rules before it have left. Which declarations are left depends on
the order only between rules that conflict. Which problems are noted does not depend on it at all:
an override looks for a class method and at whether it has a return type, and no rule changes the
answer (`problems_act`), so every rule meets the problems that it would meet alone
(`errors_applyAll`). Hence rules without conflicts can be given in any order
(`exceptions_apply_perm`).
-/

namespace ObjcMetadata.ExceptionRule

open Declaration

variable {ds ds' : List Declaration}

/-! ### What overrides look at -/

/-- The key of a declaration, and the selectors of its class methods, each with whether the method
lacks a return type. -/
def outline (d : Declaration) : DeclKey × List (String × Bool) :=
  (d.key, (d.members?.elim [] (·.classMethods)).map fun m => (m.selector, m.signature.isEmpty))

theorem isEmpty_withReturnType (type : TypeId) (m : Method) :
    (withReturnType type m).signature.isEmpty = m.signature.isEmpty := by
  obtain ⟨selector, signature, flags⟩ := m
  cases signature <;> rfl

theorem outline_mapInterface {change : Interface → Interface}
    (h : ∀ i, (change i).members.classMethods.map (fun m => (m.selector, m.signature.isEmpty)) =
      i.members.classMethods.map fun m => (m.selector, m.signature.isEmpty)) (d : Declaration) :
    outline (d.mapInterface change) = outline d := by
  obtain ⟨name, body⟩ := d
  cases body with
  | interface i => exact congrArg (Prod.mk _) (h i)
  | _ => rfl

theorem outline_override (selector : String) (type : TypeId) (d : Declaration) :
    outline (d.mapInterface (override selector type)) = outline d := by
  refine outline_mapInterface (fun i => map_modifyFirst fun m => ?_) d
  rw [selector_withReturnType, isEmpty_withReturnType]

theorem outline_dropCategory (category interface : QualifiedName) (d : Declaration) :
    outline (dropCategory category interface d) = outline d := by
  rw [dropCategory_eq]
  refine outline_mapInterface (fun i => ?_) d
  unfold unlist
  split <;> rfl

/-- Outlines tell whether the method that an override concerns lacks a return type. -/
theorem map_isEmpty_overridden? (interface : QualifiedName) (selector : String)
    (ds : List Declaration) :
    (overridden? interface selector ds).map (·.signature.isEmpty) =
      ((ds.map outline).find? (·.1 == ⟨.interface, interface⟩)).bind fun o =>
        (o.2.find? (·.1 == selector)).map (·.2) := by
  unfold overridden?
  rw [List.find?_map]
  change _ = (Option.map outline (ds.find? fun d => d.key == ⟨.interface, interface⟩)).bind _
  cases ds.find? fun d => d.key == ⟨.interface, interface⟩ with
  | none => rfl
  | some d =>
    rw [Option.map_some, Option.bind_some, outline, List.find?_map, Option.map_map]
    cases hmembers : d.members? with
    | none => simp [hmembers]
    | some members =>
      show (d.members?.bind (·.findClassMethod? selector)).map _ = _
      rw [hmembers]
      rfl

theorem overrideErrors_eq (interface : QualifiedName) (selector : String) (ds : List Declaration) :
    overrideErrors interface selector ds =
      if (overridden? interface selector ds).map (·.signature.isEmpty) = some true then
        [.inconsistentMember ⟨.interface, interface⟩ selector "signature has no return type"]
      else [] := by
  unfold overrideErrors
  split
  · next h => rw [h]; rfl
  · next h =>
    rw [if_neg]
    intro hempty
    obtain ⟨⟨name, signature, flags⟩, hm, hlacks⟩ := Option.map_eq_some_iff.mp hempty
    rw [List.isEmpty_iff] at hlacks
    cases hlacks
    exact h _ _ hm

/-- Overrides meet the same problems in declarations of the same outlines. -/
theorem overrideErrors_congr (h : ds.map outline = ds'.map outline) (interface : QualifiedName)
    (selector : String) :
    overrideErrors interface selector ds = overrideErrors interface selector ds' := by
  rw [overrideErrors_eq, overrideErrors_eq, map_isEmpty_overridden?, map_isEmpty_overridden?, h]

/-- Categories do not matter to overrides. -/
theorem overrideErrors_filter (category interface interface' : QualifiedName) (selector : String)
    (ds : List Declaration) :
    overrideErrors interface' selector (ds.filter fun d => !isCategoryOn category interface d) =
      overrideErrors interface' selector ds := by
  have hfind : (ds.filter fun d => !isCategoryOn category interface d).find?
      (fun d => d.key == ⟨.interface, interface'⟩) =
        ds.find? fun d => d.key == ⟨.interface, interface'⟩ := by
    rw [List.find?_filter]
    congr 1
    funext d
    cases hkey : d.key == (⟨.interface, interface'⟩ : DeclKey) with
    | false => simp
    | true =>
      rw [isCategoryOn_of_kind (congrArg DeclKey.kind (beq_iff_eq.mp hkey))]
      simp
  unfold overrideErrors overridden?
  rw [hfind]

/-! ### Problems -/

/-- The problems that a rule meets in declarations. -/
def problems (ds : List Declaration) : ExceptionRule → List DeclError
  | .removeCategory _ _ => []
  | .overrideReturn interface selector _ => overrideErrors interface selector ds

theorem errors_apply (m : Module) (r : ExceptionRule) :
    (apply m r).errors = m.errors ++ problems m.declarations r := by
  cases r with
  | removeCategory category interface => exact (List.append_nil _).symm
  | overrideReturn interface selector type => rfl

/-- **No rule adds to or takes from the problems of another.** -/
theorem problems_act (ds : List Declaration) (r s : ExceptionRule) :
    problems (act ds s) r = problems ds r := by
  cases r with
  | removeCategory category interface => rfl
  | overrideReturn interface selector type =>
    cases s with
    | removeCategory category interface' =>
      calc overrideErrors interface selector (act ds (.removeCategory category interface'))
          = overrideErrors interface selector
              (ds.filter fun d => !isCategoryOn category interface' d) := by
            refine overrideErrors_congr ?_ interface selector
            rw [act, List.map_map]
            exact List.map_congr_left fun d _ => outline_dropCategory category interface' d
        _ = overrideErrors interface selector ds := overrideErrors_filter _ _ _ _ ds
    | overrideReturn interface' selector' type' =>
      refine overrideErrors_congr ?_ interface selector
      rw [act, modifyInterface]
      exact map_modifyFirst (outline_override selector' type')

/-- **A list of rules** notes the problems that its rules meet in the given declarations. -/
theorem errors_applyAll (rules : List ExceptionRule) (m : Module) :
    (applyAll rules m).errors = m.errors ++ rules.flatMap (problems m.declarations) := by
  induction rules generalizing m with
  | nil => exact (List.append_nil _).symm
  | cons r rest ih =>
    have hrest : rest.flatMap (problems (apply m r).declarations) =
        rest.flatMap (problems m.declarations) := by
      refine List.flatMap_congr fun s _ => ?_
      rw [declarations_apply, problems_act]
    calc (applyAll rest (apply m r)).errors
        = (m.errors ++ problems m.declarations r) ++
            rest.flatMap (problems (apply m r).declarations) := by rw [ih, errors_apply]
      _ = m.errors ++ (r :: rest).flatMap (problems m.declarations) := by
          rw [hrest, List.append_assoc, List.flatMap_cons]

/-! ### Permutations -/

/-- **Rules without conflicts can be given in any order.** They leave the same declarations, and
note the same problems, each as often. -/
theorem exceptions_apply_perm {rules rules' : List ExceptionRule} (hperm : rules.Perm rules')
    (hfree : ∀ r ∈ rules, ∀ s ∈ rules, ¬ Conflict r s) (cx : Context) (m : Module) :
    ∃ m' m'', (Stage.exceptions rules).apply cx m = .ok m' ∧
      (Stage.exceptions rules').apply cx m = .ok m'' ∧
      m'.declarations = m''.declarations ∧ m'.errors.Perm m''.errors := by
  refine ⟨_, _, rfl, rfl, ?_, ?_⟩
  · rw [declarations_applyAll, declarations_applyAll]
    exact hperm.foldl_eq' (fun r hr s hs ds => act_comm (hfree r hr s hs) ds) m.declarations
  · rw [errors_applyAll, errors_applyAll]
    exact (hperm.flatMap_right (problems m.declarations)).append_left m.errors

/-! ### Rules for one interface -/

namespace Shuffled

def null : QualifiedName := ⟨"Foundation", "NSNull"⟩

def extras : QualifiedName := ⟨"Foundation", "Extras"⟩

/-- Two class methods get another return type, one of them by two rules, and a category goes. -/
def rules : List ExceptionRule :=
  [.overrideReturn null "null" .instancetype, .removeCategory extras null,
    .overrideReturn null "shared" .instancetype, .overrideReturn null "null" .instancetype]

/-- An interface that is declared twice, with a class method that has no return type. -/
def given : Module where
  name := "Foundation"
  declarations :=
    [⟨extras, .category { extended := null }⟩,
      ⟨null, .interface
        { categories := [extras]
          members := { classMethods := [⟨"null", [], {}⟩, ⟨"shared", [⟨28⟩], {}⟩] } }⟩,
      ⟨null, .interface { members := { classMethods := [⟨"null", [⟨28⟩], {}⟩] } }⟩]
  errors := [.unresolvedReference ⟨.category, extras⟩ ⟨.interface, null⟩]

end Shuffled

theorem exceptions_apply_perm_shuffled :
    Shuffled.rules.Perm Shuffled.rules.reverse ∧
      (∀ r ∈ Shuffled.rules, ∀ s ∈ Shuffled.rules, ¬ Conflict r s) ∧
      ∃ m' m'',
        (Stage.exceptions Shuffled.rules).apply ⟨.initial, .empty⟩ Shuffled.given = .ok m' ∧
        (Stage.exceptions Shuffled.rules.reverse).apply ⟨.initial, .empty⟩ Shuffled.given =
          .ok m'' ∧
        m'.declarations = m''.declarations ∧ m'.errors.Perm m''.errors := by
  have hperm : Shuffled.rules.Perm Shuffled.rules.reverse := (List.reverse_perm _).symm
  have hfree : ∀ r ∈ Shuffled.rules, ∀ s ∈ Shuffled.rules, ¬ Conflict r s := by
    simp [Shuffled.rules, Conflict]
  exact ⟨hperm, hfree, exceptions_apply_perm hperm hfree ⟨.initial, .empty⟩ Shuffled.given⟩

end ObjcMetadata.ExceptionRule
