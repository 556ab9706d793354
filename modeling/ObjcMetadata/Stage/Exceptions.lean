import ObjcMetadata.Stage.Basic
/-!
Corrections of declarations that headers get wrong.

An exception rule names what it corrects. Rules are applied in order, each to what the earlier ones
have left; a rule that finds nothing to correct changes nothing.
-/

namespace ObjcMetadata

/-- A correction. -/
inductive ExceptionRule where
  /-- Removes a category where it extends the interface, and takes it off the interface's list. -/
  | removeCategory (category interface : QualifiedName)
  /-- Replaces the return type of a class method. -/
  | overrideReturn (interface : QualifiedName) (selector : String) (type : TypeId)
deriving DecidableEq, Repr, Inhabited

namespace ExceptionRule

/-- The corrections for the iOS headers: the standard edit actions of responders are declared as a
category of the root class, and the shared null object is typed too loosely. -/
def iosSdk : List ExceptionRule :=
  [.removeCategory ⟨"UIKit.UIResponder", "UIResponderStandardEditActions"⟩
      ⟨"ObjectiveC.NSObject", "NSObject"⟩,
    .overrideReturn ⟨"Foundation", "NSNull"⟩ "null" .instancetype]

/-! ### Removing a category -/

/-- Whether a declaration is the category of this name on this interface. -/
def isCategoryOn (category interface : QualifiedName) (d : Declaration) : Bool :=
  match d.category? with
  | some c => d.name == category && c.extended == interface
  | none => false

/-- Takes a category off the list of the interface of this name. -/
def dropCategory (category interface : QualifiedName) (d : Declaration) : Declaration :=
  match d.body with
  | .interface i =>
    if d.name = interface then
      { d with body := .interface { i with categories := i.categories.filter (· ≠ category) } }
    else d
  | _ => d

/-! ### Overriding a return type -/

/-- The method with another return type. A method without a return type stays as it is. -/
def withReturnType (type : TypeId) (m : Method) : Method :=
  match m.signature with
  | [] => m
  | _ :: params => { m with signature := type :: params }

/-- The class method that an override concerns: the first with the selector, in the first interface
of the name. -/
def overridden? (interface : QualifiedName) (selector : String) (declarations : List Declaration) :
    Option Method := do
  let d ← declarations.find? fun d => d.key == ⟨.interface, interface⟩
  let members ← d.members?
  members.findClassMethod? selector

/-- The problem that an override meets: the method has no return type. -/
def overrideErrors (interface : QualifiedName) (selector : String)
    (declarations : List Declaration) : List DeclError :=
  match overridden? interface selector declarations with
  | some ⟨_, [], _⟩ =>
    [.inconsistentMember ⟨.interface, interface⟩ selector "signature has no return type"]
  | _ => []

/-! ### Applying rules -/

/-- Applies one rule. -/
def apply (m : Module) : ExceptionRule → Module
  | .removeCategory category interface =>
    let kept := m.declarations.filter fun d => !isCategoryOn category interface d
    { m with declarations := kept.map (dropCategory category interface) }
  | .overrideReturn interface selector type =>
    { m with
      declarations :=
        modifyInterface interface
          (fun i =>
            { i with members := i.members.modifyClassMethod selector (withReturnType type) })
          m.declarations
      errors := m.errors ++ overrideErrors interface selector m.declarations }

/-- Applies rules in order. -/
def applyAll (rules : List ExceptionRule) (m : Module) : Module :=
  rules.foldl apply m

end ExceptionRule

/-- The stage that applies exception rules. -/
def Stage.exceptions (rules : List ExceptionRule) : Stage where
  name := "exceptional-declarations"
  apply _ m := .ok (ExceptionRule.applyAll rules m)

end ObjcMetadata
