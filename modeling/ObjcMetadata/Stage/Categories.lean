import ObjcMetadata.Stage.Basic
/-!
Merging of categories into the interfaces that they extend.

The first interface of a name absorbs the categories of the module that extend that name, in order:
their members follow its own, and it adopts their protocols. A category whose interface is in
another module stays. One whose interface is nowhere stays too, and the module notes the problem.
-/

namespace ObjcMetadata

/-- The interface with the members and protocols of a category, which it no longer lists. -/
def Interface.absorb (i : Interface) (name : QualifiedName) (c : Category) : Interface :=
  { i with
    protocols := appendNew i.protocols c.protocols
    categories := i.categories.filter (· ≠ name)
    members := i.members ++ c.members }

namespace Categories

/-- Whether there is an interface of a name among declarations. -/
def declaresInterface (declarations : List Declaration) (name : QualifiedName) : Bool :=
  declarations.any fun d => d.key == ⟨.interface, name⟩

/-- Whether a declaration is a category that an interface among the declarations absorbs. -/
def isAbsorbed (declarations : List Declaration) (d : Declaration) : Bool :=
  match d.category? with
  | some c => declaresInterface declarations c.extended
  | none => false

/-- Merges a declaration, if it is a category, into the first interface that it extends. -/
def mergeInto (declarations : List Declaration) (d : Declaration) : List Declaration :=
  match d.category? with
  | some c => modifyInterface c.extended (fun i => i.absorb d.name c) declarations
  | none => declarations

/-- The problem of a category whose interface is neither among the declarations nor outside. -/
def unresolved? (external : Resolver) (declarations : List Declaration) (d : Declaration) :
    Option DeclError :=
  match d.category? with
  | none => none
  | some c =>
    let extended : DeclKey := ⟨.interface, c.extended⟩
    if declaresInterface declarations c.extended ∨ (external extended).isSome then none
    else some (.unresolvedReference d.key extended)

/-- A module with its categories merged. -/
def apply (external : Resolver) (m : Module) : Module :=
  let merged := m.declarations.foldl mergeInto m.declarations
  { m with
    declarations := merged.filter fun d => !isAbsorbed m.declarations d
    errors := m.errors ++ m.declarations.filterMap (unresolved? external m.declarations) }

end Categories

/-- The stage that merges categories. -/
def Stage.categories : Stage where
  name := "merge-categories"
  apply cx m := .ok (Categories.apply cx.external.find? m)

end ObjcMetadata
