import ObjcMetadata.Stage.Basic
/-!
Removal of declarations by name.

Every declaration of the module with one of the names is removed, whatever its kind, and what refers
to it is repaired: an interface whose base is removed gets the nearest base that stays, categories
of removed interfaces go too, and removed categories and protocols are taken off the lists that name
them. Only declarations of the module are removed, but references to removed declarations of other
modules are repaired all the same.
-/

namespace ObjcMetadata.Removal

/-! ### The nearest base that stays -/

/-- Follows bases from a name to the first name that stays. There is none if the chain comes to an
interface that cannot be found or has no base, or to a name that it has seen before; the latter
happens before there are more steps than removed names. -/
def survivingBaseFrom (names : List QualifiedName) (resolve : Resolver) :
    (steps : Nat) → (seen : List QualifiedName) → QualifiedName → Option QualifiedName
  | 0, _, _ => none
  | steps + 1, seen, current =>
    if current ∉ names then some current
    else if current ∈ seen then none
    else
      match (resolve ⟨.interface, current⟩).bind Declaration.base? with
      | none => none
      | some base => survivingBaseFrom names resolve steps (current :: seen) base

/-- The first name that stays, on the chain of bases from a name. -/
def survivingBase (names : List QualifiedName) (resolve : Resolver) (start : QualifiedName) :
    Option QualifiedName :=
  survivingBaseFrom names resolve (names.length + 1) [] start

/-! ### What is removed and repaired -/

/-- The names of the categories that are removed, by their own names or by those of the interfaces
that they extend. -/
def removedCategories (names : List QualifiedName) (declarations : List Declaration) :
    List QualifiedName :=
  declarations.filterMap fun d =>
    match d.category? with
    | some c => if d.name ∈ names ∨ c.extended ∈ names then some d.name else none
    | none => none

/-- The new bases of the interfaces whose bases are removed, by name. -/
def newBases (names : List QualifiedName) (resolve : Resolver) (declarations : List Declaration) :
    List (QualifiedName × Option QualifiedName) :=
  declarations.filterMap fun d =>
    match d.base? with
    | some base => if base ∈ names then some (d.name, survivingBase names resolve base) else none
    | none => none

/-- The base that an interface has afterwards. If several interfaces of its name lose their bases,
the last of them decides for all. -/
def baseAfter (bases : List (QualifiedName × Option QualifiedName)) (name : QualifiedName)
    (base : Option QualifiedName) : Option QualifiedName :=
  (bases.reverse.lookup name).getD base

/-- A declaration with the new base and without what is removed on its lists. -/
def repaired (names categories : List QualifiedName)
    (bases : List (QualifiedName × Option QualifiedName)) (d : Declaration) : Declaration :=
  let staying := fun list : List QualifiedName => list.filter (· ∉ names)
  match d.body with
  | .interface i =>
    { d with
      body := .interface { i with
        base := baseAfter bases d.name i.base
        protocols := staying i.protocols
        categories := i.categories.filter (· ∉ categories) } }
  | .protocol p => { d with body := .protocol { p with protocols := staying p.protocols } }
  | .category c => { d with body := .category { c with protocols := staying c.protocols } }
  | _ => d

/-- A declaration after the removal, if it stays: it is repaired, unless its name is removed or it
is a category that goes. -/
def rewrite (names categories : List QualifiedName)
    (bases : List (QualifiedName × Option QualifiedName)) (d : Declaration) : Option Declaration :=
  if d.name ∈ names ∨ d.kind = .category ∧ d.name ∈ categories then none
  else some (repaired names categories bases d)

/-- The declarations after the removal of names. Nothing changes if there are no names. -/
def declarationsAfter (names : List QualifiedName) (resolve : Resolver)
    (declarations : List Declaration) : List Declaration :=
  if names.isEmpty then declarations
  else
    declarations.filterMap
      (rewrite names (removedCategories names declarations) (newBases names resolve declarations))

/-- A module after the removal of names. References are resolved in the module and then by
`external`. -/
def apply (names : List QualifiedName) (external : Resolver) (m : Module) : Module :=
  { m with declarations := declarationsAfter names (m.index.resolveOr external) m.declarations }

end ObjcMetadata.Removal

namespace ObjcMetadata

/-- The stage that removes declarations by name. -/
def Stage.removal (names : List QualifiedName) : Stage where
  name := "remove-declarations"
  apply cx m := .ok (Removal.apply names cx.external.find? m)

end ObjcMetadata
