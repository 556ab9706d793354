import ObjcMetadata.Declaration.Closure
import ObjcMetadata.Stage.Basic
/-!
Removal of members that are inherited anyway.

An interface or protocol inherits the members of its base and of the protocols that it adopts, and
whatever these inherit. A member of its own is dropped if it inherits one of the same list that is
the same as it. What is inherited is read off the module as it was before anything was dropped.
-/

namespace ObjcMetadata.Inherited

/-- The members of all declarations that a declaration inherits from, directly or not. -/
def members (lookup : Lookup) (d : Declaration) : List Members :=
  (lookup.reached Declaration.parents d).filterMap Declaration.members?

/-- The members that are not the same as an inherited one of their list. -/
def without (inherited : List Members) (m : Members) : Members where
  instanceMethods := m.instanceMethods.filter fun method =>
    !inherited.any fun source => source.instanceMethods.any method.sameAs
  classMethods := m.classMethods.filter fun method =>
    !inherited.any fun source => source.classMethods.any method.sameAs
  properties := m.properties.filter fun property =>
    !inherited.any fun source => source.properties.any property.sameAs

/-- An interface or protocol without the members that it inherits. -/
def drop (lookup : Lookup) (d : Declaration) : Declaration :=
  match d.body with
  | .interface i => d.withMembers (without (members lookup d) i.members)
  | .protocol p => d.withMembers (without (members lookup d) p.members)
  | _ => d

/-- A module without inherited members. -/
def apply (cx : Context) (m : Module) : Module :=
  { m with declarations := m.declarations.map (drop (cx.lookup m)) }

end ObjcMetadata.Inherited

namespace ObjcMetadata

/-- The stage that removes inherited members. -/
def Stage.inherited : Stage where
  name := "remove-duplicate-members"
  apply cx m := .ok (Inherited.apply cx m)

end ObjcMetadata
