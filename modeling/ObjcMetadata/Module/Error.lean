import ObjcMetadata.Declaration.Key
/-!
What can be wrong with the declarations of a module.

A `DeclError` is a problem of one declaration. It is noted in the module and keeps nothing else from
being processed. A `ModuleError` is a problem of the module as a whole, which then cannot be
finalized.
-/

namespace ObjcMetadata

/-- A problem of one declaration. -/
inductive DeclError where
  /-- The declaration refers to one that cannot be found. -/
  | unresolvedReference (declaration target : DeclKey)
  /-- A member of the declaration does not make sense. -/
  | inconsistentMember (declaration : DeclKey) (member reason : String)
deriving DecidableEq, Repr, Inhabited

namespace DeclError

/-- The declaration that has the problem. -/
def declaration : DeclError → DeclKey
  | .unresolvedReference d _ => d
  | .inconsistentMember d _ _ => d

/-- The text of an error. -/
def message : DeclError → String
  | .unresolvedReference d target =>
    d.display ++ ": reference to `" ++ target.display ++ "` cannot be resolved"
  | .inconsistentMember d member reason =>
    d.display ++ ": member `" ++ member ++ "` is inconsistent: " ++ reason

end DeclError

/-- A problem of a whole module. -/
inductive ModuleError where
  /-- Two declarations of the module have this key. -/
  | duplicateDeclaration (module : String) (key : DeclKey)
deriving DecidableEq, Repr, Inhabited

/-- The text of an error. -/
def ModuleError.message : ModuleError → String
  | .duplicateDeclaration module key =>
    "module `" ++ module ++ "` declares " ++ key.display ++ " more than once"

end ObjcMetadata
