import ObjcMetadata.Declaration.Lookup
import ObjcMetadata.Graph.Reach
import ObjcMetadata.Type.Traversal
/-!
What a declaration depends on through other declarations.

`Lookup.reached` follows links between declarations from a start, each key once and the key of the
start never, so that loops of links do no harm; a link that resolves to nothing is skipped.
`referencedTypes` uses it to gather the types of a declaration, of the categories that it adopts and
of its base, and so on, with all that lies below those types.
-/

namespace ObjcMetadata

/-! ### Following links -/

/-- The keys that the declaration of a key links to. -/
def Lookup.linked (lookup : Lookup) (links : Declaration → List DeclKey) (key : DeclKey) :
    List DeclKey :=
  match lookup.find? key with
  | some d => links d
  | none => []

/-- The declarations that links lead to from a start, which itself is not looked up. -/
def Lookup.reached (lookup : Lookup) (links : Declaration → List DeclKey) (start : Declaration) :
    List Declaration :=
  let found :=
    Reach.extend (lookup.linked links) (lookup.keys.length + 1) [start.key] (links start)
  (found.filter (· ≠ start.key)).filterMap lookup.find?

/-! ### Referenced types -/

/-- The declarations whose types count as those of a declaration: for an interface, the categories
that it adopts and its base. -/
def Declaration.contributors (d : Declaration) : List DeclKey :=
  match d.interface? with
  | some i => i.categories.map (⟨.category, ·⟩) ++ i.base.toList.map (⟨.interface, ·⟩)
  | none => []

/-- Every type that a declaration depends on: the types that it and its contributors name, and all
that lies below them. -/
def referencedTypes (pool : Pool) (lookup : Lookup) (d : Declaration) :
    Except TypeError (List TypeId) :=
  pool.reachable ((d :: lookup.reached Declaration.contributors d).flatMap Declaration.ownTypes)

end ObjcMetadata
