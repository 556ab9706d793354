import ObjcMetadata.Stage.Basic
import ObjcMetadata.Support.Analyzer
/-!
Removal of what metadata cannot represent.

Unsupported declarations are dropped, and the declarations that stay lose their unsupported members.
One analyzer judges all of a module, in the order of its declarations, so that what they share is
judged once.
-/

namespace ObjcMetadata.Unsupported

open Support

/-- A declaration with its supported members, if it is supported itself. -/
def trim (a : Analyzer) (d : Declaration) : Answer (Option Declaration) :=
  match a.judgeDecl d with
  | .error e => .error e
  | .ok (false, a) => .ok (none, a)
  | .ok (true, a) =>
    match d.members? with
    | none => .ok (some d, a)
    | some members =>
      match a.selectMembers members with
      | .error e => .error e
      | .ok (kept, a) => .ok (some (d.withMembers kept), a)

/-- The supported parts of declarations, in order. -/
def trimAll (a : Analyzer) : List Declaration → Answer (List Declaration)
  | [] => .ok ([], a)
  | d :: rest =>
    match trim a d with
    | .error e => .error e
    | .ok (kept, a) =>
      match trimAll a rest with
      | .error e => .error e
      | .ok (others, a) => .ok (kept.toList ++ others, a)

/-- The supported part of a module. -/
def apply (cx : Context) (m : Module) : Except TypeError Module :=
  match trimAll { graph := ⟨cx.pool, cx.lookup m⟩ } m.declarations with
  | .error e => .error e
  | .ok (declarations, _) => .ok { m with declarations }

end ObjcMetadata.Unsupported

namespace ObjcMetadata

/-- The stage that removes what is unsupported. -/
def Stage.unsupported : Stage where
  name := "remove-unsupported"
  apply := Unsupported.apply

end ObjcMetadata
