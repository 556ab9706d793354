import ObjcMetadata.Stage.Basic
/-!
Removal of repeated declarations: of several declarations with one key, the first is kept.
-/

namespace ObjcMetadata

/-- A module with the first declaration of each key. -/
def Module.withoutRepeated (m : Module) : Module :=
  { m with declarations := distinctBy Declaration.key [] m.declarations }

/-- The stage that removes repeated declarations. -/
def Stage.repeated : Stage where
  name := "deduplicate-declarations"
  apply _ m := .ok m.withoutRepeated

end ObjcMetadata
