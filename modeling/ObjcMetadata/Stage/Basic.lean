import ObjcMetadata.Module.Basic
import ObjcMetadata.Type.Pool
/-!
Stages of processing.

A stage turns an open module into another one. It sees the pool of types and the declarations of
other modules, and it looks up references in the module itself before it looks outside. A stage
keeps modules consistent: when it drops a declaration, it also repairs or drops what refers to it.
-/

namespace ObjcMetadata

/-- What all stages of one run share. -/
structure Context where
  pool : Pool
  /-- The declarations of other modules. -/
  external : Lookup

/-- The lookup that a stage uses for a module: the module itself, then the other modules. -/
def Context.lookup (cx : Context) (m : Module) : Lookup :=
  m.index.toLookup.orElse cx.external

/-- One transformation of modules. -/
structure Stage where
  name : String
  apply : Context → Module → Except TypeError Module
  /-- Whether the stage asks, while it runs, that no stage follows. -/
  raisesAbort : Context → Module → Bool := fun _ _ => false

end ObjcMetadata
