import ObjcMetadata.Batch.Snapshot
import ObjcMetadata.Options
/-!
Processing of modules from their declarations to final modules.

A module is processed by the pipeline that the options ask for and then finalized. In a batch, each
module resolves references to others in a snapshot of the batch as it was given, so that the order
of the work does not matter.

There are two ways to fail. A module that cannot be finalized has its error in the place of its
result, and the others are none the worse for it. A type that cannot be looked up ends the whole
run: then nothing is answered, neither for the module that names the type nor for the rest of its
batch.
-/

namespace ObjcMetadata

/-- Runs a pipeline on a module and finalizes what it makes. -/
def Pipeline.process (p : Pipeline) (cx : Context) (m : Module) :
    Except TypeError (Except ModuleError FinalModule) :=
  (p.run cx m).map Module.finalize

/-- Processes one module. References to other modules are resolved by `external`. -/
def processModule (o : Options) (pool : Pool) (external : Lookup) (m : Module) :
    Except TypeError (Except ModuleError FinalModule) :=
  o.pipeline.process ⟨pool, external⟩ m

/-- Processes all modules of a batch. The results are in the order of the batch. -/
def processModules (o : Options) (pool : Pool) (modules : List Module) :
    Except TypeError (List (Except ModuleError FinalModule)) :=
  let snapshot := Snapshot.ofModules modules
  modules.zipIdx.mapM fun entry =>
    o.pipeline.process ⟨pool, snapshot.excluding entry.2⟩ entry.1

end ObjcMetadata
