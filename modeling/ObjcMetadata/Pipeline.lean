import ObjcMetadata.Stage.Categories
import ObjcMetadata.Stage.Exceptions
import ObjcMetadata.Stage.Inherited
import ObjcMetadata.Stage.Removal
import ObjcMetadata.Stage.Repeated
import ObjcMetadata.Stage.Unsupported
/-!
Pipelines of stages.

A pipeline applies its stages in order, each to what the one before has made. A run may be abandoned
between two stages, when someone outside or a stage itself has raised the abort flag; a stage that
has begun always completes, and a flag that the last stage raises comes too late.
-/

namespace ObjcMetadata

/-- Stages in the order of application. -/
structure Pipeline where
  stages : List Stage := []

/-- How a run that may be abandoned ends. -/
inductive Outcome where
  | completed (module : Module)
  /-- The run stopped when this number of stages had been applied. -/
  | abandoned (module : Module) (stages : Nat)
deriving DecidableEq, Repr, Inhabited

/-- The module that a run ends with. -/
def Outcome.module : Outcome → Module
  | .completed m => m
  | .abandoned m _ => m

namespace Pipeline

/-- The number of stages. -/
def size (p : Pipeline) : Nat :=
  p.stages.length

/-- Whether there are no stages. -/
def isEmpty (p : Pipeline) : Bool :=
  p.stages.isEmpty

/-- The names of the stages, in order. -/
def names (p : Pipeline) : List String :=
  p.stages.map (·.name)

/-- The names of the stages as a list of quoted texts. -/
def display (p : Pipeline) : String :=
  "[" ++ ", ".intercalate (p.names.map fun name => "\"" ++ name ++ "\"") ++ "]"

/-- Applies all stages. -/
def run (p : Pipeline) (cx : Context) (m : Module) : Except TypeError Module :=
  p.stages.foldlM (fun m stage => stage.apply cx m) m

/-- Applies stages until the flag is up or no stage is left. The answer has the flag at the end. -/
def runStagesUntil (cx : Context) :
    List Stage → (applied : Nat) → (aborted : Bool) → Module → Except TypeError (Outcome × Bool)
  | [], _, aborted, m => .ok (.completed m, aborted)
  | stage :: rest, applied, aborted, m =>
    if aborted then .ok (.abandoned m applied, true)
    else
      match stage.apply cx m with
      | .error e => .error e
      | .ok m' => runStagesUntil cx rest (applied + 1) (stage.raisesAbort cx m) m'

/-- Applies the stages unless the abort flag is up before one of them. -/
def runUntil (p : Pipeline) (cx : Context) (aborted : Bool) (m : Module) :
    Except TypeError (Outcome × Bool) :=
  runStagesUntil cx p.stages 0 aborted m

/-- The standard order: corrections come before anything looks at what they correct, what is
unsupported goes before later stages see it, categories are merged before inherited members are
found, and repeated declarations go last. -/
def standard : Pipeline where
  stages := [.exceptions ExceptionRule.iosSdk, .unsupported, .categories, .inherited, .repeated]

end Pipeline

end ObjcMetadata
