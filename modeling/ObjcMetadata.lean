import ObjcMetadata.Batch.Run
import ObjcMetadata.Printer
import ObjcMetadata.Proofs.Name
import ObjcMetadata.Proofs.Printer
import ObjcMetadata.Proofs.Support.Rest
import ObjcMetadata.Proofs.Support.References
import ObjcMetadata.Proofs.Support.Session
import ObjcMetadata.Proofs.Support.Encoding
import ObjcMetadata.Proofs.Support.Once
import ObjcMetadata.Proofs.Support.Register
import ObjcMetadata.Proofs.Support.Questions
import ObjcMetadata.Proofs.Support.Journal
import ObjcMetadata.Proofs.Support.Members
import ObjcMetadata.Proofs.Support.Resolution
import ObjcMetadata.Proofs.Declaration.Closure
import ObjcMetadata.Proofs.Declaration.Contributors
import ObjcMetadata.Proofs.Declaration.Member
import ObjcMetadata.Proofs.Module.Keys
import ObjcMetadata.Proofs.Stage.Unsupported
import ObjcMetadata.Proofs.Stage.Exactness
import ObjcMetadata.Proofs.Stage.Exceptions
import ObjcMetadata.Proofs.Stage.RuleOrder
import ObjcMetadata.Proofs.Stage.Categories
import ObjcMetadata.Proofs.Stage.Removal
import ObjcMetadata.Proofs.Stage.Revision
import ObjcMetadata.Proofs.Stage.Reduct
import ObjcMetadata.Proofs.Stage.Change
import ObjcMetadata.Proofs.Stage.Inherited
import ObjcMetadata.Proofs.Stage.Ancestors
import ObjcMetadata.Proofs.Stage.Repair
import ObjcMetadata.Proofs.Stage.Resolution
import ObjcMetadata.Proofs.Stage.Stability
import ObjcMetadata.Proofs.Stage.Survivor
import ObjcMetadata.Proofs.Pipeline
import ObjcMetadata.Proofs.Abandonment
import ObjcMetadata.Proofs.Ready
import ObjcMetadata.Proofs.Batch.Process
import ObjcMetadata.Proofs.Batch.Snapshot
import ObjcMetadata.Proofs.Batch.Views
import ObjcMetadata.Proofs.Batch.Closure
import ObjcMetadata.Proofs.Batch.Hierarchy
import ObjcMetadata.Proofs.Batch.Alone
import ObjcMetadata.Proofs.Batch.Redundancy
import ObjcMetadata.Proofs.Batch.Ancestry
import ObjcMetadata.Proofs.Batch.Provision
import ObjcMetadata.Proofs.Batch.Order
import ObjcMetadata.Proofs.Options
import ObjcMetadata.Proofs.Type.Traversal
import ObjcMetadata.Proofs.Type.Stack
import ObjcMetadata.Proofs.Type.Interning
import ObjcMetadata.Proofs.Type.Simple
import ObjcMetadata.Proofs.Type.Closed
import ObjcMetadata.Proofs.Type.Layers
import ObjcMetadata.Proofs.Type.Spelling
import ObjcMetadata.Proofs.Type.Reading
