import TreeStore.Console.Handler
import TreeStore.Proofs.Concurrency.Capability
import TreeStore.Proofs.Concurrency.Clearance
import TreeStore.Proofs.Concurrency.Closing
import TreeStore.Proofs.Concurrency.Completion
import TreeStore.Proofs.Concurrency.Lifetime
import TreeStore.Proofs.Concurrency.Retries
import TreeStore.Proofs.Operation.Annotation
import TreeStore.Proofs.Operation.Budget
import TreeStore.Proofs.Operation.Course
import TreeStore.Proofs.Operation.Propagation
import TreeStore.Proofs.Path.Grammar
import TreeStore.Proofs.Scope.Program
import TreeStore.Proofs.Settings.Loading
import TreeStore.Proofs.Store.Progress
import TreeStore.Proofs.Store.Reaping
import TreeStore.Proofs.Store.Refusal
import TreeStore.Proofs.Tree.Isolation
import TreeStore.Proofs.Tree.Placement
import TreeStore.Proofs.Tree.Transparency
import TreeStore.Proofs.Workspace.Refinement
import TreeStore.Proofs.Workspace.Reports
import TreeStore.Scope.Program
import TreeStore.Session.Perform
import TreeStore.Proofs.Path.Normalizing
import TreeStore.Proofs.Settings.Reading
import TreeStore.Proofs.Operation.Ascent
import TreeStore.Proofs.Settings.Chain
import TreeStore.Proofs.Json.Escape
import TreeStore.Proofs.Json.Roundtrip
import TreeStore.Proofs.Settings.Storing
