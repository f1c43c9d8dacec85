import ResourceTree.Cache.Session
import ResourceTree.Compile.Output
import ResourceTree.Example.Commands
import ResourceTree.Example.Item
import ResourceTree.Files.Disk
import ResourceTree.Files.Memory
import ResourceTree.Files.Watcher
import ResourceTree.Store.Rack
import ResourceTree.Tasks.Pool
import ResourceTree.Tasks.Profiler
import ResourceTree.Text.Hex
import ResourceTree.Value.Exchange
import ResourceTree.Value.Shelf
import ResourceTree.Proofs.Cache.Freshness
import ResourceTree.Proofs.Cache.Perform
import ResourceTree.Proofs.Cache.Reloading
import ResourceTree.Proofs.Cache.SavedObjects
import ResourceTree.Proofs.Cache.Waiters
import ResourceTree.Proofs.Codec.Locality
import ResourceTree.Proofs.Codec.RoundTrip
import ResourceTree.Proofs.Compile.Dependencies
import ResourceTree.Proofs.Compile.Fenced
import ResourceTree.Proofs.Compile.Meanwhile
import ResourceTree.Proofs.Dict.Refinement
import ResourceTree.Proofs.Finish.Alone
import ResourceTree.Proofs.Finish.Once
import ResourceTree.Proofs.Compile.Flags
import ResourceTree.Proofs.Compile.Siblings
import ResourceTree.Proofs.Expand.Anchoring
import ResourceTree.Proofs.Files.Identity
import ResourceTree.Proofs.Store.Frees
import ResourceTree.Proofs.Walk.Congruence
import ResourceTree.Proofs.Walk.Account
import ResourceTree.Proofs.Expand.Visit
import ResourceTree.Proofs.Store.Loops
import ResourceTree.Proofs.Store.View
import ResourceTree.Proofs.Torn
import ResourceTree.Proofs.Naming
import ResourceTree.Proofs.Json.Position
import ResourceTree.Proofs.Walk.Notes
import ResourceTree.Proofs.Expand.Layers
import ResourceTree.Proofs.Expand.NormalForm
import ResourceTree.Proofs.Expand.FanOut
import ResourceTree.Proofs.Expand.Template
import ResourceTree.Proofs.Expand.Limit
import ResourceTree.Proofs.Compile.Pointed
import ResourceTree.Proofs.Value.Conversion
import ResourceTree.Proofs.Expand.Layering
import ResourceTree.Proofs.Expand.Contribution
import ResourceTree.Proofs.Value.Path
import ResourceTree.Proofs.Cache.Circles
import ResourceTree.Proofs.Cache.LiveTree
