import TensorGraph.Action
import TensorGraph.Capability
import TensorGraph.Config
import TensorGraph.Context
import TensorGraph.Data
import TensorGraph.Device.Accelerator
import TensorGraph.Device.Basic
import TensorGraph.Device.Hazards
import TensorGraph.Device.Lease
import TensorGraph.Device.Memory
import TensorGraph.Device.Target
import TensorGraph.Elem
import TensorGraph.Error
import TensorGraph.Executable.Basic
import TensorGraph.Executable.Call
import TensorGraph.Executable.Frame
import TensorGraph.Executable.Output
import TensorGraph.Executable.Schedule
import TensorGraph.Graph.Apply
import TensorGraph.Graph.Basic
import TensorGraph.Graph.Dot
import TensorGraph.Graph.Order
import TensorGraph.Graph.Ready
import TensorGraph.Kernel.Basic
import TensorGraph.Kernel.Elementwise
import TensorGraph.Kernel.Fused
import TensorGraph.Kernel.Layout
import TensorGraph.Kernel.MatMul
import TensorGraph.Kernel.Reduce
import TensorGraph.Kernel.Registry
import TensorGraph.Kind
import TensorGraph.Kind.Promotion
import TensorGraph.Machine.Basic
import TensorGraph.Machine.Cell
import TensorGraph.Machine.Device
import TensorGraph.Op.Basic
import TensorGraph.Op.Extent
import TensorGraph.Op.Typing
import TensorGraph.Pass.Canonical
import TensorGraph.Pass.Fusion
import TensorGraph.Pass.InPlace
import TensorGraph.Pass.Name
import TensorGraph.Pass.Pipeline
import TensorGraph.Pass.Placement
import TensorGraph.Pass.Rebuild
import TensorGraph.Pass.Transfers
import TensorGraph.Place
import TensorGraph.Program
import TensorGraph.Scalar.Basic
import TensorGraph.Scalar.Integer
import TensorGraph.Scalar.Narrow
import TensorGraph.Scalar.Real
import TensorGraph.Shape
import TensorGraph.Source.Expression
import TensorGraph.Source.Kernel
import TensorGraph.Tensor
import TensorGraph.Text.Blank
import TensorGraph.Text.Numeral
import TensorGraph.Text.Printable
import TensorGraph.Text.Quoted
import TensorGraph.Proofs.Kernel.Fill
import TensorGraph.Proofs.Logic.Action
import TensorGraph.Proofs.Logic.Checked
import TensorGraph.Proofs.Logic.Rebuilding
import TensorGraph.Proofs.Kernel.Shown
import TensorGraph.Proofs.Kernel.ShownReads
import TensorGraph.Proofs.Kernel.ShownFused
import TensorGraph.Proofs.Op.Typing
import TensorGraph.Proofs.Kernel.TotalPointwise
import TensorGraph.Proofs.Kernel.TotalReads
import TensorGraph.Proofs.Kernel.Evaluation
import TensorGraph.Proofs.Graph.Sound
import TensorGraph.Proofs.Graph.Value
import TensorGraph.Proofs.Graph.Live
import TensorGraph.Proofs.Graph.Built
import TensorGraph.Proofs.Program.Valid
import TensorGraph.Proofs.Pass.Mirrors
import TensorGraph.Proofs.Pass.Rebuilt
import TensorGraph.Proofs.Kernel.Elements
import TensorGraph.Proofs.Kernel.Exchange
import TensorGraph.Proofs.Pass.Canonical
import TensorGraph.Proofs.Pass.Placement
import TensorGraph.Proofs.Pass.Transfers
import TensorGraph.Proofs.Pass.Copied
import TensorGraph.Proofs.Pass.InPlace
import TensorGraph.Proofs.Kernel.Pointwise
import TensorGraph.Proofs.Pass.Cluster
import TensorGraph.Proofs.Pass.Expansion
import TensorGraph.Proofs.Pass.Fusion
import TensorGraph.Proofs.Pass.Pipeline
import TensorGraph.Proofs.Executable.Layout
import TensorGraph.Proofs.Executable.Schedule
import TensorGraph.Proofs.Machine.Memory
import TensorGraph.Proofs.Machine.Accelerator
import TensorGraph.Proofs.Machine.Device
import TensorGraph.Proofs.Executable.Slots
import TensorGraph.Proofs.Executable.Launch
import TensorGraph.Proofs.Executable.Overwrites
import TensorGraph.Proofs.World.Calls
import TensorGraph.Proofs.World.Handles
import TensorGraph.Proofs.World.Host
import TensorGraph.Proofs.World.Locations
import TensorGraph.Proofs.World.Targets
import TensorGraph.Proofs.Graph.Located
import TensorGraph.Proofs.Graph.Promotion
import TensorGraph.Proofs.Pass.Keeping
import TensorGraph.Proofs.Pass.Located
import TensorGraph.Proofs.Pass.Carried
import TensorGraph.Proofs.Logic.Invariant
import TensorGraph.Proofs.Machine.Reports
import TensorGraph.Proofs.Machine.Queue
import TensorGraph.Proofs.Machine.Reorder
import TensorGraph.Proofs.Machine.Pace
import TensorGraph.Proofs.Executable.Homes
import TensorGraph.Proofs.Executable.Sited
import TensorGraph.Proofs.Pass.Ruled
import TensorGraph.Proofs.Program.Accepted
import TensorGraph.Proofs.World.Contexts
import TensorGraph.Proofs.Pass.Interface
import TensorGraph.Proofs.Pass.Arising
import TensorGraph.Proofs.Pass.Meaning
import TensorGraph.Proofs.Pass.Refusion
import TensorGraph.Proofs.Logic.Together
import TensorGraph.Proofs.Pass.Matching
import TensorGraph.Proofs.Executable.Pruned
import TensorGraph.Proofs.Pass.Choice
import TensorGraph.Proofs.Pass.Sent
import TensorGraph.Proofs.Executable.Compiles
import TensorGraph.Proofs.Executable.Policy
import TensorGraph.Proofs.Executable.Ledger
import TensorGraph.Proofs.Executable.Occupancy
import TensorGraph.Proofs.World.Buffers
import TensorGraph.Proofs.Executable.Tandem
import TensorGraph.Proofs.Executable.Upkeep
import TensorGraph.Proofs.World.Abreast
import TensorGraph.Proofs.World.Collection
import TensorGraph.Proofs.Machine.Leases
import TensorGraph.Proofs.Pass.Merging
import TensorGraph.Proofs.Pass.Outcome
import TensorGraph.Proofs.Pass.Detour
import TensorGraph.Proofs.Pass.Shedding
import TensorGraph.Proofs.Pass.Paired
import TensorGraph.Proofs.Pass.Thinned
import TensorGraph.Proofs.Pass.Settled
import TensorGraph.Proofs.Pass.CanonicalValues
import TensorGraph.Proofs.Graph.Term
import TensorGraph.Proofs.Pass.Sharing
import TensorGraph.Proofs.Graph.Refusal
import TensorGraph.Proofs.World.Updates
import TensorGraph.Proofs.Machine.Accounts
import TensorGraph.Proofs.Machine.Traffic
import TensorGraph.Proofs.Executable.Accounts
import TensorGraph.Proofs.World.Accounts
import TensorGraph.Proofs.Kernel.Coordinates
import TensorGraph.Proofs.Kernel.Lanes
import TensorGraph.Proofs.Kernel.Transposition
import TensorGraph.Proofs.Kernel.Overwriting
import TensorGraph.Proofs.Kernel.StepByStep
import TensorGraph.Proofs.Kernel.BlockProduct
import TensorGraph.Proofs.Kernel.InStep
import TensorGraph.Proofs.Kernel.InStepReads
import TensorGraph.Proofs.Kernel.Frame
import TensorGraph.Proofs.Kernel.Integers
import TensorGraph.Proofs.Graph.Needs
import TensorGraph.Proofs.Graph.Ready
import TensorGraph.Proofs.Pass.Work
import TensorGraph.Proofs.Text.Numeral
import TensorGraph.Proofs.Text.Blank
import TensorGraph.Proofs.Device.Target
import TensorGraph.Proofs.Config.Fields
import TensorGraph.Proofs.Config.Flags
import TensorGraph.Proofs.Source.Words
import TensorGraph.Proofs.Source.Scoped
import TensorGraph.Proofs.Scalar.Formats
import TensorGraph.Proofs.Scalar.Commuting
