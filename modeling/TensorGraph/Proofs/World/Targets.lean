import TensorGraph.Proofs.Kernel.Accumulation
import TensorGraph.Proofs.World.Outcomes

/-! One program on two targets. Placement, transfers, fusion and marks may all differ, and an accelerator adds up in
another order than the host; where that order does not show, calls have the same outcome. -/
namespace TensorGraph

open Checked TensorGraph.Action

namespace Course

variable {r : Course} {scope : Scope} {l : Layout} {cells : List Cell}

end Course

namespace World

variable {w w' : World} {m m' : Machine} {before after before' after' : List Executable} {f f' g g' : Executable}
  {inputs : List Tensor} {borrow : Bool} {p : Program} {result result' : Except Error (List Output)}

section

open scoped BlockRoutine

end

end World

end TensorGraph
