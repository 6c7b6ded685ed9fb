import TensorGraph.Kernel.Fused
import TensorGraph.Kernel.Layout
import TensorGraph.Kernel.Reduce
import TensorGraph.Kernel.MatMul

/-!
The kernel of each family of operations, and the evaluation of one operation on host tensors.
-/

namespace TensorGraph

/-- Maps families to kernels. -/
structure Kernels where
  get? : Family → Option Kernel

namespace Kernels

def empty : Kernels := ⟨fun _ => none⟩

/-- Installs or replaces the kernel of a family. -/
def register (ks : Kernels) (family : Family) (kernel : Kernel) : Kernels :=
  ⟨fun f => if f = family then some kernel else ks.get? f⟩

/-- What the reference kernels compute. Transfers have none. -/
def reference? [BlockRoutine] : Family → Option Kernel
  | .unary => some Kernel.unary
  | .binary => some Kernel.binary
  | .cast => some Kernel.cast
  | .fused => some Kernel.fused
  | .reduce => some Kernel.reduce
  | .matmul => some Kernel.matmul
  | .reshape => some Kernel.reshape
  | .transpose => some Kernel.transpose
  | .transfer => none

/-- The reference kernels. -/
def host [BlockRoutine] : Kernels := ⟨fun family => (reference? family).map Kernel.counted⟩

def shown (ks : Kernels) : String :=
  let present := Family.all.filter fun f => (ks.get? f).isSome
  Text.recorded "KernelRegistry" [("classes", Text.bracketed (present.map Family.tag))]

/-- The kernel of an operation. -/
def lookup (ks : Kernels) (op : Op) : Except Error Kernel :=
  match ks.get? op.family with
  | some kernel => .ok kernel
  | none =>
    match op.describe? with
    | some text => .error (.message ("no kernel registered for " ++ text))
    | none => .error .crash

/-- Evaluates an operation on host tensors. -/
def run (ks : Kernels) (op : Op) (inputs : List Tensor) (math : MathMode) :
    Except Error Tensor := do
  let kernel ← ks.lookup op
  let shapes := inputs.map Tensor.shape
  let outShape ← op.resultShape shapes
  match inputs with
  | [] => throw .crash
  | first :: _ =>
    let kind := match op with
      | .cast k => k
      | _ => first.kind
    let data ← kernel op {
      inputs := inputs.map fun t => .buffer t.data
      shapes, outShape, math
      out := .zeros kind outShape.volume }
    Tensor.make outShape data

end Kernels

end TensorGraph
