import TensorGraph.Kernel.Basic

/-!
Kernels that compute each output element from the input elements at the same place.
-/

namespace TensorGraph

/-- The function on elements that a unary operation stands for. -/
def Unary.apply {α : Type} [Scalar α] (f : Unary) (fastExp : Bool) : α → α :=
  match f with
  | neg => Scalar.neg
  | abs => Scalar.abs
  | relu => Scalar.relu
  | exp => if fastExp then Scalar.fastExp else Scalar.exp
  | log => Scalar.log
  | sqrt => Scalar.sqrt
  | tanh => Scalar.tanh
  | sigmoid => Scalar.sigmoid

/-- The function on elements that a binary operation stands for. -/
def Binary.apply {α : Type} [Scalar α] (f : Binary) : α → α → α :=
  match f with
  | add => Scalar.add
  | sub => Scalar.sub
  | mul => Scalar.mul
  | div => Scalar.div
  | max => Scalar.max
  | min => Scalar.min
  | pow => Scalar.pow

namespace MathMode

/-- A unary function in this mode. -/
def unary {α : Type} [Scalar α] (math : MathMode) (f : Unary) (x : α) : α :=
  math.finish (f.apply math.fastTranscendentals x)

/-- A binary function in this mode. -/
def binary {α : Type} [Scalar α] (math : MathMode) (f : Binary) (x y : α) : α :=
  math.finish (f.apply x y)

end MathMode

namespace Kernel

def unary : Kernel
  | .unary f, args => do
    let n := args.outShape.volume
    let input ← item args.inputs 0
    let shape ← item args.shapes 0
    if args.out.size < n then throw .crash
    let src ← Source.of args.out.kind input shape n
    let elems ← fill args.out.elems n fun i old => do
      let x ← src.get i old
      some (args.math.unary f x)
    return { args.out with elems }
  | op, _ => mismatch "unary" op

def binary : Kernel
  | .binary f, args => do
    let n := args.outShape.volume
    if args.out.size < n then throw .crash
    let a ← item args.inputs 0
    let aShape ← item args.shapes 0
    let lhs ← Source.of args.out.kind a aShape n
    let b ← item args.inputs 1
    let bShape ← item args.shapes 1
    let rhs ← Source.of args.out.kind b bShape n
    let elems ← fill args.out.elems n fun i old => do
      let x ← lhs.get i old
      let y ← rhs.get i old
      some (args.math.binary f x y)
    return { args.out with elems }
  | op, _ => mismatch "binary" op

/-- Converts to the kind of the output buffer. -/
def cast : Kernel
  | .cast k, args => do
    let src ← requireInput (.cast k) args 0
    let n := args.outShape.volume
    if src.size < n then throw .crash
    let elems ← fill args.out.elems n fun i _ => src.elems[i]?.map (Elem.convert args.out.kind)
    return { args.out with elems }
  | op, _ => mismatch "cast" op

end Kernel

end TensorGraph
