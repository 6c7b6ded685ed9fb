import TensorGraph.Op.Extent
import TensorGraph.Tensor

/-!
What a kernel is given and what it may touch. A kernel writes the first elements of its output
buffer, as many as the output shape has places, and reads the first elements of each input;
buffers may be larger. An input may be the output buffer itself: then it is read place by place
just before the place is written.
-/

namespace TensorGraph

/-- Options that trade accuracy for speed, and the order of sums. -/
structure MathMode where
  fastTranscendentals : Bool := false
  flushDenormals : Bool := false
  /-- Sums as a balanced tree instead of left to right. -/
  pairwiseSum : Bool := false
  deriving DecidableEq, Repr, Inhabited

namespace MathMode

/-- The last step of every elementwise result. -/
def finish {α : Type} [Scalar α] (math : MathMode) (x : α) : α :=
  if math.flushDenormals then Scalar.flush x else x

end MathMode

/-- A kernel input: a buffer, or the output buffer. -/
inductive Operand where
  | buffer (data : Data)
  | output

/-- The arguments of one kernel run. -/
structure KernelArgs where
  inputs : List Operand
  shapes : List Shape
  out : Data
  outShape : Shape
  math : MathMode

/-- Computes the new contents of the output buffer. -/
abbrev Kernel := Op → KernelArgs → Except Error Data

namespace Kernel

/-- Item `i` of a list; a missing one is a crash. -/
def item {α : Type} (xs : List α) (i : Nat) : Except Error α :=
  match xs[i]? with
  | some x => .ok x
  | none => .error .crash

/-- The error of a kernel that was given an operation it does not serve. -/
def mismatch {α : Type} (expected : String) (op : Op) : Except Error α :=
  match op.describe? with
  | some text => .error (.message (expected ++ " kernel invoked for " ++ text))
  | none => .error .crash

/-- The buffer of input `i`, for kernels that cannot run in place. -/
def requireInput (op : Op) (args : KernelArgs) (i : Nat) : Except Error Data := do
  match ← item args.inputs i with
  | .buffer data => .ok data
  | .output =>
    match op.describe? with
    | some text => .error (.message (text ++ " cannot run in place"))
    | none => .error .crash

/-- A kernel whose sizes are machine words: it breaks off where one of them overflows. -/
def counted (kernel : Kernel) : Kernel := fun op args =>
  if args.outShape.counts && args.shapes.all Shape.counts && op.counts args.shapes then
    kernel op args
  else .error .crash

/-- How an elementwise kernel reads an input. -/
inductive Source (α : Type) where
  /-- One element for each place of the output. -/
  | each (xs : Array α)
  /-- The same element for every place. -/
  | same (x : α)
  /-- What the output place holds before it is written. -/
  | current

namespace Source

/-- Element for place `i`, which holds `old` now. -/
def get {α : Type} (s : Source α) (i : Nat) (old : α) : Option α :=
  match s with
  | each xs => xs[i]?
  | same x => some x
  | current => some old

/-- Resolves an input of an elementwise kernel with `n` output places. -/
def of (kind : Kind) (operand : Operand) (shape : Shape) (n : Nat) :
    Except Error (Source (Elem kind)) :=
  match operand with
  | .output => .ok current
  | .buffer data => do
    let xs ← data.view kind
    let len := shape.volume
    if len > xs.size then
      .error (.shape "kernel" (Text.numbers shape ++ s!" exceeds a buffer of {xs.size} elements"))
    else if len = n then .ok (each xs)
    else if len = 1 then
      match xs[0]? with
      | some x => .ok (same x)
      | none => .error .crash
    else
      .error (.shape "kernel"
        ("input " ++ Text.numbers shape ++ s!" does not cover {n} output elements"))

end Source

/-- Maps the elements of a list by place, from place `i` on. A place without a result leaves no
list. -/
def mapFrom {α β : Type} (f : Nat → α → Option β) : Nat → List α → Option (List β)
  | _, [] => some []
  | i, x :: xs => do
    let y ← f i x
    let ys ← mapFrom f (i + 1) xs
    some (y :: ys)

/-- The buffer with its first `n` elements replaced, each by a function of its place and old
value. A buffer that is too short, or a place without a result, is a crash. -/
def fill {α : Type} (out : Array α) (n : Nat) (f : Nat → α → Option α) : Except Error (Array α) :=
  if n ≤ out.size then
    match mapFrom f 0 (out.extract 0 n).toList with
    | some xs => .ok (xs.toArray ++ out.extract n out.size)
    | none => .error .crash
  else .error .crash

end Kernel

end TensorGraph
