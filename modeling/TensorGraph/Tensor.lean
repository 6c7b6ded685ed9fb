import TensorGraph.Data
import TensorGraph.Shape

/-!
Tensors on the host: a shape and exactly as many elements as it has places. The places can be
counted, since there was memory for the elements.
-/

namespace TensorGraph

/-- An array with any number of axes. -/
structure Tensor where
  shape : Shape
  data : Data
  size_eq : data.size = shape.volume
  fits : shape.fits

namespace Tensor

/-- Pairs a shape with its elements. -/
def make (shape : Shape) (data : Data) : Except Error Tensor :=
  if !shape.counts then .error .crash
  else if size_eq : data.size = shape.volume then
    if fits : shape.fits then .ok ⟨shape, data, size_eq, fits⟩ else .error .crash
  else .error (.shape "tensor" ("shape " ++ Text.numbers shape ++
    s!" needs {shape.volume} elements, got {data.size}"))

theorem make_of_size {shape : Shape} {data : Data} (size_eq : data.size = shape.volume) (fits : shape.fits) :
    make shape data = .ok ⟨shape, data, size_eq, fits⟩ := by
  simp [make, Shape.counts_of_fits fits, size_eq, fits]

theorem make_eq_ok {shape : Shape} {data : Data} {t : Tensor} (made : make shape data = .ok t) :
    t.shape = shape ∧ t.data = data := by
  unfold make at made
  split at made
  · cases made
  split at made
  · split at made <;> cases made
    exact ⟨rfl, rfl⟩
  · cases made

/-- A tensor with one axis. -/
def vector (data : Data) (fits : Shape.fits [data.size] := by decide) : Tensor :=
  ⟨[data.size], data, by simp [Shape.volume], fits⟩

/-- One element repeated over a shape. -/
def full {kind : Kind} (x : Elem kind) (shape : Shape) : Except Error Tensor :=
  if fits : shape.fits then
    .ok ⟨shape, ⟨kind, Array.replicate shape.volume x⟩, by simp [Data.size], fits⟩
  else .error .crash

/-- A tensor without axes. -/
def scalar {kind : Kind} (x : Elem kind) : Tensor := ⟨[], ⟨kind, #[x]⟩, rfl, rfl⟩

def zeros (kind : Kind) (shape : Shape) : Except Error Tensor :=
  full (Scalar.zero : Elem kind) shape

instance : Inhabited Tensor := ⟨scalar (Scalar.zero : Elem .f32)⟩

def kind (t : Tensor) : Kind := t.data.kind

def rank (t : Tensor) : Nat := t.shape.length

theorem size_cast (d : Data) (k : Kind) : (d.cast k).size = d.size := by
  unfold Data.cast
  split
  · rfl
  · simp [Data.size]

/-- Every element converted to `kind`. -/
def cast (t : Tensor) (kind : Kind) : Tensor :=
  ⟨t.shape, t.data.cast kind, (size_cast ..).trans t.size_eq, t.fits⟩

/-- The same elements under another shape. -/
def reshape (t : Tensor) (shape : Shape) : Except Error Tensor :=
  if !shape.counts then .error .crash
  else if size_eq : t.data.size = shape.volume then
    if fits : shape.fits then .ok ⟨shape, t.data, size_eq, fits⟩ else .error .crash
  else .error (.shape "reshape"
    ("cannot view " ++ Text.numbers t.shape ++ " as " ++ Text.numbers shape))

/-- Numeric equality of shapes and elements. -/
def same (a b : Tensor) : Bool := a.shape == b.shape && a.data.same b.data

/-- Whether every pair of elements differs by at most `atol + rtol * |b|`. Two NaNs are close,
and tensors of different shapes are not. -/
def close (a b : Tensor) (rtol atol : Float) : Bool :=
  a.shape == b.shape && (a.data.toDoubles.zip b.data.toDoubles).all fun (x, y) =>
    (x.isNaN && y.isNaN) || x == y || (x - y).abs ≤ atol + rtol * y.abs

/-- Largest absolute difference of two elements. -/
def maxDifference (a b : Tensor) : Except Error Float :=
  if a.shape = b.shape then
    .ok ((a.data.toDoubles.zip b.data.toDoubles).foldl
      (fun acc (x, y) => Scalar.Double.max acc (x - y).abs) 0.0)
  else .error (.shape "compare" (Text.numbers a.shape ++ " vs " ++ Text.numbers b.shape))

/-- The kind and shape, without the elements. -/
def shown (t : Tensor) : String :=
  Text.recorded "Tensor" [("elem", t.kind.tag), ("shape", Text.numbers t.shape)]

end Tensor

end TensorGraph
