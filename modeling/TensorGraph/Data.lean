import TensorGraph.Elem
import TensorGraph.Error

/-!
Contiguous memory for elements of one kind. A buffer may be longer than the value in it, so the
operations here work on the first elements of a buffer and leave the rest alone.
-/

namespace TensorGraph

/-- Elements of one kind. -/
structure Data where
  kind : Kind
  elems : Array (Elem kind)

namespace Data

instance : Inhabited Data := ⟨⟨.f32, #[]⟩⟩

/-- Number of elements. -/
def size (d : Data) : Nat := d.elems.size

/-- Size in bytes. -/
def bytes (d : Data) : Nat := d.size * d.kind.bytes

/-- A buffer of `n` zeros. -/
def zeros (kind : Kind) (n : Nat) : Data := ⟨kind, Array.replicate n Scalar.zero⟩

/-- The doubles converted to `kind`. -/
def ofDoubles (kind : Kind) (xs : Array Float) : Data := ⟨kind, xs.map Scalar.ofDouble⟩

/-- The elements as doubles. -/
def toDoubles (d : Data) : Array Float := d.elems.map Scalar.toDouble

/-- Every element converted to `kind` by way of double precision. -/
def cast (d : Data) (kind : Kind) : Data :=
  if d.kind = kind then d else ⟨kind, d.elems.map (Elem.convert kind)⟩

/-- The elements, when they are of kind `kind`. -/
def view (d : Data) (kind : Kind) : Except Error (Array (Elem kind)) :=
  if h : d.kind = kind then .ok (h ▸ d.elems)
  else .error (.type "access"
    ("data holds " ++ d.kind.name ++ " but " ++ kind.name ++ " was requested"))

/-- A copy of the first `n` elements. -/
def take (d : Data) (n : Nat) : Except Error Data :=
  if n > d.size then
    .error (.shape "prefix" s!"{n} elements requested from a buffer of {d.size}")
  else .ok ⟨d.kind, d.elems.extract 0 n⟩

/-- Overwrites the first `n` elements with those of `source`. -/
def copyFrom (d source : Data) (n : Nat) : Except Error Data :=
  if h : source.kind = d.kind then
    if n > source.size ∨ n > d.size then
      .error (.shape "copy"
        s!"{n} elements do not fit (source {source.size}, destination {d.size})")
    else .ok ⟨d.kind, (h ▸ source.elems).extract 0 n ++ d.elems.extract n d.size⟩
  else .error (.type "copy" ("cannot copy " ++ source.kind.name ++ " into " ++ d.kind.name))

/-- Numeric equality, element by element. -/
def same (a b : Data) : Bool :=
  if h : b.kind = a.kind then
    a.size == b.size && (a.elems.zip (h ▸ b.elems)).all fun (x, y) => Scalar.same x y
  else false

end Data

end TensorGraph
