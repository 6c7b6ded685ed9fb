import TensorGraph.Kind

/-!
The common kind of two operands. Two floats meet in the wider one, and the two 16-bit formats,
neither of which holds the other, in `f32`. Integers of one sign meet in the wider one; of two
signs in the narrowest signed kind that is wider than the unsigned operand. An integer and a
float meet in the narrowest float, no narrower than the operand, that carries the integer
exactly, and in `f64` when none does.
-/

namespace TensorGraph.Kind

/-- The wider of two kinds, the first when they are equally wide. -/
def wider (a b : Kind) : Kind := if a.bits ≥ b.bits then a else b

/-- The narrowest signed integer kind above `unsigned` and not below `signed`. -/
def signedAbove (unsigned signed : Kind) : Kind :=
  ([i32, i64].find? fun k => k.bits > unsigned.bits && k.bits ≥ signed.bits).getD i64

/-- The narrowest float kind, no narrower than `float`, that holds `int` exactly. -/
def floatHolding (int float : Kind) : Kind :=
  if float.precision ≥ int.precision then float
  else
    ([f16, bf16, f32, f64].find? fun k =>
      k.bits > float.bits && k.precision ≥ int.precision).getD f64

/-- Common element kind of two operands. -/
def promote (a b : Kind) : Kind :=
  if a = b then a
  else
    match a.isFloat, b.isFloat with
    | true, true => if a.bits = b.bits then f32 else wider a b
    | false, false =>
      if a.isSigned = b.isSigned then wider a b
      else if a.isSigned then signedAbove b a
      else signedAbove a b
    | false, true => floatHolding a b
    | true, false => floatHolding b a

theorem promote_comm (a b : Kind) : promote a b = promote b a := by
  cases a <;> cases b <;> decide

theorem promote_self (a : Kind) : promote a a = a := by simp [promote]

end TensorGraph.Kind
