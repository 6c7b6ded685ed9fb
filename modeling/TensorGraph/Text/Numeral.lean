import TensorGraph.Text.Quoted

/-!
Reading numerals. A numeral is an optional sign and at least one ASCII digit; a value outside
the word it is read into is a fault of its own, found at the first digit that leaves the range.
-/

namespace TensorGraph.Text

/-- Why a text is not a numeral of the wanted word. -/
inductive NumeralFault where
  | empty
  | invalidDigit
  | tooLarge
  | tooSmall
  deriving DecidableEq, Repr

/-- The fault with its structure. -/
def NumeralFault.shown (fault : NumeralFault) : String :=
  let kind := match fault with
    | .empty => "Empty"
    | .invalidDigit => "InvalidDigit"
    | .tooLarge => "PosOverflow"
    | .tooSmall => "NegOverflow"
  recorded "ParseIntError" [("kind", kind)]

/-- The value of an ASCII digit. -/
def digit? (c : Char) : Option Nat :=
  if '0' ≤ c ∧ c ≤ '9' then some (c.toNat - '0'.toNat) else none

/-- Reads digits after the value `acc`, which may not exceed `limit`. -/
def digits? (limit : Nat) (overflow : NumeralFault) : Nat → List Char → Except NumeralFault Nat
  | acc, [] => .ok acc
  | acc, c :: cs =>
    match digit? c with
    | none => .error .invalidDigit
    | some d =>
      if acc * 10 + d ≤ limit then digits? limit overflow (acc * 10 + d) cs else .error overflow

/-- An unsigned numeral below `2 ^ 64`, with at most one leading plus sign. -/
def natural? (cs : List Char) : Except NumeralFault Nat :=
  match cs with
  | [] => .error .empty
  | ['+'] => .error .invalidDigit
  | '+' :: rest => digits? (UInt64.size - 1) .tooLarge 0 rest
  | _ => digits? (UInt64.size - 1) .tooLarge 0 cs

/-- A signed numeral that fits 32 bits. -/
def integer? (cs : List Char) : Except NumeralFault Int :=
  match cs with
  | [] => .error .empty
  | ['+'] | ['-'] => .error .invalidDigit
  | '+' :: rest => Int.ofNat <$> digits? 0x7fffffff .tooLarge 0 rest
  | '-' :: rest => (fun n => -Int.ofNat n) <$> digits? 0x80000000 .tooSmall 0 rest
  | _ => Int.ofNat <$> digits? 0x7fffffff .tooLarge 0 cs

end TensorGraph.Text
