import TensorGraph.Error
import TensorGraph.Text.Numeral

/-!
Which device a compilation targets, and how that is written: the host, or the word of an
accelerator followed by an optional colon and its number.
-/

namespace TensorGraph

/-- The device that a context prefers. -/
inductive Target where
  | host
  | sim (ordinal : Nat)
  | cuda (ordinal : Nat)
  deriving DecidableEq, Repr, Inhabited

namespace Target

/-- The number of an accelerator. -/
def ordinal? : Target → Option Nat
  | host => none
  | sim n | cuda n => some n

def name : Target → String
  | host => "host"
  | sim n => s!"sim{n}"
  | cuda n => s!"cuda{n}"

def shown : Target → String
  | host => "Host"
  | sim n => s!"Sim({n})"
  | cuda n => s!"Cuda({n})"

/-- The number after the word of an accelerator. An empty one is zero. -/
def number? (cs : List Char) : Option Nat :=
  let digits := match cs with
    | ':' :: rest => rest
    | _ => cs
  if digits.isEmpty then some 0 else (Text.natural? digits).toOption

/-- Reads a target, if the text is one. -/
def read? (cs : List Char) : Option Target :=
  match cs with
  | ['h', 'o', 's', 't'] | ['c', 'p', 'u'] => some host
  | 's' :: 'i' :: 'm' :: rest => (number? rest).map sim
  | 'c' :: 'u' :: 'd' :: 'a' :: rest => (number? rest).map cuda
  | _ => none

/-- Reads a target. -/
def parse (cs : List Char) : Except Error Target :=
  match read? cs with
  | some t => .ok t
  | none => .error (.configuration ("unknown device `" ++ String.ofList cs ++ "`"))

end Target

end TensorGraph
