import TensorGraph.Text.Printable

/-!
Text shown inside other text: strings in quotation marks with the marks, backslashes and
unprintable characters escaped, and lists in brackets.
-/

namespace TensorGraph.Text

/-- The lower-case hexadecimal digits of a number. -/
def hex (n : Nat) : List Char := Nat.toDigits 16 n

/-- How a character stands between quotation marks. -/
def escaped (c : Char) : List Char :=
  if c = '"' then ['\\', '"']
  else if c = '\\' then ['\\', '\\']
  else if c = '\n' then ['\\', 'n']
  else if c = '\t' then ['\\', 't']
  else if c = '\r' then ['\\', 'r']
  else if c.toNat = 0 then ['\\', '0']
  else if isPrintable c then [c]
  else ['\\', 'u', '\x7b'] ++ hex c.toNat ++ ['\x7d']

/-- The text in quotation marks. -/
def quoted (s : String) : String := String.ofList ('"' :: s.toList.flatMap escaped ++ ['"'])

/-- Items between brackets. -/
def bracketed (items : List String) : String := "[" ++ ", ".intercalate items ++ "]"

/-- Items between braces. -/
def braced (items : List String) : String := "\x7b" ++ ", ".intercalate items ++ "\x7d"

/-- A list of numbers. -/
def numbers (ns : List Nat) : String := bracketed (ns.map toString)

/-- A named record with its fields. -/
def recorded (name : String) (fields : List (String × String)) : String :=
  name ++ " \x7b " ++ ", ".intercalate (fields.map fun (f, v) => f ++ ": " ++ v) ++ " \x7d"

/-- A number in `width` hexadecimal digits. -/
def hexPadded (width n : Nat) : String :=
  let digits := hex n
  String.ofList (List.replicate (width - digits.length) '0' ++ digits)

end TensorGraph.Text
