import TensorGraph.Text.Quoted

/-!
Everything that can go wrong between building a graph and reading a result. Each constructor is
one cause; `text` is its wording for the user and `shown` its structure.
-/

namespace TensorGraph

/-- Why an operation was refused or failed. -/
inductive Error where
  /-- Arity, rank or reference errors found while building a graph or a program. -/
  | construction (op reason : String)
  /-- An element kind that an operation, or a device, does not accept. -/
  | type (op reason : String)
  /-- A live operation that no device can run under the fallback policy. -/
  | placement (node op device reason : String)
  /-- Allocation failure, kernel failure or loss of a device. -/
  | device (device op reason : String) (fatal : Bool)
  | configuration (reason : String)
  /-- Runtime shapes that do not agree with the operation. -/
  | shape (op reason : String)
  | invalidCall (reason : String)
  /-- A borrowed output read after a later call. -/
  | stale (epoch current : Nat)
  /-- A call of an executable that lost its device. -/
  | poisoned (reason : String)
  | message (text : String)
  | file (text : String)
  /-- An error carried unchanged inside another. -/
  | wrapped (inner : Error)
  /-- An error, given as it is shown, with a remark on it. -/
  | remarked (cause remark : String)
  /-- A read or write outside a buffer, or a size that overflows: the run ends here, without an
  answer. -/
  | crash
  deriving DecidableEq, Repr, Inhabited

namespace Error

/-- The wording for the user. -/
def text : Error → String
  | construction op reason => "graph construction error in " ++ op ++ ": " ++ reason
  | type op reason => "type error in " ++ op ++ ": " ++ reason
  | placement node op name reason =>
    "placement error: " ++ op ++ " (" ++ node ++ ") cannot run on " ++ name ++ ": " ++ reason
  | device name op reason _ => "device error on " ++ name ++ " at " ++ op ++ ": " ++ reason
  | configuration reason => "configuration error: " ++ reason
  | shape op reason => "shape error in " ++ op ++ ": " ++ reason
  | invalidCall reason => "invalid call: " ++ reason
  | stale epoch current =>
    s!"borrowed output from call {epoch} was invalidated by call {current}"
  | poisoned reason => "function is unusable after a fatal device error: " ++ reason
  | message text => "Message: " ++ text
  | file text => "IO error: " ++ text
  | wrapped inner => inner.text
  | remarked cause remark => cause ++ "\n" ++ Text.quoted remark
  | crash => "index out of range"

/-- The error with its structure. -/
def shown : Error → String
  | construction op reason =>
    Text.recorded "GraphConstruction" [("op", Text.quoted op), ("msg", Text.quoted reason)]
  | type op reason => Text.recorded "Type" [("op", Text.quoted op), ("msg", Text.quoted reason)]
  | placement node op name reason =>
    Text.recorded "Placement" [("node", Text.quoted node), ("op", Text.quoted op),
      ("device", Text.quoted name), ("reason", Text.quoted reason)]
  | device name op reason fatal =>
    Text.recorded "Device" [("device", Text.quoted name), ("op", Text.quoted op),
      ("msg", Text.quoted reason), ("fatal", toString fatal)]
  | configuration reason => "Configuration(" ++ Text.quoted reason ++ ")"
  | shape op reason => Text.recorded "Shape" [("op", Text.quoted op), ("msg", Text.quoted reason)]
  | invalidCall reason => "InvalidCall(" ++ Text.quoted reason ++ ")"
  | stale epoch current =>
    Text.recorded "StaleHandle" [("epoch", toString epoch), ("current", toString current)]
  | poisoned reason => "FunctionPoisoned(" ++ Text.quoted reason ++ ")"
  | message text => "Msg(" ++ Text.quoted text ++ ")"
  | file text => "IoError(" ++ Text.quoted text ++ ")"
  | wrapped inner => "Wrapped(" ++ inner.shown ++ ")"
  | remarked cause remark =>
    Text.recorded "WrappedContext" [("wrapped", cause), ("context", Text.quoted remark)]
  | crash => "crash"

/-- Whether a device is the cause. -/
def isDevice : Error → Bool
  | device .. => true
  | _ => false

/-- Device errors after which the device can no longer be used. -/
def isFatal : Error → Bool
  | device _ _ _ fatal => fatal
  | _ => false

/-- A device error after which the device stays usable. -/
def onDevice (name op reason : String) : Error := device name op reason false

/-- The loss of a device. -/
def lost (name op : String) : Error := device name op "device context lost" true

end Error

instance : ToString Error := ⟨Error.text⟩

/-- The value, or the message `text` in place of a missing one. -/
def Error.require {α : Type} (text : String) : Option α → Except Error α
  | some value => .ok value
  | none => .error (.message text)

end TensorGraph
