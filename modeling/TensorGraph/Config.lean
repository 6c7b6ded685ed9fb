import TensorGraph.Device.Target
import TensorGraph.Kernel.Basic
import TensorGraph.Pass.Name
import TensorGraph.Text.Blank

/-!
Options of one compilation, and their text form: flags separated by commas, each a key and a
value joined by an equals sign. Later flags override earlier ones; blanks around flags, keys and
values do not matter, and neither do empty flags.
-/

namespace TensorGraph

/-- What placement does when the accelerator cannot run a live operation. -/
inductive Fallback where
  /-- Refuses the program. -/
  | strict
  /-- Runs the operation on the host, with a warning. -/
  | warn
  /-- Runs the operation on the host. -/
  | silent
  deriving DecidableEq, Repr, Inhabited

namespace Fallback

def tag : Fallback → String
  | strict => "Strict"
  | warn => "Warn"
  | silent => "Silent"

def parse (s : String) : Except Error Fallback :=
  match s with
  | "strict" => .ok strict
  | "warn" => .ok warn
  | "silent" => .ok silent
  | _ => .error (.configuration ("unknown fallback policy `" ++ s ++ "`"))

end Fallback

/-- Accuracy that kernels may trade for speed. -/
inductive Relaxation where
  | fastTranscendentals
  | flushDenormals
  deriving DecidableEq, Repr, Inhabited

namespace Relaxation

def tag : Relaxation → String
  | fastTranscendentals => "FastTranscendentals"
  | flushDenormals => "FlushDenormals"

def parse (s : String) : Except Error Relaxation :=
  match s with
  | "fast_transcendentals" => .ok fastTranscendentals
  | "flush_denormals" => .ok flushDenormals
  | _ => .error (.configuration ("unknown relaxed-math flag `" ++ s ++ "`"))

end Relaxation

/-- Makes a launch of the simulated accelerator fail. -/
structure Fault where
  /-- Whether the device is lost for good, and not only the launch. -/
  losesDevice : Bool
  /-- Number of the launch, counted from one. -/
  launch : Nat
  deriving DecidableEq, Repr, Inhabited

/-- Options of the simulated accelerator. -/
structure SimConfig where
  /-- Number of worker lanes, if it is given. -/
  lanes : Option Nat := none
  /-- Device memory in bytes. -/
  memory : Option Nat := none
  fault : Option Fault := none
  deriving DecidableEq, Repr, Inhabited

/-- Number of worker lanes on a host with so many processors: by default as many, but one at least
and four at most. -/
def SimConfig.laneCount (c : SimConfig) (processors : Nat) : Nat :=
  c.lanes.getD (max 1 (min processors 4))

/-- Reads an element kind. -/
def Kind.parse (s : String) : Except Error Kind :=
  match ofName? s with
  | some k => .ok k
  | none => .error (.configuration ("unknown element kind `" ++ s ++ "`"))

/-- Options of one compilation. -/
structure Config where
  target : Target := .host
  /-- Float kind that integer operands of transcendental functions are cast to. -/
  float : Kind := .f32
  /-- Frees intermediate buffers as soon as their last reader ran. -/
  collect : Bool := true
  fallback : Fallback := .strict
  relaxed : List Relaxation := []
  excluded : List String := []
  sim : SimConfig := {}
  /-- Largest result, in elements, that constant folding evaluates. -/
  foldLimit : Nat := 65536
  deriving DecidableEq, Repr, Inhabited

namespace Config

/-- Sets the default float. -/
def withFloat (c : Config) (kind : Kind) : Except Error Config :=
  if kind.isFloat then .ok { c with float := kind }
  else .error (.configuration ("element type must be a float kind, got " ++ kind.name))

/-- Adds a relaxation that is not there yet. -/
def relax (c : Config) (r : Relaxation) : Config :=
  if c.relaxed.contains r then c else { c with relaxed := c.relaxed ++ [r] }

/-- Leaves out the pass of that name. -/
def exclude (c : Config) (name : String) : Config := { c with excluded := c.excluded ++ [name] }

/-- Kernel options, before the device adds its own. -/
def math (c : Config) : MathMode :=
  { fastTranscendentals := c.relaxed.contains .fastTranscendentals
    flushDenormals := c.relaxed.contains .flushDenormals }

/-- Reads a switch. -/
def parseSwitch (key value : String) : Except Error Bool :=
  match value with
  | "on" | "true" | "1" => .ok true
  | "off" | "false" | "0" => .ok false
  | _ => .error (.configuration ("`" ++ key ++ "` expects on/off, got `" ++ value ++ "`"))

/-- Reads a number. -/
def parseNumber (key : String) (value : List Char) : Except Error Nat :=
  match Text.natural? value with
  | .ok n => .ok n
  | .error _ =>
    .error (.configuration
      ("`" ++ key ++ "` expects a number, got `" ++ String.ofList value ++ "`"))

/-- Adds relaxations by name. -/
def relaxNamed (c : Config) : List String → Except Error Config
  | [] => .ok c
  | name :: names => do
    let r ← Relaxation.parse name
    (c.relax r).relaxNamed names

/-- Leaves out passes by name. -/
def excludeNamed (c : Config) : List String → Except Error Config
  | [] => .ok c
  | name :: names =>
    if (PassName.ofName? name).isNone then
      .error (.configuration ("unknown pass `" ++ name ++ "`"))
    else (c.exclude name).excludeNamed names

/-- Applies one flag. -/
def set (c : Config) (key : String) (value : List Char) : Except Error Config := do
  let word := String.ofList value
  match key with
  | "device" => return { c with target := ← Target.parse value }
  | "gc" | "garbage_collection" => return { c with collect := ← parseSwitch key word }
  | "fallback" => return { c with fallback := ← Fallback.parse word }
  | "float" | "element_type" => c.withFloat (← Kind.parse word)
  | "relaxed" | "precision" =>
    let cleared := { c with relaxed := [] }
    if word = "none" then return cleared
    else cleared.relaxNamed ((Text.split '+' value).map String.ofList)
  | "exclude" =>
    c.excludeNamed (((Text.split '+' value).filter fun p => !p.isEmpty).map String.ofList)
  | "lanes" => return { c with sim.lanes := some (max (← parseNumber key value) 1) }
  | "sim_memory" => return { c with sim.memory := some (← parseNumber key value) }
  | "fold_limit" => return { c with foldLimit := ← parseNumber key value }
  | _ => throw (.configuration ("unknown flag `" ++ key ++ "`"))

/-- Applies one flag given as text without blanks around it. -/
def apply (c : Config) (flag : List Char) : Except Error Config :=
  match Text.cut? '=' flag with
  | some (key, value) => c.set (String.ofList (Text.trim key)) (Text.trim value)
  | none =>
    .error (.configuration ("expected key=value, got `" ++ String.ofList flag ++ "`"))

/-- Applies flags from left to right. -/
def applyAll (c : Config) : List (List Char) → Except Error Config
  | [] => .ok c
  | flag :: flags => do
    let c ← c.apply flag
    c.applyAll flags

/-- The flags of a text. -/
def flagsOf (text : List Char) : List (List Char) :=
  ((Text.split ',' text).map Text.trim).filter fun f => !f.isEmpty

/-- Reads flags on top of the defaults. -/
def parse (text : String) : Except Error Config :=
  ({} : Config).applyAll (flagsOf text.toList)

/-- The passes that this compilation runs. -/
def passes (c : Config) : Except Error (List PassName) := PassName.standard c.excluded

end Config

end TensorGraph
