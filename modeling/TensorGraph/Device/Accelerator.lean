import TensorGraph.Action
import TensorGraph.Config
import TensorGraph.Device.Hazards

/-!
A simulated accelerator. Launches are handed to lanes in turn, and a lane runs its launches one
after the other. A launch waits for those that it depends on and fails with the first of them that
failed. Nobody hears of its outcome before a wait: a failure is kept in the log, and the next wait
for the launch reports it. A device that was lost refuses all work once a wait has reported the
loss. The lane that loses the device sets a flag as well; whether the host sees it before a wait is
a matter of time, and so a host is alert to it or not.

How long a launch takes is not for the program to say. Here it runs when it is dispatched, unless
it is large and the device is given a measure of what is large. Then it runs, with all behind it,
when the host waits for any of them.
-/

namespace TensorGraph

/-- Why a launch failed. -/
structure Failure where
  /-- Label of the launch that failed first. -/
  label : String
  reason : String
  fatal : Bool
  deriving DecidableEq, Repr, Inhabited

/-- Everything a device needs to run a kernel on operands of type `β`. -/
structure Launch (β : Type) where
  /-- The name of the operation in messages. -/
  label : String
  op : Op
  kernel : Kernel
  inputs : List (β × Shape)
  output : β
  shape : Shape
  math : MathMode

/-- The failure of a launch for a reason of its own. -/
def Launch.failure {β : Type} (l : Launch β) (reason : String) (fatal : Bool) : Failure :=
  ⟨l.label, reason, fatal⟩

/-- Number of elements that a launch reads and writes. -/
def Launch.work {β : Type} (l : Launch β) : Nat :=
  l.inputs.foldl (fun n e => n + e.2.volume) l.shape.volume

/-- A launch that was dispatched and has not run. -/
structure Delayed where
  id : LaunchId
  launch : Launch BlockId
  /-- The launches that it waits for. -/
  deps : List LaunchId

/-- State of a simulated accelerator. -/
structure Accelerator where
  ordinal : Nat
  /-- Number of lanes that launches are handed to in turn. -/
  lanes : Nat := 1
  /-- How many elements a launch may touch and be over before the host goes on. Without a number
  every launch is. -/
  patience : Option Nat := none
  /-- Device memory in bytes. -/
  limit : Option Nat := none
  fault : Option Fault := none
  /-- Whether the host sees the loss of the device before a wait reports it. -/
  alert : Bool := false
  memory : Memory := {}
  hazards : Tracker := {}
  /-- How each launch went: nothing for success, else the failure. There is nothing yet for a
  launch that has not run. -/
  log : Array (Option Failure) := #[]
  /-- The launches that have not run, in the order of dispatch. -/
  delayed : List Delayed := []
  /-- Launches whose outcome no synchronization has reported. -/
  unseen : List LaunchId := []
  /-- Whether the device is lost for good. -/
  lost : Bool := false
  /-- Whether a wait has reported the loss. -/
  lossSeen : Bool := false
  deriving Inhabited

namespace Accelerator

def name (a : Accelerator) : String := s!"sim:{a.ordinal}"

/-- Number of launches so far. -/
def launches (a : Accelerator) : Nat := a.log.size

/-- The failure of a launch, if it failed. -/
def failure? (a : Accelerator) (l : LaunchId) : Option Failure := a.log[l]?.join

/-- The first failure among some launches. -/
def firstFailure? (a : Accelerator) (ls : List LaunchId) : Option Failure := ls.findSome? a.failure?

/-- A failure as an error of this device. -/
def report (a : Accelerator) (f : Failure) : Error := .device a.name f.label f.reason f.fatal

/-- Whether the host knows that the device is lost. -/
def knowsLoss (a : Accelerator) : Bool := a.lossSeen || a.alert && a.lost

/-- Refuses work on a device that is known to be lost. -/
def checkAlive (op : String) : Action Accelerator Unit := do
  let a ← get
  if a.knowsLoss then throw (.lost a.name op)

/-- Whether a launch has not run yet. -/
def isDelayed (a : Accelerator) (l : LaunchId) : Bool := a.delayed.any fun d => d.id == l

/-- The new contents of the output of a launch. -/
def compute (a : Accelerator) (l : Launch BlockId) : Except Error Data := do
  let inputs ← l.inputs.mapM fun (b, _) =>
    if b = l.output then pure Operand.output
    else match a.memory.get? b with
      | some block => pure (.buffer block.data)
      | none => throw .crash
  match a.memory.get? l.output with
  | none => throw .crash
  | some block =>
    l.kernel l.op {
      inputs
      shapes := l.inputs.map Prod.snd
      out := block.data
      outShape := l.shape
      math := l.math }

/-- Whether a kernel broke off in a block that the launch touches. -/
def touchesBroken (a : Accelerator) (l : Launch BlockId) : Bool :=
  (l.output :: l.inputs.map Prod.fst).any fun b => (a.memory.get? b).any Block.broken

/-- Runs launch number `id`, which waits for the launches `deps`. -/
def run (a : Accelerator) (id : LaunchId) (l : Launch BlockId) (deps : List LaunchId) :
    Option Failure × Accelerator :=
  match a.firstFailure? deps, a.fault.filter fun f => f.launch == id + 1 with
  | some f, _ => (some f, a)
  | none, some fault =>
    if fault.losesDevice then (some (l.failure "device context lost" true), { a with lost := true })
    else (some (l.failure "injected kernel failure" false), a)
  | none, none =>
    if a.lost then (some (l.failure "device context lost" true), a)
    else if a.touchesBroken l then (some (l.failure "allocation lock poisoned" false), a)
    else match a.compute l with
      | .ok data => (none, { a with memory := a.memory.write l.output data })
      | .error .crash =>
        (some (l.failure "kernel panicked" false), { a with memory := a.memory.damage l.output })
      | .error e => (some (l.failure e.text false), a)

/-- Runs a launch that was delayed. All that it waits for has run. -/
def land (a : Accelerator) (d : Delayed) : Accelerator :=
  let (failure, a) := a.run d.id d.launch d.deps
  { a with log := a.log.setIfInBounds d.id failure }

/-- Runs all launches that were delayed, in the order of dispatch. -/
def landAll (a : Accelerator) : Accelerator := { a.delayed.foldl land a with delayed := [] }

/-- Whether a launch that was delayed touches a block. -/
def isInUse (a : Accelerator) (b : BlockId) : Bool :=
  a.delayed.any fun d => (d.launch.output :: d.launch.inputs.map Prod.fst).contains b

/-- The device once these launches have run. -/
def await (a : Accelerator) (ls : List LaunchId) : Accelerator :=
  if ls.any a.isDelayed then a.landAll else a

/-- Waits for launches without regard to how they went. -/
def settle (ls : List LaunchId) : Action Accelerator Unit :=
  modify fun a =>
    let a := a.await ls
    if ls.any fun l => (a.failure? l).any Failure.fatal then { a with lossSeen := true } else a

/-- Waits for launches and reports the first failure among them. -/
def wait (ls : List LaunchId) : Action Accelerator Unit := do
  settle ls
  let a ← get
  match a.firstFailure? ls with
  | some f => throw (a.report f)
  | none => return

/-- Why a request for so many bytes is refused, if it is. Machine words count them. -/
def refusal? (a : Accelerator) (bytes : Nat) : Option Error :=
  if Shape.word ≤ bytes then some .crash
  else a.limit.bind fun limit =>
    if Shape.word ≤ a.memory.inUse + bytes then some .crash
    else if limit < a.memory.inUse + bytes then
      some (.onDevice a.name "alloc"
        s!"out of memory: {bytes} bytes requested, {a.memory.inUse} of {limit} in use")
    else none

/-- A new block of zeros. Lack of memory is reported at once. A block that no memory has room for
is counted before it turns out that it cannot be made. -/
def alloc (kind : Kind) (n : Nat) : Action Accelerator BlockId := do
  checkAlive "alloc"
  let a ← get
  if let some e := a.refusal? (n * kind.bytes) then throw e
  if n < Shape.capacity then
    set { a with memory := a.memory.alloc kind n }
    return a.memory.next
  else
    set { a with memory := { a.memory with inUse := a.memory.inUse + n * kind.bytes } }
    throw .crash

/-- The contents of a block, unless a kernel broke off in it. -/
def contents (b : BlockId) : Action Accelerator Data := do
  match (← get).memory.get? b with
  | none => throw .crash
  | some block =>
    if block.broken then
      throw (.message "lock poisoned: poisoned lock: another task failed inside")
    return block.data

/-- Copies the first `n` elements of `source` into a block that nobody uses any more. Failures of
its earlier users do not matter: the contents are replaced. -/
def upload (source : Data) (n : Nat) (b : BlockId) : Action Accelerator Unit := do
  settle ((← get).hazards.get b).pending
  let data ← (← contents b).copyFrom source n
  modify fun a => { a with memory := a.memory.write b data, hazards := a.hazards.clear b }

/-- The first `n` elements of a block, once its last writer is done. -/
def download (b : BlockId) (n : Nat) : Action Accelerator Data := do
  wait ((← get).hazards.get b).writer.toList
  (← contents b).take n

/-- Waits for all launches that touch a block. -/
def settleBlock (b : BlockId) : Action Accelerator Unit := do
  wait ((← get).hazards.get b).pending

/-- The hazards once a launch is recorded, and the launches that it has to wait for. -/
def track (a : Accelerator) (l : Launch BlockId) : Tracker × List LaunchId :=
  a.hazards.track (fun r => r < a.launches && !a.isDelayed r) a.launches (l.inputs.map Prod.fst)
    l.output

/-- Records a launch of which nothing is known yet. Launches that have succeeded need not be
reported any more. -/
def record (a : Accelerator) (l : Launch BlockId) : Accelerator :=
  { a with
    hazards := (a.track l).1
    log := a.log.push none
    unseen := (a.unseen.filter fun e => a.isDelayed e || (a.failure? e).isSome) ++ [a.launches] }

/-- Whether a launch has not run when the host goes on: its lane is not free, or the first of the
launches that it waits for and that have not succeeded has not run either, or it is large. A launch
with a failed one as the first of these is over at once, also when others have not run. -/
def lags (a : Accelerator) (d : Delayed) : Bool :=
  a.delayed.any (fun e => e.id % a.lanes == d.id % a.lanes) ||
    match d.deps.find? fun e => a.isDelayed e || (a.failure? e).isSome with
    | some e => a.isDelayed e
    | none => a.patience.any fun most => most < d.launch.work

/-- Dispatches a launch, whatever comes of it. -/
def push (a : Accelerator) (l : Launch BlockId) : Accelerator :=
  let d : Delayed := ⟨a.launches, l, (a.track l).2⟩
  let a := a.record l
  if a.lags d then { a with delayed := a.delayed ++ [d] } else a.land d

/-- Dispatches a launch unless the device is known to be lost. -/
def dispatch (l : Launch BlockId) : Action Accelerator Unit := do
  checkAlive l.label
  modify fun a => a.push l

/-- Waits for all launches that were not waited for yet. -/
def synchronize : Action Accelerator Unit := do
  let events := (← get).unseen
  modify fun a => { a with unseen := [] }
  wait events
  checkAlive "synchronize"

end Accelerator

end TensorGraph
