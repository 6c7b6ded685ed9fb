import TensorGraph.Program

/-!
Rebuilding a program node by node into a new graph. Every variable of the old graph that was
rebuilt has an image in the new one; leaves are copied when they are first read. The nodes that
nothing depends on are left behind.
-/

namespace TensorGraph

/-- A new graph under construction. -/
structure Rebuild where
  graph : Graph
  /-- The new variable for an old one. -/
  image : VarId → Option VarId
  /-- New variables that hold the result of an operation on new operands. -/
  known : List ((Op × List VarId) × VarId)

/-- A step of a rebuild. -/
abbrev Rebuilding := StateT Rebuild (Except Error)

namespace Rebuild

/-- Nothing rebuilt yet. -/
def start (p : Program) : Rebuild := ⟨.empty p.graph.float, fun _ => none, []⟩

/-- Makes `new` the image of `old`. -/
def bind (old new : VarId) : Rebuilding Unit :=
  modify fun r => { r with image := fun v => if v = old then some new else r.image v }

/-- Appends a leaf to the new graph. -/
def leaf (x : Var) : Rebuilding VarId := do
  let r ← get
  let (graph, v) := r.graph.pushLeaf x
  set { r with graph }
  return v

/-- The image of an old variable. A leaf without one is copied. -/
def read (p : Program) (old : VarId) : Rebuilding VarId := do
  match (← get).image old with
  | some new => return new
  | none =>
    let x ← p.graph.var old
    if !x.isLeaf then throw (.message (varName old ++ " is read before it was rewritten"))
    let new ← leaf x
    bind old new
    return new

/-- The images of several old variables. -/
def readAll (p : Program) (olds : List VarId) : Rebuilding (List VarId) := olds.mapM (read p)

/-- A new constant. -/
def constant (t : Tensor) : Rebuilding VarId :=
  leaf { ty := { kind := t.kind, rank := t.rank }, origin := .constant t }

/-- Appends an operation on new variables. -/
def emit (op : Op) (inputs : List VarId) (place : Place) (inPlace : Option Nat) :
    Rebuilding VarId := do
  let r ← get
  let (graph, v) ← r.graph.push op inputs place inPlace
  set { r with graph }
  return v

/-- The variable known to hold the result of an operation. -/
def known? (op : Op) (inputs : List VarId) : Rebuilding (Option VarId) := do
  return ((← get).known.find? fun e => e.1 == (op, inputs)).map Prod.snd

/-- Notes that a variable holds the result of an operation. -/
def note (op : Op) (inputs : List VarId) (v : VarId) : Rebuilding Unit :=
  modify fun r => { r with known := ((op, inputs), v) :: r.known }

/-- Where a new variable lives, once it is placed. -/
def place (v : VarId) : Rebuilding Place := do
  return (← (← get).graph.ty v).place

/-- Copies an operation, reading the images of its operands. -/
def copy (p : Program) (n : Node) : Rebuilding Unit := do
  let inputs ← readAll p n.inputs
  bind n.output (← emit n.op inputs n.place n.inPlace)

/-- The program on the new graph. -/
def finish (p : Program) : Rebuilding Program := do
  let inputs ← readAll p p.inputs
  let outputs ← readAll p p.outputs
  let updates ← p.updates.mapM fun (target, value) => return (← read p target, ← read p value)
  return ⟨(← get).graph, inputs, outputs, updates⟩

end Rebuild

namespace Program

/-- Rebuilds the live operations one after the other. The inputs come first, so that all of them
are kept, and in their order. -/
def rebuild (p : Program) (step : Node → Rebuilding Unit) : Except Error Program :=
  (do
    discard (Rebuild.readAll p p.inputs)
    p.liveNodes.forM step
    Rebuild.finish p : Rebuilding Program).run' (.start p)

/-- The program without the operations and leaves that its roots do not need. Inputs stay. -/
def prune (p : Program) : Except Error Program := p.rebuild (Rebuild.copy p)

end Program

end TensorGraph
