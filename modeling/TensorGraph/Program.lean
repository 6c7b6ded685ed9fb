import TensorGraph.Graph.Order

/-!
Programs: a graph with the variables that a caller binds, the ones it gets back, and the new
values of persistent values. This is the unit that passes work on.
-/

namespace TensorGraph

/-- A graph together with its interface. -/
structure Program where
  graph : Graph
  inputs : List VarId
  outputs : List VarId
  /-- The variable of a persistent value, and the variable of its new value. -/
  updates : List (VarId × VarId)
  deriving Inhabited

namespace Program

/-- Values that must be computed: the outputs, then the new values. -/
def roots (p : Program) : List VarId := p.outputs ++ p.updates.map Prod.snd

/-- Outputs and new values. Their buffers outlive the call. -/
def isRoot (p : Program) (v : VarId) : Bool := p.roots.contains v

/-- The operations that the roots need. -/
def liveNodes (p : Program) : List Node := p.graph.liveNodes p.roots

/-- Number of reads of a variable by live operations. -/
def uses (p : Program) (v : VarId) : Nat := (p.liveNodes.flatMap Node.inputs).count v

/-- The live operations in the order in which they run. -/
def order (p : Program) : Except Error (List Node) := p.graph.order p.roots

def nodeCount (p : Program) : Nat := p.graph.nodes.size

def transferCount (p : Program) : Nat := p.graph.transferCount

/-- Checks that the inputs are different placeholders. -/
def checkInputs (g : Graph) (seen : List VarId) : List VarId → Except Error Unit
  | [] => .ok ()
  | v :: vs => do
    let x ← g.var v
    if !x.isInput then
      throw (.construction "program"
        (varName v ++ " is listed as an input but is not an input placeholder"))
    if seen.contains v then
      throw (.construction "program" ("input " ++ varName v ++ " is listed twice"))
    checkInputs g (v :: seen) vs

/-- Checks that the updates go to different persistent values of matching type. -/
def checkUpdates (g : Graph) (seen : List VarId) : List (VarId × VarId) → Except Error Unit
  | [] => .ok ()
  | (target, value) :: rest => do
    let t ← g.var target
    let u ← g.var value
    if t.cell?.isNone then
      throw (.construction "program"
        ("update target " ++ varName target ++ " is not a persistent value"))
    if seen.contains target then
      throw (.construction "program" (varName target ++ " is updated twice"))
    if t.ty.kind ≠ u.ty.kind then
      throw (.type "update" (varName target ++ " holds " ++ t.ty.kind.name ++ " but " ++
        varName value ++ " is " ++ u.ty.kind.name))
    if t.ty.rank ≠ u.ty.rank then
      throw (.construction "update" (varName target ++ s!" has rank {t.ty.rank} but " ++
        varName value ++ s!" has rank {u.ty.rank}"))
    checkUpdates g (target :: seen) rest

/-- Checks that every placeholder among `vs` is bound by the caller. -/
def checkBound (g : Graph) (inputs : List VarId) : List VarId → Except Error Unit
  | [] => .ok ()
  | v :: vs => do
    let x ← g.var v
    if x.isInput && !inputs.contains v then
      throw (.construction "program"
        ("input placeholder " ++ varName v ++ " is used but not listed as an input"))
    checkBound g inputs vs

/-- Checks a program's interface against its graph. -/
def validate (p : Program) : Except Error Unit := do
  p.graph.validate
  if p.outputs.isEmpty && p.updates.isEmpty then
    throw (.construction "program" "a program needs at least one output or update")
  (p.outputs ++ p.inputs).forM fun v => discard (p.graph.var v)
  checkInputs p.graph [] p.inputs
  checkUpdates p.graph [] p.updates
  checkBound p.graph p.inputs (p.liveNodes.flatMap Node.inputs ++ p.roots)

/-- A program whose interface fits its graph. -/
def make (graph : Graph) (inputs outputs : List VarId) (updates : List (VarId × VarId)) :
    Except Error Program := do
  let p : Program := ⟨graph, inputs, outputs, updates⟩
  p.validate
  return p

end Program

end TensorGraph
