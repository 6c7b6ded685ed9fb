import TensorGraph.Graph.Basic

/-!
Which operations a set of variables needs, and in which order they run: always the first one
whose operands are ready.
-/

namespace TensorGraph.Graph

/-- Splits off the operations that the variables `roots` need, from the last to the first, with
all variables needed on the way. -/
def needed (roots : List VarId) : List Node → List Node × List VarId
  | [] => ([], roots)
  | n :: ns =>
    let (live, vars) := needed roots ns
    if vars.contains n.output then (n :: live, n.inputs ++ vars) else (live, vars)

/-- The operations that the variables depend on, in the order of their creation. -/
def liveNodes (g : Graph) (roots : List VarId) : List Node := (needed roots g.nodes.toList).1

/-- The operations that must run before `n`. -/
def producers (g : Graph) (n : Node) : List NodeId :=
  n.inputs.filterMap fun v => (g.producer? v).map Node.id

/-- The first operation that is not done and whose producers are. -/
def nextReady? (g : Graph) (live : List Node) (finished : List NodeId) : Option Node :=
  live.find? fun n =>
    !finished.contains n.id && (g.producers n).all fun p => finished.contains p

/-- Runs through `count` operations, each the first that is ready. -/
def orderFrom (g : Graph) (live : List Node) : Nat → List NodeId → Except Error (List Node)
  | 0, _ => .ok []
  | count + 1, finished =>
    match g.nextReady? live finished with
    | none => .error (.construction "graph" "cycle detected")
    | some n => do
      let rest ← orderFrom g live count (n.id :: finished)
      return n :: rest

/-- The operations that the variables depend on, in the order in which they run. -/
def order (g : Graph) (roots : List VarId) : Except Error (List Node) := do
  roots.forM fun v => discard (g.var v)
  let live := g.liveNodes roots
  g.orderFrom live live.length []

end TensorGraph.Graph
