import TensorGraph.Graph.Basic

/-!
Graphs in the DOT language: one node for each leaf and each operation, one edge for each operand.
Leaves come first, in the order of the variables, then the operations.
-/

namespace TensorGraph

/-- What a leaf is called in a drawing. -/
def Var.role (x : Var) : String :=
  match x.origin with
  | .input => "input"
  | .constant _ => "const"
  | .shared _ => "shared"
  | .output _ => "value"

namespace Graph

/-- The label of leaf `v`. -/
def leafLabel (v : VarId) (x : Var) : String :=
  x.role ++ " " ++ x.name.getD (varName v) ++ ": " ++ x.ty.name

/-- The label of an operation, with its place once it has one. -/
def nodeLabel (n : Node) : String :=
  n.label ++ " " ++ n.op.text ++
    (match n.place with
      | some l => " @" ++ l.name
      | none => "") ++
    (match n.inPlace with
      | some i => s!" (inplace {i})"
      | none => "")

/-- The leaves with their numbers. -/
def leaves (g : Graph) : List (VarId × Var) :=
  (g.vars.toList.mapIdx fun v x => (v, x)).filter fun (_, x) => x.isLeaf

/-- The variable that each node of the drawing stands for. -/
def drawnVars (g : Graph) : List VarId :=
  g.leaves.map Prod.fst ++ g.nodes.toList.map Node.output

/-- The labels of all nodes of the drawing. -/
def drawnLabels (g : Graph) : List String :=
  (g.leaves.map fun (v, x) => leafLabel v x) ++ g.nodes.toList.map nodeLabel

/-- The edges of the drawing, from each operand to its reader. -/
def drawnEdges (g : Graph) : List (Nat × Nat) :=
  g.nodes.toList.flatMap fun n =>
    n.inputs.filterMap fun v => do
      let source ← g.drawnVars.idxOf? v
      let target ← g.drawnVars.idxOf? n.output
      some (source, target)

/-- A label between quotation marks inside a quoted attribute. -/
def dotQuoted (label : String) : String :=
  String.ofList ((Text.quoted label).toList.flatMap fun c =>
    if c = '"' ∨ c = '\\' then ['\\', c] else [c])

/-- The graph in the DOT language. -/
def dot (g : Graph) : String :=
  let nodes := g.drawnLabels.mapIdx fun i label =>
    s!"    {i} [ label = \"" ++ dotQuoted label ++ "\" ]\n"
  let edges := g.drawnEdges.map fun (a, b) => s!"    {a} -> {b} [ ]\n"
  "digraph \x7b\n" ++ String.join nodes ++ String.join edges ++ "\x7d\n"

end Graph

end TensorGraph
