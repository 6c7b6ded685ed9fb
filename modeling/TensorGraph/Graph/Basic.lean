import TensorGraph.Op.Typing
import TensorGraph.Tensor

/-!
Graphs of typed variables and the operations that compute them. Both are numbered in the order of
their creation, and an operation reads variables that exist already, so a graph has no cycles.
-/

namespace TensorGraph

/-- Number of a variable in its graph. -/
abbrev VarId := Nat

/-- Number of an operation in its graph. -/
abbrev NodeId := Nat

/-- How a variable is named in messages. -/
def varName (v : VarId) : String := s!"v{v}"

/-- How an operation is named in messages. -/
def nodeName (n : NodeId) : String := s!"n{n}"

/-- A persistent value: a tensor that survives from call to call. Its kind and rank are fixed; the
tensor itself is kept by number in the state of the machine. -/
structure Cell where
  id : Nat
  kind : Kind
  rank : Nat
  deriving DecidableEq, Repr, Inhabited

/-- Where the value of a variable comes from. -/
inductive Origin where
  /-- Bound to a tensor of the caller on every call. -/
  | input
  | constant (value : Tensor)
  | shared (cell : Cell)
  | output (node : NodeId)
  deriving Inhabited

/-- A value of a graph. -/
structure Var where
  ty : Ty
  origin : Origin
  name : Option String := none
  deriving Inhabited

namespace Var

/-- Whether no operation computes the variable. -/
def isLeaf (v : Var) : Bool :=
  match v.origin with
  | .output _ => false
  | _ => true

def constant? (v : Var) : Option Tensor :=
  match v.origin with
  | .constant t => some t
  | _ => none

def isInput (v : Var) : Bool :=
  match v.origin with
  | .input => true
  | _ => false

def cell? (v : Var) : Option Cell :=
  match v.origin with
  | .shared c => some c
  | _ => none

end Var

/-- An operation of a graph. -/
structure Node where
  id : NodeId
  op : Op
  inputs : List VarId
  output : VarId
  place : Place
  /-- Number of the input whose buffer the output overwrites. -/
  inPlace : Option Nat
  deriving DecidableEq, Repr, Inhabited

/-- The name of an operation in messages, such as `exp#n3`. -/
def Node.label (n : Node) : String := n.op.name ++ "#" ++ nodeName n.id

/-- Variables and operations in the order of their creation. -/
structure Graph where
  vars : Array Var
  nodes : Array Node
  /-- Float kind that integer operands of transcendental functions are cast to. -/
  float : Kind
  deriving Inhabited

namespace Graph

/-- A graph without variables. -/
def empty (float : Kind) : Graph := ⟨#[], #[], float⟩

/-- An empty graph with a default float. -/
def withFloat (kind : Kind) : Except Error Graph :=
  if kind.isFloat then .ok (empty kind)
  else .error (.configuration ("default float kind must be a float, got " ++ kind.name))

def var (g : Graph) (v : VarId) : Except Error Var :=
  match g.vars[v]? with
  | some x => .ok x
  | none => .error (.construction "graph" ("unknown variable " ++ varName v))

def node (g : Graph) (n : NodeId) : Except Error Node :=
  match g.nodes[n]? with
  | some x => .ok x
  | none => .error (.construction "graph" ("unknown node " ++ nodeName n))

def ty (g : Graph) (v : VarId) : Except Error Ty := Var.ty <$> g.var v

/-- Types of several variables. -/
def tys (g : Graph) : List VarId → Except Error (List Ty)
  | [] => .ok []
  | v :: vs => do
    let t ← g.ty v
    let ts ← g.tys vs
    return t :: ts

/-- The operation that computes a variable, unless it is a leaf. -/
def producer? (g : Graph) (v : VarId) : Option Node := do
  match (← g.vars[v]?).origin with
  | .output n => g.nodes[n]?
  | _ => none

/-- Appends a leaf. -/
def pushLeaf (g : Graph) (x : Var) : Graph × VarId :=
  ({ g with vars := g.vars.push x }, g.vars.size)

/-- An input placeholder. -/
def input (g : Graph) (ty : Ty) (name : Option String) : Graph × VarId :=
  g.pushLeaf { ty := ty.placed none, origin := .input, name }

def constant (g : Graph) (t : Tensor) : Graph × VarId :=
  g.pushLeaf { ty := { kind := t.kind, rank := t.rank }, origin := .constant t }

/-- Registers a persistent value. -/
def shared (g : Graph) (c : Cell) : Graph × VarId :=
  g.pushLeaf { ty := { kind := c.kind, rank := c.rank }, origin := .shared c }

/-- Appends an operation whose inputs already share a kind. -/
def push (g : Graph) (op : Op) (inputs : List VarId) (place : Place) (inPlace : Option Nat) :
    Except Error (Graph × VarId) := do
  let ty ← op.infer (← g.tys inputs)
  let id := g.nodes.size
  let output := g.vars.size
  return ({ g with
    vars := g.vars.push { ty := ty.placed place, origin := .output id }
    nodes := g.nodes.push { id, op, inputs, output, place, inPlace } }, output)

/-- Checks that every operation reads values made before it and owns its output. Reads then go
back in the numbering only, so there is no cycle. -/
def validate (g : Graph) : Except Error Unit :=
  g.nodes.toList.forM fun n => do
    n.inputs.forM fun v => do
      if let .output p := (← g.var v).origin then
        if p ≥ n.id then
          throw (.construction n.label
            ("reads " ++ varName v ++ " which is produced later by " ++ nodeName p))
    match (← g.var n.output).origin with
    | .output p =>
      if p ≠ n.id then
        throw (.construction n.label
          ("output " ++ varName n.output ++ " is not attributed to this node"))
    | _ =>
      throw (.construction n.label
        ("output " ++ varName n.output ++ " is not attributed to this node"))

/-- Number of operations that move a value between devices. -/
def transferCount (g : Graph) : Nat := g.nodes.toList.countP fun n => n.op.isTransfer

end Graph

end TensorGraph
