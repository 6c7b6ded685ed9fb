import TensorGraph.Context
import TensorGraph.Pass.Rebuild

/-!
Canonical form: operations on constants are computed, operands of commutative functions are
ordered, double negations vanish and equal operations are merged.
-/

namespace TensorGraph.Canonical

/-- The operands in the order in which a commutative function is kept. -/
def ordered (op : Op) (inputs : List VarId) : List VarId :=
  match op, inputs with
  | .binary f, [a, b] => if f.isCommutative ∧ b < a then [b, a] else [a, b]
  | _, _ => inputs

/-- What a negation negates, when its operand is a negation itself. -/
def negated? (g : Graph) (op : Op) (inputs : List VarId) : Option VarId :=
  match op, inputs with
  | .unary .neg, x :: _ => do
    let inner ← g.producer? x
    if inner.op = .unary .neg then inner.inputs.head? else none
  | _, _ => none

/-- The value of an operation on constants, unless it has more than `limit` elements or cannot be
computed. A value whose elements cannot be counted is a crash. -/
def fold? (kernels : Kernels) (limit : Nat) (g : Graph) (op : Op) (inputs : List VarId) :
    Except Error (Option Tensor) :=
  if op.isTransfer then .ok none
  else
    match inputs.mapM fun v => do (← g.vars[v]?).constant? with
    | none => .ok none
    | some constants =>
      match op.outputShape (constants.map Tensor.shape) with
      | .error .crash => .error .crash
      | .error _ => .ok none
      | .ok shape =>
        if !shape.counts then .error .crash
        else if shape.volume > limit then .ok none
        else
          match kernels.run op constants {} with
          | .ok t => .ok (some t)
          | .error .crash => .error .crash
          | .error _ => .ok none

/-- The new form of one operation. -/
def step (c : Context) (p : Program) (n : Node) : Rebuilding Unit := do
  let args ← Rebuild.readAll p n.inputs
  if let some x := negated? (← get).graph n.op args then
    Rebuild.bind n.output x
    return
  let inputs := ordered n.op args
  if let some t ← fold? c.kernels c.config.foldLimit (← get).graph n.op inputs then
    Rebuild.bind n.output (← Rebuild.constant t)
    return
  if let some v ← Rebuild.known? n.op inputs then
    Rebuild.bind n.output v
    return
  let v ← Rebuild.emit n.op inputs n.place n.inPlace
  Rebuild.bind n.output v
  Rebuild.note n.op inputs v

/-- The program in canonical form. -/
def run (c : Context) (p : Program) : Except Error Program := p.rebuild (step c p)

end TensorGraph.Canonical
