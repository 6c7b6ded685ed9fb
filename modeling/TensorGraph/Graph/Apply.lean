import TensorGraph.Graph.Basic

/-!
Adding operations to a graph. Operands of different kinds are cast to their common kind first, so
that every kernel sees operands of one kind. Arity, rank and kind errors are reported here and
not when the graph runs; casts added before an error is found stay in the graph.
-/

namespace TensorGraph.Graph

/-- The common type of the operands of an operation on several. -/
def resolveAll (op : Op) (ty : Ty) : List Ty → Except Error Ty
  | [] => .ok ty
  | t :: ts => do
    let joined ← resolve ty t op none
    resolveAll op joined ts

/-- The kind in which an operation on operands of those types is computed. -/
def operandKind (g : Graph) (op : Op) (tys : List Ty) : Except Error Kind :=
  match tys with
  | [] => .error .crash
  | first :: rest =>
    match op with
    | .binary _ | .matmul | .fused _ => Ty.kind <$> resolveAll op first rest
    | _ => Ty.kind <$> resolveOperand first op g.float

/-- Types of the operands, with errors told of the operation. -/
def operandTys (g : Graph) (op : Op) (inputs : List VarId) : Except Error (List Ty) :=
  if inputs.length ≠ op.arity then
    .error (.construction op.name s!"expected {op.arity} inputs, got {inputs.length}")
  else
    (g.tys inputs).mapError fun
      | .construction _ reason => .construction op.name reason
      | e => e

/-- Casts the arguments of another kind, one new operation for each. -/
def castArgs (g : Graph) (kind : Kind) : List VarId → List Ty → Graph × Except Error (List VarId)
  | v :: vs, t :: ts =>
    if t.kind = kind then
      let (g, rest) := castArgs g kind vs ts
      (g, (v :: ·) <$> rest)
    else
      match g.push (.cast kind) [v] none none with
      | .error e => (g, .error e)
      | .ok (g, c) =>
        let (g, rest) := castArgs g kind vs ts
        (g, (c :: ·) <$> rest)
  | _, _ => (g, .ok [])

/-- Adds an operation. A cast to the kind that the operand has already adds nothing. -/
def apply (g : Graph) (op : Op) (inputs : List VarId) : Graph × Except Error VarId :=
  match g.operandTys op inputs with
  | .error e => (g, .error e)
  | .ok tys =>
    match op, inputs, tys with
    | .cast k, v :: _, t :: _ => if k = t.kind then (g, .ok v) else add op inputs tys
    | _, _, _ => add op inputs tys
where
  /-- Casts the operands where needed and appends the operation. -/
  add (op : Op) (inputs : List VarId) (tys : List Ty) : Graph × Except Error VarId :=
    match g.operandKind op tys with
    | .error e => (g, .error e)
    | .ok kind =>
      match castArgs g kind inputs tys with
      | (g, .error e) => (g, .error e)
      | (g, .ok args) =>
        match g.push op args none none with
        | .error e => (g, .error e)
        | .ok (g, v) => (g, .ok v)

end TensorGraph.Graph
