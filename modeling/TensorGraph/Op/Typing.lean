import TensorGraph.Kind.Promotion
import TensorGraph.Op.Basic
import TensorGraph.Capability

/-!
Static types of operations: the kind that operands of different kinds are computed in, and the
type of a result once they agree.
-/

namespace TensorGraph

/-- Rank of an elementwise result. A value without axes goes with every other. -/
def broadcastRank? (a b : Nat) : Option Nat :=
  if a = b ∨ b = 0 then some a else if a = 0 then some b else none

/-- Turns a reason into a type error of an operation. -/
def Op.typed {α : Type} (op : Op) (r : Except String α) : Except Error α :=
  r.mapError (Error.type op.name)

/-- Result type of an operation on two operands, whose kinds may differ. A device given by its
table must support the common kind. -/
def resolve (a b : Ty) (op : Op) (target : Option Table) : Except Error Ty := do
  let kind := a.kind.promote b.kind
  let rank? := match op.capability with
    | .elementwise => broadcastRank? a.rank b.rank
    | .linearAlgebra => if a.rank = b.rank ∧ (a.rank = 2 ∨ a.rank = 3) then some a.rank else none
    | _ => if a.rank = b.rank then some a.rank else none
  let some rank := rank?
    | throw (.construction op.name s!"incompatible ranks {a.rank} and {b.rank}")
  op.typed (op.accepts kind)
  if let some table := target then op.typed (table.supports op [kind])
  return { kind, rank }

/-- Whether integers are cast to the default float before the operation. -/
def Op.needsFloat : Op → Bool
  | unary f => f.isTranscendental
  | reduce .mean _ => true
  | _ => false

/-- Type in which the operand of a one-operand operation is computed. -/
def resolveOperand (a : Ty) (op : Op) (defaultFloat : Kind) : Except Error Ty := do
  let kind := if op.needsFloat && !a.kind.isFloat then defaultFloat else a.kind
  op.typed (op.accepts kind)
  return { a with kind }

/-- Rank of an elementwise result of several operands. -/
def foldRank (op : Op) (rank : Nat) : List Ty → Except Error Nat
  | [] => .ok rank
  | t :: ts =>
    match broadcastRank? rank t.rank with
    | some r => foldRank op r ts
    | none => .error (.construction op.name s!"incompatible ranks {rank} and {t.rank}")

/-- Whether the list holds each number below `rank` exactly once. -/
def isPermutation (perm : List Nat) (rank : Nat) : Bool :=
  perm.length == rank && (List.range rank).all fun i => perm.contains i

/-- Rank of the result. -/
def Op.inferRank (op : Op) (first : Ty) (rest : List Ty) : Except Error Nat :=
  match op with
  | unary _ | cast _ | toDevice _ | toHost => .ok first.rank
  | binary _ | fused _ => foldRank op first.rank rest
  | reduce _ none => .ok 0
  | reduce _ (some axis) =>
    if axis < first.rank then .ok (first.rank - 1)
    else .error (.construction op.name s!"axis {axis} out of range for rank {first.rank}")
  | matmul =>
    match rest with
    | [] => .error .crash
    | second :: _ =>
      if first.rank = second.rank ∧ (first.rank = 2 ∨ first.rank = 3) then .ok second.rank
      else .error (.construction op.name
        s!"expected two rank 2 or two rank 3 operands, got {first.rank} and {second.rank}")
  | reshape shape => .ok shape.length
  | transpose perm =>
    if isPermutation perm first.rank then .ok first.rank
    else .error (.construction op.name
      (Text.numbers perm ++ s!" is not a permutation of rank {first.rank}"))

/-- Kind of the result for operands of one kind. -/
def Op.resultKind (op : Op) (kind : Kind) : Kind :=
  match op with
  | cast k => k
  | _ => kind

/-- Result type for operands that already share a kind. -/
def Op.infer (op : Op) (inputs : List Ty) : Except Error Ty := do
  if inputs.length ≠ op.arity then
    throw (.construction op.name s!"expected {op.arity} inputs, got {inputs.length}")
  match inputs with
  | [] => throw .crash
  | first :: rest =>
    if let some other := rest.find? fun t => t.kind != first.kind then
      throw (.type op.name ("operands mix " ++ first.kind.name ++ " and " ++ other.kind.name))
    op.typed (op.accepts first.kind)
    let rank ← op.inferRank first rest
    return { kind := op.resultKind first.kind, rank }

end TensorGraph
