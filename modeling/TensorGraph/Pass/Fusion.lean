import TensorGraph.Context
import TensorGraph.Pass.Rebuild

/-!
Fusion of elementwise operations. A value with a single reader is computed inside the expression
of its reader; a value that is read twice is still computed once, by an operation of its own.
-/

namespace TensorGraph.Fusion

/-- An expression under construction. Its inputs are variables of the old graph. -/
structure Tree where
  steps : List Step := []
  inputs : List VarId := []
  deriving DecidableEq, Repr, Inhabited

namespace Tree

/-- Appends a step and gives its number. -/
def push (t : Tree) (step : Step) : Tree × Nat :=
  ({ t with steps := t.steps ++ [step] }, t.steps.length)

/-- The step that loads a variable. Each variable is loaded once. -/
def load (t : Tree) (v : VarId) : Tree × Nat :=
  match t.inputs.idxOf? v with
  | some k =>
    match t.steps.idxOf? (.load k) with
    | some i => (t, i)
    | none => t.push (.load k)
  | none => { t with inputs := t.inputs ++ [v] }.push (.load t.inputs.length)

/-- Appends the steps of an expression whose inputs are the steps `args`. The numbers of its steps
so far are in `done`. -/
def graft (args : List Nat) : Tree → List Nat → List Step → Except Error (Tree × List Nat)
  | t, done, [] => .ok (t, done)
  | t, done, .load k :: steps => do
    let i ← Kernel.item args k
    graft args t (done ++ [i]) steps
  | t, done, .unary f a :: steps => do
    let (t, i) := t.push (.unary f (← Kernel.item done a))
    graft args t (done ++ [i]) steps
  | t, done, .binary f a b :: steps => do
    let (t, i) := t.push (.binary f (← Kernel.item done a) (← Kernel.item done b))
    graft args t (done ++ [i]) steps

/-- Appends the operation `n` on the steps `args`, and gives the number of its result. -/
def apply (t : Tree) (n : Node) (args : List Nat) : Except Error (Tree × Nat) :=
  match n.op with
  | .unary f => do return t.push (.unary f (← Kernel.item args 0))
  | .binary f => do return t.push (.binary f (← Kernel.item args 0) (← Kernel.item args 1))
  | .fused e => do
    let (t, done) ← graft args t [] e.steps
    match done.getLast? with
    | some i => return (t, i)
    | none => throw (.message (n.label ++ " has an empty expression"))
  | op => .error (.message (op.text ++ " cannot be fused"))

/-- Appends the operation `n` with everything that it absorbs, to the given depth, and gives the
number of its result. -/
def expand (g : Graph) (absorbed : List VarId) : Nat → Node → Tree → Except Error (Tree × Nat)
  | 0, _, _ => .error .crash
  | depth + 1, n, t => do
    let (t, args) ← n.inputs.foldlM (fun (t, args) v => do
      let (t, i) ← match g.producer? v with
        | some producer =>
          if absorbed.contains v then expand g absorbed depth producer t else pure (t.load v)
        | none => pure (t.load v)
      return (t, args ++ [i])) (t, [])
    t.apply n args

end Tree

/-- The last of the operations that reads a variable. -/
def reader? (live : List Node) (v : VarId) : Option Node :=
  (live.filter fun n => n.inputs.contains v).getLast?

/-- An operation that every device with fused kernels runs. -/
def candidate : Op := .fused ⟨[.load 0], 1⟩

/-- Whether a variable is computed inside the expression of its reader. -/
def absorbs (c : Context) (p : Program) (live : List Node) (v : VarId) : Except Error Bool :=
  match p.graph.producer? v, reader? live v with
  | some producer, some reader =>
    if producer.op.isFusable && reader.op.isFusable
        && (live.flatMap Node.inputs).count v == 1 && !p.isRoot v
        && producer.place == reader.place then do
      let kind := (← p.graph.ty v).kind
      if (← p.graph.ty reader.output).kind ≠ kind then return false
      return ((← c.table (producer.place.getD .host)).supports candidate [kind]).isOk
    else .ok false
  | _, _ => .ok false

/-- The variables that are computed inside the expression of their reader. -/
def absorbed (c : Context) (p : Program) : Except Error (List VarId) :=
  let live := p.liveNodes
  (List.range p.graph.vars.size).filterM (absorbs c p live)

/-- The new form of one operation. -/
def step (p : Program) (absorbed : List VarId) (n : Node) : Rebuilding Unit := do
  if absorbed.contains n.output then return
  if n.op.isFusable && n.inputs.any fun v => absorbed.contains v then
    let (t, _) ← Tree.expand p.graph absorbed (n.id + 1) n {}
    let inputs ← Rebuild.readAll p t.inputs
    Rebuild.bind n.output (← Rebuild.emit (.fused ⟨t.steps, t.inputs.length⟩) inputs n.place none)
  else Rebuild.copy p n

/-- The program with trees of elementwise operations fused. -/
def run (c : Context) (p : Program) : Except Error Program := do
  p.rebuild (step p (← absorbed c p))

end TensorGraph.Fusion
