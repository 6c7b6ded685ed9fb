import TensorGraph.Proofs.Pass.Arising
import TensorGraph.Proofs.Program.Accepted
import TensorGraph.Proofs.Program.Evaluate
import TensorGraph.Proofs.World.Contexts

/-! Passes keep what a program means: the tensors that it gives and the new values of its updates, computed on the host
with any kernel options, and that it fails where extents do not agree. -/
namespace TensorGraph

open Checked

namespace Program

/-- The persistent values of a program have the kinds and ranks of their leaves. -/
def Stored (p : Program) (cells : Array Tensor) : Prop :=
  ∀ v c, p.cellOf v = some c → c.Typed cells

theorem stored_of_no_cells {p : Program} (none : p.graph.vars.all (·.cell?.isNone)) (cells : Array Tensor) :
    p.Stored cells := by
  intro v c isCell
  obtain ⟨x, atV, origin⟩ := Option.bind_eq_some_iff.mp isCell
  have here := Array.all_eq_true_iff_forall_mem.mp none x (Array.mem_of_getElem? atV)
  rw [origin] at here
  cases here

variable [BlockRoutine]

/-- Two programs give the same results, down to the bits, for all arguments and persistent values with these kernel
options, and extents that do not agree break off either both or neither. A crash takes sizes of the first program that
overflow. -/
def SameResults (p q : Program) (math : MathMode) : Prop :=
  ∀ ts cells, p.Takes ts → p.Stored cells →
    match p.results math ts cells, q.results math ts cells with
    | .ok results, .ok results' => results = results'
    | .error e, .error e' => p.BreaksOff math ts cells e ∧ p.BreaksOff math ts cells e'
    | _, _ => False

/-- Two programs give the same results with all kernel options. -/
def SameMeaning (p q : Program) : Prop := ∀ math, p.SameResults q math

theorem SameResults.of_ok {p q : Program} {math : MathMode} (same : p.SameResults q math) {ts : List Tensor}
    {cells : Array Tensor} (takes : p.Takes ts) (stored : p.Stored cells) {results : List Tensor × List Tensor}
    (given : p.results math ts cells = .ok results) : q.results math ts cells = .ok results := by
  have both := same ts cells takes stored
  rw [given] at both
  cases given' : q.results math ts cells with
  | ok results' =>
    rw [given'] at both
    rw [both]
  | error e =>
    rw [given'] at both
    exact both.elim

theorem SameMeaning.of_ok {p q : Program} (same : p.SameMeaning q) {math : MathMode} {ts : List Tensor}
    {cells : Array Tensor} (takes : p.Takes ts) (stored : p.Stored cells) {results : List Tensor × List Tensor}
    (given : p.results math ts cells = .ok results) : q.results math ts cells = .ok results :=
  SameResults.of_ok (same math) takes stored given

/-- A program whose values are those of another one gives the same results. -/
theorem sameResults_of_values {p q : Program} {d d' : Discipline} (valid : p.Valid d) (valid' : q.Valid d')
    (same : p.SameInterface q) (typed : ∀ cells, p.Stored cells → ∀ c, d.cell c ∨ d'.cell c → c.Typed cells)
    {math : MathMode} (values : ∀ ts cells, p.Takes ts → p.Stored cells → p.SameValues q math ts cells)
    (calm : ∀ ts cells, p.Takes ts → p.Stored cells → p.Calm math ts cells → q.Calm math ts cells) :
    p.SameResults q math := by
  intro ts cells takes stored
  have first := results_spec valid takes (fun c held => typed cells stored c (.inl held)) math
  have second := results_spec valid' (same.takes takes) (fun c held => typed cells stored c (.inr held)) math
  have roots := values ts cells takes stored
  unfold SameValues at roots
  cases ran : p.results math ts cells with
  | ok results =>
    rw [ran] at first
    cases ran' : q.results math ts cells with
    | ok results' =>
      rw [ran'] at second
      have whole : results.1 ++ results.2 = results'.1 ++ results'.2 :=
        List.map_injective_iff.mpr (fun _ _ => Option.some.inj) ((first.1.symm.trans roots).trans second.1)
      obtain ⟨outputs, new⟩ := List.append_inj whole ((first.2.trans same.outputs).trans second.2.symm)
      exact Prod.ext outputs new
    | error e =>
      rw [ran'] at second
      obtain ⟨-, v, root, without⟩ := second
      have none : none ∈ q.roots.map (q.value math ts cells) := List.mem_map.mpr ⟨v, root, without⟩
      rw [← roots, first.1] at none
      simp at none
  | error e =>
    rw [ran] at first
    obtain ⟨breaks, v, root, without⟩ := first
    cases ran' : q.results math ts cells with
    | ok results' =>
      rw [ran'] at second
      have none : none ∈ p.roots.map (p.value math ts cells) := List.mem_map.mpr ⟨v, root, without⟩
      rw [roots, second.1] at none
      simp at none
    | error e' =>
      rw [ran'] at second
      exact ⟨breaks, second.1.mono (calm ts cells takes stored)⟩

/-- A program whose values are always those of another one means the same. -/
theorem sameMeaning_of_values {p q : Program} {d d' : Discipline} (valid : p.Valid d) (valid' : q.Valid d')
    (same : p.SameInterface q) (typed : ∀ cells, p.Stored cells → ∀ c, d.cell c ∨ d'.cell c → c.Typed cells)
    (values : ∀ math ts cells, p.Takes ts → p.Stored cells → p.SameValues q math ts cells)
    (calm : ∀ math ts cells, p.Takes ts → p.Stored cells → p.Calm math ts cells → q.Calm math ts cells) :
    p.SameMeaning q := fun math => sameResults_of_values valid valid' same typed (values math) (calm math)

end Program

/-- Any operation may stand anywhere, and leaves may stand for these persistent values. -/
def Discipline.storing (stores : Cell → Prop) : Discipline where
  op _ _ _ _ := True
  leaf _ := True
  cell := stores
  typed := True

/-- The persistent values that a program has leaves for. -/
def Program.Stores (p : Program) (c : Cell) : Prop := ∃ v, p.cellOf v = some c

theorem Program.Valid.storing {p : Program} {d : Discipline} (valid : p.Valid d) (typed : d.typed) :
    p.Valid (.storing p.Stores) where
  graph :=
    { node := fun at_ => by
        obtain ⟨id, output, reads, tys, ty, x, types, inferred, atOutput, placed, -⟩ := valid.graph.node at_
        exact ⟨id, output, reads, tys, ty, x, types, inferred, atOutput, placed, trivial⟩
      produced := valid.graph.produced
      ordered := valid.graph.ordered
      leaf := fun {v x} atV => by
        have fits := valid.graph.leaf atV
        unfold Var.Fits at fits ⊢
        cases origin : x.origin with
        | input => trivial
        | constant t =>
          rw [origin] at fits
          exact ⟨trivial, fits.2⟩
        | shared c =>
          rw [origin] at fits
          exact ⟨trivial, ⟨v, by rw [cellOf, atV, Option.bind_some, Var.cell?, origin]⟩, fits.2.2⟩
        | output i => trivial }
  inputs := valid.inputs
  distinct := valid.distinct
  outputs := valid.outputs
  updates u member := by
    obtain ⟨x, y, c, atTarget, atValue, origin, alike⟩ := valid.updates u member
    exact ⟨x, y, c, atTarget, atValue, origin, fun _ => alike typed⟩
  bound := valid.bound

/-- Stored values have the types of all persistent values that the program has leaves for. -/
theorem Program.Stored.typed {p : Program} {cells : Array Tensor} (stored : p.Stored cells) :
    ∀ c, p.Stores c → c.Typed cells := by
  rintro c ⟨v, atV⟩
  exact stored v c atV

namespace Fusion

variable {c : Context} {p : Program}

theorem fuses_storing (stores : Cell → Prop) : Fuses (.storing stores) (.storing stores) where
  leaf _ := id
  asked := id
  copied _ _ _ := trivial
  fused _ _ _ _ := trivial

/-- Every operation stands where the context has a table, or nowhere yet. -/
theorem tabled_of_reaches (context : c.Built) (near : ∀ n ∈ p.liveNodes, ∀ l, n.place = some l → c.Reaches l) :
    p.Tabled c False := fun n live l place => .inl (context.table_of_known (near n live l place))

/-- Fusion succeeds, and the program with fused expressions takes and gives values of the same types and means the
same, if no expression that is there already ends in a load. -/
theorem keeps_meaning [BlockRoutine] (arises : p.graph.Arises) (accepted : p.validate = .ok ()) (context : c.Built)
    (near : ∀ n ∈ p.liveNodes, ∀ l, n.place = some l → c.Reaches l)
    (computed : ∀ n ∈ p.liveNodes, ¬ n.op.endsInLoad) :
    ∃ q, run c p = .ok q ∧ p.SameTypes q ∧ p.SameMeaning q := by
  have valid := (Program.valid_of_arises arises accepted).storing trivial
  have tabled := tabled_of_reaches context near
  obtain ⟨q, ran⟩ := exists_run (fuses_storing p.Stores) valid tabled
  have rebuilt (math : MathMode) (ts : List Tensor) (cells : Array Tensor) : p.Rebuilt q (.storing p.Stores)
      (p.stage math ts cells (p.Takes ts ∧ p.Stored cells) True True True) :=
    rebuilt_of_run (fuses_storing p.Stores) valid tabled ran fun supplied =>
      ⟨computed, valid.binds supplied.1 supplied.2.typed⟩
  have any := rebuilt {} [] #[]
  refine ⟨q, ran, any.types trivial, Program.sameMeaning_of_values valid any.valid any.interface ?_ ?_ ?_⟩
  · rintro cells stored c (held | held) <;> exact stored.typed c held
  · exact fun math ts cells takes stored => (rebuilt math ts cells).sameValues ⟨takes, stored⟩
  · exact fun math ts cells takes stored => (rebuilt math ts cells).calm_eq ⟨takes, stored⟩

/-- A vector whose sign is changed, and a fused expression that adds a scalar to its magnitude. -/
def shiftedMagnitude : Program :=
  let vector := ((Graph.empty .f32).input { kind := .i32, rank := 1 } none).1
  let leaves := (vector.input { kind := .i32, rank := 0 } none).1
  let negated := (leaves.apply (.unary .neg) [0]).1
  ⟨(negated.apply (.fused ⟨[.load 0, .unary .abs 0, .load 1, .binary .add 1 2], 2⟩) [2, 1]).1, [0, 1], [3], []⟩

theorem built_shiftedMagnitude : shiftedMagnitude.graph.Built :=
  .apply (.apply (.input (.input (.empty _) _ _) _ _) _ _) _ _

section

open scoped BlockRoutine

theorem keeps_meaning_shiftedMagnitude : ∃ q results, run (.first (.sim 0)) shiftedMagnitude = .ok q ∧
    q.nodeCount = 1 ∧ shiftedMagnitude.SameMeaning q ∧
    shiftedMagnitude.results {} [.vector ⟨.i32, #[1, -2]⟩, .scalar (5 : Elem .i32)] #[] = .ok results ∧
    q.results {} [.vector ⟨.i32, #[1, -2]⟩, .scalar (5 : Elem .i32)] #[] = .ok results := by
  have unplaced : ∀ n ∈ shiftedMagnitude.liveNodes, n.place = none := by decide +kernel
  obtain ⟨q, ran, -, same⟩ := keeps_meaning built_shiftedMagnitude.arises (by decide +kernel)
    Context.built_first (fun n live l place => by cases (unplaced n live).symm.trans place)
    (by decide +kernel)
  have count : (run (.first (.sim 0)) shiftedMagnitude).toOption.map Program.nodeCount = some 1 := by
    decide +kernel
  rw [ran] at count
  obtain ⟨results, given⟩ := exists_of_isOk
    (r := shiftedMagnitude.results {} [.vector ⟨.i32, #[1, -2]⟩, .scalar (5 : Elem .i32)] #[]) (by decide +kernel)
  have takes : shiftedMagnitude.Takes [.vector ⟨.i32, #[1, -2]⟩, .scalar (5 : Elem .i32)] := rfl
  exact ⟨q, results, ran, Option.some.inj count, same, given,
    same.of_ok takes (Program.stored_of_no_cells (by decide +kernel) _) given⟩

/-- The program breaks off at its first sum. That is absorbed, so the fused program comes to the other one first, and
no memory has room for it. -/
theorem fused_crashes_lateNegation : Program.lateNegation.graph.Built ∧
    Program.lateNegation.validate = .ok () ∧ ∃ q e, run (.first (.sim 0)) .lateNegation = .ok q ∧
    Program.lateNegation.results {} Program.disagreeing #[] = .error e ∧ e.IsShape ∧
    q.results {} Program.disagreeing #[] = .error .crash := by
  obtain ⟨q, ran⟩ := exists_of_isOk (r := run (.first (.sim 0)) .lateNegation) (by decide +kernel)
  have crashes : ((run (.first (.sim 0)) .lateNegation).toOption.bind fun q =>
      failure? (q.results {} Program.disagreeing #[])) = some .crash := by decide +kernel
  rw [ran] at crashes
  exact ⟨Program.built_lateNegation, by decide +kernel, q, .shape "add" "cannot broadcast [2] with [3]", ran, eq_error_of_failure (by decide +kernel), ⟨_, _, rfl⟩,
    eq_error_of_failure crashes⟩

end

/-- What fusion puts in the place of an operation has a step that computes, on the values of what it loads, what the
operation gives for what it absorbs. This is the last step, so that the expression is faithful, unless the operation is
an expression that ends in a load. -/
theorem expansion_computes [BlockRoutine] (arises : p.graph.Arises) (accepted : p.validate = .ok ()) (context : c.Built)
    (near : ∀ n ∈ p.liveNodes, ∀ l, n.place = some l → c.Reaches l) :
    ∃ vs, absorbed c p = .ok vs ∧ ∀ n ∈ p.liveNodes, n.op.isFusable →
      ∃ t i, Tree.expand p.graph vs (n.id + 1) n {} = .ok (t, i) ∧ i < t.steps.length ∧
        (∀ math ts cells, p.Takes ts → p.Stored cells → p.value math ts cells n.output =
          (t.inputs.mapM (p.value math ts cells)).bind fun us => ((Op.fused (t.upTo i)).eval math us).toOption) ∧
        (¬ n.op.endsInLoad → t.upTo i = ⟨t.steps, t.inputs.length⟩) := by
  have valid := (Program.valid_of_arises arises accepted).storing trivial
  have spec := absorbed_spec valid (tabled_of_reaches context near)
  cases found : absorbed c p with
  | error e =>
    rw [found] at spec
    exact spec.elim
  | ok vs =>
    rw [found] at spec
    have absorbing := absorbing_of_absorbed spec
    refine ⟨vs, rfl, fun n live fusable => ?_⟩
    have at_ := valid.graph.live_mem live
    obtain ⟨tys, ty, x, known⟩ := valid.operation live
    have typed : Typed p.graph n.output ty.kind ty.rank := ⟨x, known.atOutput, known.alike.1, known.alike.2⟩
    obtain ⟨t, i, expanded, last, adds⟩ := Tree.expand_spec {} (fun _ => (Scalar.zero : Elem ty.kind)) valid.graph
      absorbing at_ fusable (Nat.lt_succ_self _) typed {}
    refine ⟨t, i, expanded, adds.inRange, fun math ts cells takes stored => ?_, fun computed => Tree.upTo_last (last computed)⟩
    exact fused_value valid.graph absorbing (valid.binds takes stored.typed) at_ fusable typed expanded math

/-- A fused expression that gives its second operand, after it has computed the magnitude of its first one. -/
def secondOperand : Program :=
  let vector := ((Graph.empty .f32).input { kind := .i32, rank := 1 } none).1
  let vectors := (vector.input { kind := .i32, rank := 1 } none).1
  let negated := (vectors.apply (.unary .neg) [0]).1
  ⟨(negated.apply (.fused ⟨[.load 0, .unary .abs 0, .load 1], 2⟩) [2, 1]).1, [0, 1], [3], []⟩

theorem built_secondOperand : secondOperand.graph.Built :=
  .apply (.apply (.input (.input (.empty _) _ _) _ _) _ _) _ _

/-- The operation that gives the second operand. -/
def selection : Node := ⟨1, .fused ⟨[.load 0, .unary .abs 0, .load 1], 2⟩, [2, 1], 3, none, none⟩

section

open scoped BlockRoutine

/-- With the first operand absorbed, the second one is loaded by the third of four steps. -/
theorem expansion_computes_secondOperand : ∃ t i,
    Tree.expand secondOperand.graph [2] (selection.id + 1) selection {} = .ok (t, i) ∧ (t.steps.length, i) = (4, 2) ∧
      ∀ math ts, secondOperand.Takes ts → secondOperand.value math ts #[] selection.output =
        (t.inputs.mapM (secondOperand.value math ts #[])).bind fun us =>
          ((Op.fused (t.upTo i)).eval math us).toOption := by
  have unplaced : ∀ n ∈ secondOperand.liveNodes, n.place = none := by decide +kernel
  obtain ⟨vs, found, each⟩ := expansion_computes built_secondOperand.arises (by decide +kernel)
    Context.built_first (fun n live l place => by cases (unplaced n live).symm.trans place)
  have alone : (absorbed (.first (.sim 0)) secondOperand).toOption = some [2] := by decide +kernel
  rw [found] at alone
  obtain rfl : vs = [2] := Option.some.inj alone
  obtain ⟨t, i, expanded, -, computes, -⟩ := each selection (by decide +kernel) rfl
  have sizes : (Tree.expand secondOperand.graph [2] (selection.id + 1) selection {}).toOption.map
      (fun r => (r.1.steps.length, r.2)) = some (4, 2) := by decide +kernel
  rw [expanded] at sizes
  exact ⟨t, i, expanded, Option.some.inj sizes,
    fun math ts takes => computes math ts #[] takes (Program.stored_of_no_cells (by decide +kernel) _)⟩

/-- Fusion takes the last step instead, and the result is the magnitude of the first operand. -/
theorem expansion_misses_last_load : ∃ q, run (.first (.sim 0)) secondOperand = .ok q ∧
    (secondOperand.results {} [.vector ⟨.i32, #[3, -5]⟩, .vector ⟨.i32, #[10, 20]⟩] #[]).toOption.map
      (fun r => r.1.map (·.elem? .i32 0)) = some [some 10] ∧
    (q.results {} [.vector ⟨.i32, #[3, -5]⟩, .vector ⟨.i32, #[10, 20]⟩] #[]).toOption.map
      (fun r => r.1.map (·.elem? .i32 0)) = some [some 3] := by
  obtain ⟨q, ran⟩ := exists_of_isOk (r := run (.first (.sim 0)) secondOperand) (by decide +kernel)
  have fused : ((run (.first (.sim 0)) secondOperand).toOption.bind fun q =>
      (q.results {} [.vector ⟨.i32, #[3, -5]⟩, .vector ⟨.i32, #[10, 20]⟩] #[]).toOption.map
        fun r => r.1.map (·.elem? .i32 0)) = some [some 3] := by decide +kernel
  rw [ran] at fused
  exact ⟨q, ran, by decide +kernel, fused⟩

end

end Fusion

end TensorGraph
