import TensorGraph.Proofs.Executable.Launch
import TensorGraph.Proofs.Executable.Schedule

/-! What a call is about: the value that every variable of the compiled program has in it. A command computes the
value of its output from those of its operands, or the extents of the operands do not agree or are too large. -/
namespace TensorGraph

open Checked

/-- The kernel options at a place of a context. -/
def Context.mathAt (c : Context) : Place → MathMode
  | some l => (c.mathMode l).toOption.getD {}
  | none => {}

theorem Context.mathAt_of_device {c : Context} {l : Location} {d : Device} (found : c.device l = .ok d) :
    c.mathAt (some l) = d.mathMode c.config.math := by
  simp only [mathAt, mathMode, found, ok_bind, pure_eq]
  rfl

/-- One call: a schedule, the context that it runs in, the arguments, and the machine that it starts on. -/
structure Course where
  schedule : Schedule
  context : Context
  args : List Tensor
  start : Machine

namespace Course

variable [BlockRoutine]

/-- The value of a variable of the compiled program in the call. -/
def value (r : Course) (v : VarId) : Option Tensor :=
  r.schedule.program.graph.value r.context.mathAt (r.schedule.program.bind r.args r.start.cells) v

/-- The call is of a schedule that is laid out, for kernels that compute what they should if anything, on
arguments and persistent values of the right types. -/
structure Fits (r : Course) (scope : Scope) (l : Layout) : Prop where
  laid : r.schedule.LaidOut r.context scope l
  honest : r.context.kernels.Honest
  typed : scope.typed
  takes : r.schedule.program.Takes r.args
  cells : ∀ c, scope.cell c → c.Typed r.start.cells

/-- The variable is placed on a device of the context. -/
def Placed (r : Course) (v : VarId) (d : Device) : Prop :=
  r.context.Owns d ∧ ∃ y, r.schedule.program.graph.vars[v]? = some y ∧ y.ty.place = some d.location

/-- The buffer in the slot of a variable carries its value, on the device where the variable is placed. -/
structure Shows (r : Course) (a : Activation) (x : Site) (b : Buffer) : Prop where
  at_ : a.frame.buffer? x.slot = some b
  carries : ∃ t d, r.value x.var = some t ∧ r.Placed x.var d ∧ a.machine.Carries b d t

variable {r : Course} {scope : Scope} {l : Layout} {v : VarId} {d e : Device}

omit [BlockRoutine] in
theorem Placed.unique (placed : r.Placed v d) (placed' : r.Placed v e) : d = e := by
  obtain ⟨owns, y, atV, place⟩ := placed
  obtain ⟨owns', y', atV', place'⟩ := placed'
  obtain rfl : y = y' := Option.some.inj (atV.symm.trans atV')
  exact owns.eq_of_location owns' (Option.some.inj (place.symm.trans place'))

theorem Shows.of_sees {a a' : Activation} {x : Site} {b : Buffer} (shows_ : r.Shows a x b)
    (at_ : a'.frame.buffer? x.slot = some b)
    (sees : ∀ k, Buffer.isIn k (some b) → a'.machine.sees k = a.machine.sees k) : r.Shows a' x b := by
  obtain ⟨t, d, value, placed, carries⟩ := shows_.carries
  exact ⟨at_, t, d, value, placed, carries.of_sees sees⟩

namespace Fits

theorem binds (fits : r.Fits scope l) :
    r.schedule.program.graph.Binds (r.schedule.program.bind r.args r.start.cells) :=
  fits.laid.valid.binds fits.takes fits.cells

/-- Leaves are on the host. -/
theorem leaf_placed (fits : r.Fits scope l) {x : Site} (leaf : x ∈ r.schedule.leafSites) :
    r.Placed x.var .host := by
  obtain ⟨y, atV, isLeaf, -⟩ := fits.laid.mem_leafSites.mp leaf
  have fit := fits.laid.valid.graph.leaf atV
  refine ⟨.inl rfl, y, atV, ?_⟩
  unfold Var.Fits at fit
  cases origin : y.origin with
  | output i => simp [Var.isLeaf, origin] at isLeaf
  | input =>
    rw [origin] at fit
    exact fit
  | constant t =>
    rw [origin] at fit
    exact fit.1
  | shared c =>
    rw [origin] at fit
    exact fit.1

section Command

variable {cmd : Command}

theorem output_placed (fits : r.Fits scope l) (member : cmd ∈ r.schedule.commands)
    (device : r.context.device cmd.location = .ok d) : r.Placed cmd.output.var d := by
  obtain ⟨n, live, does⟩ := fits.laid.node member
  obtain ⟨tys, ty, y, known⟩ := fits.laid.valid.operation live
  obtain ⟨owns, location⟩ := Context.device_eq_ok device
  refine ⟨owns, y, ?_, ?_⟩
  · rw [does.output.1]
    exact known.atOutput
  · rw [known.placed, location]
    exact does.place

/-- What computes runs where its operands are. -/
theorem operand_placed (fits : r.Fits scope l) (member : cmd ∈ r.schedule.commands)
    (computes : ¬ cmd.op.isTransfer) (device : r.context.device cmd.location = .ok d) {x : Site}
    (reads : x ∈ cmd.inputs) : r.Placed x.var d := by
  obtain ⟨n, live, does⟩ := fits.laid.node member
  obtain ⟨tys, ty, y, known⟩ := fits.laid.valid.operation live
  obtain ⟨owns, location⟩ := Context.device_eq_ok device
  obtain ⟨v, inInputs, same, -⟩ := partner_of does.inputs reads
  obtain ⟨t, inTys, z, atV, typed⟩ := partner known.types inInputs
  obtain ⟨⟨-, loc, place, -, -, allowed⟩, -⟩ := known.rule
  refine ⟨owns, z, ?_, ?_⟩
  · rw [same]
    exact atV
  · rw [typed, (allowed (does.op ▸ computes) t inTys).1, location, ← place]
    exact does.place

/-- The operands of an operation have the types that inference went by. -/
theorem typed_operands (fits : r.Fits scope l) {n : Node} (live : n ∈ r.schedule.program.liveNodes)
    (does : cmd.Does r.context r.schedule.program.graph l n) {ts : List Tensor}
    (operands : List.Forall₂ (fun (x : Site) t => r.value x.var = some t) cmd.inputs ts) :
    ∃ tys ty y, r.schedule.program.Operation (.marked r.context.target scope) n tys ty y ∧
      n.inputs.mapM r.value = some ts ∧ List.Forall₂ Tensor.HasType ts tys := by
  obtain ⟨tys, ty, y, known⟩ := fits.laid.valid.operation live
  have values : n.inputs.mapM r.value = some ts := by
    rw [mapM_eq_some]
    refine forall₂_through does.inputs operands fun v x t at_ found => ?_
    rw [← at_.1]
    exact found
  exact ⟨tys, ty, y, known, values, known.types.hasType (fun u _ z t atU found =>
    fits.laid.valid.graph.value_hasType fits.binds atU found) values⟩

/-- A command computes the value of its output, unless the extents of its operands do not agree or are too large. -/
theorem command_value (fits : r.Fits scope l) (member : cmd ∈ r.schedule.commands) {ts : List Tensor}
    (operands : List.Forall₂ (fun (x : Site) t => r.value x.var = some t) cmd.inputs ts) :
    (∃ t, cmd.op.resultShape (ts.map Tensor.shape) = .ok t.shape ∧ cmd.op.eval cmd.math ts = .ok t ∧
        r.value cmd.output.var = some t ∧ cmd.kind = t.kind) ∨
      ∃ e, cmd.op.resultShape (ts.map Tensor.shape) = .error e ∧ e.OfExtents ∧
        r.value cmd.output.var = none := by
  obtain ⟨n, live, does⟩ := fits.laid.node member
  obtain ⟨tys, ty, y, known, values, typed⟩ := fits.typed_operands live does operands
  obtain ⟨d, device, math⟩ := does.device
  have options : r.context.mathAt n.place = cmd.math := by
    rw [does.place, Context.mathAt_of_device device, math]
  have value : r.value cmd.output.var = (n.op.eval cmd.math ts).toOption := by
    have output : r.schedule.program.graph.value r.context.mathAt (r.schedule.program.bind r.args r.start.cells)
        n.output = _ := fits.laid.valid.graph.value_output (fits.laid.valid.graph.live_mem live)
    rw [show n.inputs.mapM (r.schedule.program.graph.value r.context.mathAt _) = some ts from values,
      options] at output
    rw [does.output.1]
    exact output
  obtain ⟨z, atOutput, kind⟩ := does.kind
  obtain rfl : y = z := Option.some.inj (known.atOutput.symm.trans atOutput)
  rw [does.op, value]
  rcases Op.eval_typed known.inferred typed cmd.math with ⟨t, shape, ran, has⟩ | ⟨e, shape, ran, ofExtents⟩
  · refine .inl ⟨t, shape, ran, by rw [ran]; rfl, ?_⟩
    rw [kind, known.placed]
    exact has.1.symm
  · exact .inr ⟨e, shape, ofExtents, by rw [ran]; rfl⟩

/-- When a command has no value, neither has one of the results of the call. -/
theorem root_without (fits : r.Fits scope l) (member : cmd ∈ r.schedule.commands)
    (without : r.value cmd.output.var = none) : ∃ v ∈ r.schedule.program.roots, r.value v = none := by
  obtain ⟨n, live, does⟩ := fits.laid.node member
  rw [does.output.1] at without
  exact fits.laid.valid.graph.root_without live without

/-- A command that overwrites an operand overwrites one of the shape of its result. -/
theorem overwritten_shape (fits : r.Fits scope l) (member : cmd ∈ r.schedule.commands) {ts : List Tensor}
    (operands : List.Forall₂ (fun (x : Site) t => r.value x.var = some t) cmd.inputs ts) {t u : Tensor}
    (shape : cmd.op.resultShape (ts.map Tensor.shape) = .ok t.shape) (value : r.value cmd.output.var = some t)
    {i : Nat} (marked : cmd.inPlace = some i) (atI : ts[i]? = some u) :
    cmd.op.isFusable ∧ u.shape = t.shape := by
  obtain ⟨n, live, does⟩ := fits.laid.node member
  obtain ⟨tys, ty, y, known, values, typed⟩ := fits.typed_operands live does operands
  obtain ⟨-, fusable, t', atTy, alike⟩ := known.rule.2 i (does.inPlace ▸ marked)
  have fusable := fusable fits.typed
  obtain ⟨ty', atTy', has⟩ := forall₂_getElem? typed atI
  obtain rfl : t' = ty' := Option.some.inj (atTy.symm.trans atTy')
  rw [does.output.1] at value
  have result := fits.laid.valid.graph.value_hasType fits.binds known.atOutput value
  rw [does.op] at shape ⊢
  refine ⟨fusable, Op.shape_of_overwritten fusable (Op.resultShape_eq_ok.mp shape).1 (List.mem_map_of_mem (List.mem_of_getElem? atI)) ?_⟩
  calc u.shape.length = t'.rank := has.2
    _ = ty.rank := (alike ty known.inferred).2
    _ = y.ty.rank := by rw [known.placed]; rfl
    _ = t.shape.length := result.2.symm

end Command

end Fits

end Course

end TensorGraph
