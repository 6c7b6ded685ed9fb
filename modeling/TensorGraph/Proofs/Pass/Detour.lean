import TensorGraph.Pass.Transfers
import TensorGraph.Proofs.Pass.Keeping

/-! What can be used instead of a transfer: a value that is there already, or another layout of one, done there. If
nothing is found, the transfer cannot be avoided. A step of the removal looks for it and otherwise keeps the transfer;
other operations are copied. -/
namespace TensorGraph

open Checked Rebuilding

theorem Op.computes_layout {op : Op} (layout : op.isLayout) : ¬ op.isTransfer := by
  cases op <;> first | exact Bool.false_ne_true | exact absurd layout Bool.false_ne_true

namespace Graph

/-- A transfer of `x` to `dest` cannot be avoided. The value is not there, it was not brought from there, and if it is
another layout of a value that was, then the layout cannot be changed there. -/
structure Unavoidable (g : Graph) (c : Context) (x : VarId) (dest : Location) : Prop where
  away : g.placeOf x ≠ some dest
  back : ∀ {m : Node} {u : VarId}, g.producer? x = some m → m.op.isTransfer → m.inputs = [u] → g.placeOf u ≠ some dest
  turned : ∀ {m : Node} {y : VarId}, g.producer? x = some m → m.op.isLayout → m.inputs = [y] →
    ∀ {k : Node} {w : VarId}, g.producer? y = some k → k.op.isTransfer → k.inputs = [w] → g.placeOf w = some dest →
      ∃ t z, c.table dest = .ok t ∧ g.vars[w]? = some z ∧ ¬ (t.supports m.op [z.ty.kind]).isOk

/-- A transfer brings `w` to `x`. -/
def Brings (g : Graph) (w x : VarId) : Prop :=
  ∃ m, g.producer? x = some m ∧ m.op.isTransfer ∧ m.inputs.head? = some w

/-- `x` is another layout of what a transfer brings `w` to. -/
def Turns (g : Graph) (op : Op) (w x : VarId) : Prop :=
  ∃ m y, g.producer? x = some m ∧ m.op = op ∧ op.isLayout ∧ m.inputs.head? = some y ∧ g.Brings w y

theorem Turns.layout {g : Graph} {op : Op} {w x : VarId} (turns : g.Turns op w x) : op.isLayout := by
  obtain ⟨-, -, -, -, layout, -⟩ := turns
  exact layout

end Graph

namespace Transfers

/-- Why looking for a way around a transfer fails: an operand is missing, or it is not known whether its layout can be
changed at `dest`, or it is not accepted. -/
inductive Fails (c : Context) (g : Graph) (x : VarId) (dest : Location) : Prop where
  | unknown (missing : g.vars[x]? = none)
  | unread {v : VarId} {m : Node} (produced : g.producer? v = some m)
      (reads : m.op.isTransfer ∨ v = x ∧ m.op.isLayout) (missing : ∀ u, m.inputs.head? = some u → g.vars[u]? = none)
  | untabled {op : Op} {w : VarId} {e : Error} (turns : g.Turns op w x) (there : g.placeOf w = some dest)
      (missing : c.table dest = .error e)
  | refused {op : Op} {w : VarId} {z : Var} {t : Table} {e : Error} (turns : g.Turns op w x)
      (there : g.placeOf w = some dest) (atW : g.vars[w]? = some z) (tabled : c.table dest = .ok t)
      (runs : (t.supports op [z.ty.kind]).isOk) (refused : op.infer [z.ty] = .error e)

/-- What can come of looking for a way around a transfer of `x` to `dest`. -/
inductive Outcome (c : Context) (r : Rebuild) (x : VarId) (dest : Location) : Option VarId → Rebuild → Prop where
  | here (here : r.graph.placeOf x = some dest) : Outcome c r x dest (some x) r
  | back {w : VarId} (brings : r.graph.Brings w x) (there : r.graph.placeOf w = some dest) : Outcome c r x dest (some w) r
  | turned {op : Op} {w : VarId} {z : Var} {ty : Ty} {t : Table} (turns : r.graph.Turns op w x)
      (there : r.graph.placeOf w = some dest) (atW : r.graph.vars[w]? = some z) (inferred : op.infer [z.ty] = .ok ty)
      (tabled : c.table dest = .ok t) (runs : (t.supports op [z.ty.kind]).isOk) :
      Outcome c r x dest (some r.graph.vars.size) { r with graph := r.graph.grown op [w] ty (some dest) none }
  | stuck (stuck : r.graph.Unavoidable c x dest) : Outcome c r x dest none r

variable {c : Context} {r : Rebuild} {x : VarId} {dest : Location}

/-- A value that came from `dest` is there already. -/
theorem back_outcome {m : Node} (away : r.graph.placeOf x ≠ some dest) (produced : r.graph.producer? x = some m)
    (moves : m.op.isTransfer) {y : VarId} (reads : m.inputs.head? = some y) :
    (do return if (← Rebuild.place y) = some dest then some y else none : Rebuilding (Option VarId)).Meets r
      (fun _ => Fails c r.graph x dest) (Outcome c r x dest) := by
  have same : ∀ {n : Node}, r.graph.producer? x = some n → m = n := fun atX =>
    Option.some.inj (produced.symm.trans atX)
  rw [meets_bind]
  have missing : r.graph.vars[y]? = none → Fails c r.graph x dest := fun missing =>
    .unread produced (.inl moves) fun u reads' => Option.some.inj (reads.symm.trans reads') ▸ missing
  refine (Rebuild.place_spec y fun none _ => missing none).mono ?_
  rintro _ r₁ ⟨rfl, rfl, -⟩
  by_cases there : r₁.graph.placeOf y = some dest
  · rw [if_pos there]
    exact .back ⟨m, produced, moves, reads⟩ there
  rw [if_neg there]
  refine .stuck ⟨away, fun atX _ single => ?_, fun atX layout => ?_⟩
  · rw [same atX, single] at reads
    exact Option.some.inj reads ▸ there
  · exact absurd moves (same atX ▸ Op.computes_layout layout)

/-- A layout may be changed at `dest`, if its operand came from there and the table allows it. -/
theorem turned_outcome {op : Op} {w : VarId} (turns : r.graph.Turns op w x)
    (missing : r.graph.vars[w]? = none → Fails c r.graph x dest)
    (stuck : (r.graph.placeOf w = some dest →
      ∃ t z, c.table dest = .ok t ∧ r.graph.vars[w]? = some z ∧ ¬ (t.supports op [z.ty.kind]).isOk) →
        r.graph.Unavoidable c x dest) :
    (do
      if (← Rebuild.place w) ≠ some dest then return none
      let kind := (← r.graph.ty w).kind
      if ((← c.table dest).supports op [kind]).isOk then
        return some (← Rebuild.emit op [w] (some dest) none)
      return none : Rebuilding (Option VarId)).Meets r (fun _ => Fails c r.graph x dest) (Outcome c r x dest) := by
  rw [meets_bind]
  refine (Rebuild.place_spec w fun none _ => missing none).mono ?_
  rintro _ r₁ ⟨rfl, rfl, z, atW⟩
  by_cases there : r₁.graph.placeOf w = some dest
  swap
  · rw [if_pos there]
    exact .stuck (stuck fun here => absurd here there)
  rw [if_neg (not_not.mpr there), meets_bind, Graph.ty_eq_ok.mpr ⟨z, atW, rfl⟩, meets_lift]
  simp only
  rw [meets_bind, meets_lift]
  cases tabled : c.table dest with
  | error e => exact .untabled turns there tabled
  | ok t =>
    simp only
    by_cases runs : (t.supports op [z.ty.kind]).isOk
    swap
    · rw [if_neg runs]
      exact .stuck (stuck fun _ => ⟨t, z, tabled, atW, runs⟩)
    rw [if_pos runs, meets_bind]
    have types : r₁.graph.Types [w] [z.ty] := .cons ⟨z, atW, rfl⟩ .nil
    cases inferred : op.infer [z.ty] with
    | ok ty =>
      exact meets_of_eq (Rebuild.emit_eq_ok types inferred ..) (.turned turns there atW inferred tabled runs)
    | error e =>
      refine ((Rebuild.emit_typed op [w] (some dest) none).weaken fun _ _ => .refused turns there atW tabled runs inferred).mono ?_
      rintro _ _ ⟨-, tys, ty, types', accepted, -⟩
      rw [Graph.Types.unique types' types, inferred] at accepted
      cases accepted

/-- Where nothing is found to get around a transfer, it cannot be avoided. -/
theorem simplify_outcome (c : Context) (r : Rebuild) (x : VarId) (dest : Location) :
    (simplify c x dest).Meets r (fun _ => Fails c r.graph x dest) (Outcome c r x dest) := by
  unfold simplify
  rw [meets_bind]
  refine (Rebuild.place_spec x fun none _ => .unknown none).mono ?_
  rintro _ r₁ ⟨rfl, rfl, -⟩
  by_cases here : r₁.graph.placeOf x = some dest
  · rw [if_pos here]
    exact .here here
  rw [if_neg here, meets_bind, meets_get]
  cases produced : r₁.graph.producer? x with
  | none =>
    simp only [produced]
    exact .stuck ⟨here, fun atX => (by cases produced.symm.trans atX), fun atX => (by cases produced.symm.trans atX)⟩
  | some producer =>
    have sameX : ∀ {m}, r₁.graph.producer? x = some m → producer = m := fun atX =>
      Option.some.inj (produced.symm.trans atX)
    simp only [produced]
    by_cases moves : producer.op.isTransfer
    · rw [if_pos moves]
      cases first : producer.inputs.head? with
      | none => exact .unread produced (.inl moves) fun u reads => (by cases first.symm.trans reads)
      | some y => exact back_outcome here produced moves first
    rw [if_neg moves]
    have unmoved : ∀ {m u}, r₁.graph.producer? x = some m → m.op.isTransfer → m.inputs = [u] →
        r₁.graph.placeOf u ≠ some dest := fun atX movesM _ => absurd (sameX atX ▸ movesM) moves
    by_cases layout : producer.op.isLayout
    swap
    · simp only [layout, Bool.not_false, ↓reduceIte]
      exact .stuck ⟨here, unmoved, fun atX layout' => absurd (sameX atX ▸ layout') layout⟩
    simp only [layout, Bool.not_true, Bool.false_eq_true, ↓reduceIte]
    cases first : producer.inputs.head? with
    | none => exact .unread produced (.inr ⟨rfl, layout⟩) fun u reads => (by cases first.symm.trans reads)
    | some middle =>
      have sameMiddle : ∀ {m y}, r₁.graph.producer? x = some m → m.inputs = [y] → middle = y := fun atX single => by
        rw [sameX atX, single] at first
        exact (Option.some.inj first).symm
      simp only
      cases producedMiddle : r₁.graph.producer? middle with
      | none =>
        refine .stuck ⟨here, unmoved, fun atX _ single k w atY => ?_⟩
        cases (sameMiddle atX single ▸ producedMiddle).symm.trans atY
      | some inner =>
        have sameInner : ∀ {m y k}, r₁.graph.producer? x = some m → m.inputs = [y] →
            r₁.graph.producer? y = some k → inner = k := fun atX single atY =>
          Option.some.inj ((sameMiddle atX single ▸ producedMiddle).symm.trans atY)
        simp only
        by_cases movesInner : inner.op.isTransfer
        swap
        · simp only [movesInner, Bool.not_false, ↓reduceIte]
          exact .stuck ⟨here, unmoved, fun atX _ single k w atY movesK =>
            absurd (sameInner atX single atY ▸ movesK) movesInner⟩
        simp only [movesInner, Bool.not_true, Bool.false_eq_true, ↓reduceIte]
        cases origin : inner.inputs.head? with
        | none => exact .unread producedMiddle (.inl movesInner) fun u reads => (by cases origin.symm.trans reads)
        | some w =>
          have turns : r₁.graph.Turns producer.op w x :=
            ⟨producer, middle, produced, rfl, layout, first, inner, producedMiddle, movesInner, origin⟩
          refine turned_outcome turns (fun missing => .unread producedMiddle (.inl movesInner) fun u reads => ?_)
            fun refused => ⟨here, unmoved, fun {m y} atX _ single k w' atY _ single' => ?_⟩
          · rwa [Option.some.inj (origin.symm.trans reads)] at missing
          · rw [sameInner atX single atY, single'] at origin
            rw [Option.some.inj origin, ← sameX atX]
            exact refused

/-- How a value is had where a transfer of `x` leads: it was had before, there is a way around the transfer, or the
transfer is added. -/
inductive Had (c : Context) (op : Op) (r : Rebuild) (x : VarId) (dest : Location) : VarId → Rebuild → Prop where
  | known {w : VarId} (member : ((Op.transferTo dest, [x]), w) ∈ r.known) : Had c op r x dest w r
  | around {w : VarId} {r' : Rebuild} (outcome : Outcome c r x dest (some w) r') : Had c op r x dest w r'
  | added {ty : Ty} (unknown : ∀ w, ((Op.transferTo dest, [x]), w) ∉ r.known) (stuck : r.graph.Unavoidable c x dest) :
      Had c op r x dest r.graph.vars.size { r with graph := r.graph.grown op [x] ty (some dest) none }

/-- What a step does with an operation, once its operands are read. -/
inductive Result (c : Context) (n : Node) (r : Rebuild) : Rebuild → Prop where
  | copied {args : List VarId} {ty : Ty} (stands : n.op.isTransfer → n.place = none ∨ n.inputs = [])
      (images : List.Forall₂ (fun v w => r.image v = some w) n.inputs args) : Result c n r
        (Rebuild.imaged { r with graph := r.graph.grown n.op args ty n.place n.inPlace } n.output r.graph.vars.size)
  | moved {dest : Location} {v x w : VarId} {rest : List VarId} {r' : Rebuild} (moves : n.op.isTransfer)
      (place : n.place = some dest) (inputs : n.inputs = v :: rest) (image : r.image v = some x)
      (had : Had c n.op r x dest w r') :
      Result c n r (Rebuild.imaged { r' with known := ((.transferTo dest, [x]), w) :: r'.known } n.output w)

/-- A step reads the operands and then does one of these. -/
theorem step_outcome {p : Program} {kept : Rebuild → Prop} (copying : p.Copying kept) (held : kept r) (n : Node) :
    (step c p n).Meets r (fun _ => True) fun _ r' => ∃ r₁, kept r₁ ∧ Result c n r₁ r' := by
  have copied : (n.op.isTransfer → n.place = none ∨ n.inputs = []) →
      (Rebuild.copy p n).Meets r (fun _ => True) fun _ r' => ∃ r₁, kept r₁ ∧ Result c n r₁ r' := by
    intro stands
    unfold Rebuild.copy
    rw [meets_bind]
    refine (Rebuild.readAll_keeps copying held n.inputs).mono ?_
    rintro args r₁ ⟨held₁, -, images⟩
    rw [meets_bind]
    refine (Rebuild.emit_spec n.op args n.place n.inPlace).mono ?_
    rintro _ _ ⟨rfl, ty, rfl⟩
    exact ⟨r₁, held₁, .copied stands images⟩
  unfold step
  by_cases moves : n.op.isTransfer
  swap
  · have stands : n.op.isTransfer = false := by simpa using moves
    simp only [stands]
    exact copied fun moves' => absurd moves' moves
  cases place : n.place with
  | none =>
    simp only [moves]
    exact copied fun _ => .inl place
  | some dest =>
    cases inputs : n.inputs with
    | nil =>
      simp only [moves]
      exact copied fun _ => .inr inputs
    | cons v rest =>
      simp only [moves]
      rw [meets_bind]
      refine (Rebuild.read_keeps copying held v).mono ?_
      rintro x r₁ ⟨held₁, -, image⟩
      have noted : ∀ {w : VarId} {r₂ : Rebuild}, Had c n.op r₁ x dest w r₂ →
          (do
            Rebuild.note (.transferTo dest) [x] w
            Rebuild.bind n.output w : Rebuilding Unit).Meets r₂ (fun _ => True)
              fun _ r' => ∃ r₁, kept r₁ ∧ Result c n r₁ r' := by
        intro w r₂ had
        simp only [Rebuild.note, Rebuild.bind, meets_bind, meets_modify]
        exact ⟨r₁, held₁, .moved moves place inputs image had⟩
      rw [meets_bind]
      refine (Rebuild.known?_spec (.transferTo dest) [x]).mono ?_
      rintro found r₂ ⟨rfl, known, unknown⟩
      cases found with
      | some w => exact noted (.known (known w rfl))
      | none =>
        simp only
        rw [meets_bind]
        refine ((simplify_outcome c r₂ x dest).weaken fun _ _ => trivial).mono fun found r₃ outcome => ?_
        cases found with
        | some w => exact noted (.around outcome)
        | none =>
          cases outcome with
          | stuck stuck =>
            simp only
            rw [meets_bind]
            refine (Rebuild.emit_spec n.op [x] (some dest) none).mono ?_
            rintro _ _ ⟨rfl, ty, rfl⟩
            exact noted (.added (unknown rfl) stuck)

end Transfers

end TensorGraph
