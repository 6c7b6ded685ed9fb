import Mathlib.Tactic.Order
import TensorGraph.Graph.Basic
import TensorGraph.Proofs.Op.Typing

/-! Well-formed graphs. Every operation is numbered by its place, reads variables made before its
output, owns its output and has the type that inference gives it. What else is asked of operations
and leaves differs from one stage of a compilation to the next, so it is a parameter. -/
namespace TensorGraph

open Checked

/-- What a stage of a compilation asks of graphs beyond being well formed. -/
structure Discipline where
  /-- Whether an operation may stand on operands of these types, at a place and with a mark. -/
  op : Op → List Ty → Place → Option Nat → Prop
  /-- Whether a leaf may have this type. -/
  leaf : Ty → Prop
  /-- Whether a leaf may stand for this persistent value. -/
  cell : Cell → Prop
  /-- Whether new values must have the types of the persistent values that they replace. -/
  typed : Prop

/-- The first discipline asks for all that the second one does. -/
structure Discipline.Implies (d d' : Discipline) : Prop where
  op : ∀ op tys place mark, d.op op tys place mark → d'.op op tys place mark
  leaf : ∀ ty, d.leaf ty → d'.leaf ty
  cell : ∀ c, d.cell c → d'.cell c
  typed : d'.typed → d.typed

/-- The type of a leaf is that of its value. -/
def Var.Fits (d : Discipline) (x : Var) : Prop :=
  match x.origin with
  | .input => d.leaf x.ty
  | .constant t => d.leaf x.ty ∧ t.HasType x.ty
  | .shared c => d.leaf x.ty ∧ d.cell c ∧ c.kind = x.ty.kind ∧ c.rank = x.ty.rank
  | .output _ => True

theorem Var.Fits.mono {d d' : Discipline} (implies : d.Implies d') {x : Var} (fits : x.Fits d) :
    x.Fits d' := by
  unfold Var.Fits at fits ⊢
  split
  · rename_i origin
    rw [origin] at fits
    exact implies.leaf _ fits
  · rename_i t origin
    rw [origin] at fits
    exact ⟨implies.leaf _ fits.1, fits.2⟩
  · rename_i c origin
    rw [origin] at fits
    exact ⟨implies.leaf _ fits.1, implies.cell _ fits.2.1, fits.2.2⟩
  · trivial

/-- Two types with the same kind and rank. -/
def Ty.Alike (a b : Ty) : Prop := a.kind = b.kind ∧ a.rank = b.rank

theorem Ty.Alike.refl (a : Ty) : a.Alike a := ⟨rfl, rfl⟩

theorem Ty.Alike.trans {a b c : Ty} (first : a.Alike b) (second : b.Alike c) : a.Alike c :=
  ⟨first.1.trans second.1, first.2.trans second.2⟩

theorem Ty.Alike.symm {a b : Ty} (alike : a.Alike b) : b.Alike a := ⟨alike.1.symm, alike.2.symm⟩

namespace Graph

/-- The types of some variables. -/
def Types (g : Graph) (vs : List VarId) (tys : List Ty) : Prop :=
  List.Forall₂ (fun v t => ∃ x, g.vars[v]? = some x ∧ x.ty = t) vs tys

/-- What is known of operation number `i`. -/
structure Holds (g : Graph) (d : Discipline) (i : NodeId) (n : Node) : Prop where
  id : n.id = i
  output : ∃ x, g.vars[n.output]? = some x ∧ x.origin = .output i
  reads : ∀ v ∈ n.inputs, v < n.output
  typed : ∃ tys ty x, g.Types n.inputs tys ∧ n.op.infer tys = .ok ty ∧
    g.vars[n.output]? = some x ∧ x.ty = ty.placed n.place ∧ d.op n.op tys n.place n.inPlace

/-- A graph as its methods build it. -/
structure Sound (g : Graph) (d : Discipline) : Prop where
  node : ∀ {i : NodeId} {n : Node}, g.nodes[i]? = some n → g.Holds d i n
  produced : ∀ {v : VarId} {x : Var} {i : NodeId}, g.vars[v]? = some x → x.origin = .output i →
    ∃ n : Node, g.nodes[i]? = some n ∧ n.output = v
  ordered : ∀ {i j : NodeId} {m n : Node}, g.nodes[i]? = some m → g.nodes[j]? = some n → i < j →
    m.output < n.output
  leaf : ∀ {v : VarId} {x : Var}, g.vars[v]? = some x → x.Fits d

/-- The second graph has everything that the first one has, under the same numbers. -/
structure Grows (g g' : Graph) : Prop where
  vars : ∀ {v : VarId} {x : Var}, g.vars[v]? = some x → g'.vars[v]? = some x
  nodes : ∀ {i : NodeId} {n : Node}, g.nodes[i]? = some n → g'.nodes[i]? = some n

theorem Grows.refl (g : Graph) : g.Grows g := ⟨id, id⟩

theorem Grows.trans {g g' g'' : Graph} (first : g.Grows g') (second : g'.Grows g'') :
    g.Grows g'' := ⟨fun h => second.vars (first.vars h), fun h => second.nodes (first.nodes h)⟩

theorem Grows.types {g g' : Graph} (grows : g.Grows g') {vs : List VarId} {tys : List Ty}
    (types : g.Types vs tys) : g'.Types vs tys :=
  types.imp fun _ _ ⟨x, atV, same⟩ => ⟨x, grows.vars atV, same⟩

theorem var_eq_ok {g : Graph} {v : VarId} {x : Var} : g.var v = .ok x ↔ g.vars[v]? = some x := by
  unfold var
  split
  · rename_i found
    rw [found, Except.ok.injEq, Option.some.injEq]
  · rename_i none
    simp [none]

theorem ty_eq_ok {g : Graph} {v : VarId} {t : Ty} :
    g.ty v = .ok t ↔ ∃ x, g.vars[v]? = some x ∧ x.ty = t := by
  rw [ty, map_eq_ok]
  exact exists_congr fun x => and_congr_left fun _ => var_eq_ok

theorem tys_eq_ok {g : Graph} {vs : List VarId} {tys : List Ty} :
    g.tys vs = .ok tys ↔ g.Types vs tys := by
  induction vs generalizing tys with
  | nil => simp [Graph.tys, Types, eq_comm]
  | cons v vs ih =>
    rw [Graph.tys, bind_eq_ok, Types, List.forall₂_cons_left_iff]
    constructor
    · rintro ⟨t, head, rest⟩
      obtain ⟨ts, tail, whole⟩ := bind_eq_ok.mp rest
      cases whole
      exact ⟨t, ts, ty_eq_ok.mp head, ih.mp tail, rfl⟩
    · rintro ⟨t, ts, head, tail, rfl⟩
      exact ⟨t, ty_eq_ok.mpr head, bind_eq_ok.mpr ⟨ts, ih.mpr tail, rfl⟩⟩

theorem producer?_eq_some {g : Graph} {v : VarId} {n : Node} :
    g.producer? v = some n ↔ ∃ x i, g.vars[v]? = some x ∧ x.origin = .output i ∧
      g.nodes[i]? = some n := by
  unfold producer?
  simp only [bind, Option.bind_eq_some_iff]
  constructor
  · rintro ⟨x, atV, produced⟩
    cases origin : x.origin with
    | output i =>
      rw [origin] at produced
      exact ⟨x, i, atV, origin, produced⟩
    | input => simp [origin] at produced
    | constant t => simp [origin] at produced
    | shared c => simp [origin] at produced
  · rintro ⟨x, i, atV, origin, produced⟩
    exact ⟨x, atV, by rw [origin]; exact produced⟩

theorem Types.length_eq {g : Graph} {vs : List VarId} {tys : List Ty} (types : g.Types vs tys) :
    vs.length = tys.length := List.Forall₂.length_eq types

theorem Types.unique {g : Graph} {vs : List VarId} {tys tys' : List Ty} (types : g.Types vs tys)
    (types' : g.Types vs tys') : tys = tys' :=
  Except.ok.inj ((tys_eq_ok.mpr types).symm.trans (tys_eq_ok.mpr types'))

theorem Types.inRange {g : Graph} {vs : List VarId} {tys : List Ty} (types : g.Types vs tys) :
    ∀ v ∈ vs, v < g.vars.size := by
  intro v member
  obtain ⟨i, inVs, rfl⟩ := List.mem_iff_getElem.mp member
  have inTys : i < tys.length := by rwa [← types.length_eq]
  obtain ⟨x, atV, -⟩ := types.get inVs inTys
  exact (Array.getElem?_eq_some_iff.mp atV).1

theorem exists_types {g : Graph} {vs : List VarId} (inRange : ∀ v ∈ vs, v < g.vars.size) :
    ∃ tys, g.Types vs tys := by
  induction vs with
  | nil => exact ⟨[], .nil⟩
  | cons v vs ih =>
    obtain ⟨tys, types⟩ := ih fun u member => inRange u (List.mem_cons_of_mem _ member)
    have atV := Array.getElem?_eq_getElem (inRange v (by simp))
    exact ⟨_, .cons ⟨_, atV, rfl⟩ types⟩

namespace Sound

variable {g : Graph} {d : Discipline}

theorem mono {d' : Discipline} (sound : g.Sound d) (implies : d.Implies d') : g.Sound d' where
  node {i n} at_ := by
    obtain ⟨id, output, reads, tys, ty, x, types, inferred, atOutput, placed, held⟩ := sound.node at_
    exact ⟨id, output, reads, tys, ty, x, types, inferred, atOutput, placed,
      implies.op _ _ _ _ held⟩
  produced := sound.produced
  ordered := sound.ordered
  leaf at_ := (sound.leaf at_).mono implies

/-- The producer of an output is the operation that owns it. -/
theorem producer?_output (sound : g.Sound d) {i : NodeId} {n : Node} (at_ : g.nodes[i]? = some n) :
    g.producer? n.output = some n := by
  obtain ⟨x, atOutput, origin⟩ := (sound.node at_).output
  exact producer?_eq_some.mpr ⟨x, i, atOutput, origin, at_⟩

theorem of_producer? (sound : g.Sound d) {v : VarId} {n : Node} (produced : g.producer? v = some n) :
    g.nodes[n.id]? = some n ∧ n.output = v := by
  obtain ⟨x, i, atV, origin, at_⟩ := producer?_eq_some.mp produced
  obtain ⟨m, atM, output⟩ := sound.produced atV origin
  obtain rfl : n = m := Option.some.inj (at_.symm.trans atM)
  have id := (sound.node at_).id
  exact ⟨by rw [id]; exact at_, output⟩

/-- Operations with one output are one operation. -/
theorem eq_of_output (sound : g.Sound d) {i j : NodeId} {m n : Node} (atI : g.nodes[i]? = some m)
    (atJ : g.nodes[j]? = some n) (same : m.output = n.output) : i = j := by
  rcases Nat.lt_trichotomy i j with before | equal | after
  · exact absurd same (Nat.ne_of_lt (sound.ordered atI atJ before))
  · exact equal
  · exact absurd same.symm (Nat.ne_of_lt (sound.ordered atJ atI after))

/-- What computes an operand comes earlier. -/
theorem producer_lt (sound : g.Sound d) {n m : Node} (at_ : g.nodes[n.id]? = some n) {v : VarId} (reads : v ∈ n.inputs)
    (produced : g.producer? v = some m) : m.id < n.id := by
  obtain ⟨atM, rfl⟩ := sound.of_producer? produced
  have before := (sound.node at_).reads _ reads
  rcases Nat.lt_trichotomy m.id n.id with less | same | more
  · exact less
  · rw [same, at_] at atM
    cases atM
    exact absurd before (Nat.lt_irrefl _)
  · exact absurd before (Nat.lt_asymm (sound.ordered at_ atM more))

theorem output_lt (sound : g.Sound d) {i : NodeId} {n : Node} (at_ : g.nodes[i]? = some n) :
    n.output < g.vars.size := by
  obtain ⟨x, atOutput, -⟩ := (sound.node at_).output
  exact (Array.getElem?_eq_some_iff.mp atOutput).1

/-- An operation of one operand. -/
theorem single (sound : g.Sound d) {i : NodeId} {n : Node} (at_ : g.nodes[i]? = some n)
    (one : n.op.arity = 1) : ∃ u z ty y, n.inputs = [u] ∧ g.vars[u]? = some z ∧
      n.op.infer [z.ty] = .ok ty ∧ g.vars[n.output]? = some y ∧ y.ty = ty.placed n.place ∧
      d.op n.op [z.ty] n.place n.inPlace := by
  obtain ⟨-, -, -, tys, ty, y, types, inferred, atOutput, placed, held⟩ := sound.node at_
  obtain ⟨first, rest, rfl, count, -⟩ := Op.infer_eq_ok.mp inferred
  obtain rfl : rest = [] := by simpa [one] using count
  obtain ⟨u, inputs⟩ : ∃ u, n.inputs = [u] := List.length_eq_one_iff.mp types.length_eq
  rw [inputs] at types
  cases types with
  | cons head _ =>
    obtain ⟨z, atU, rfl⟩ := head
    exact ⟨u, z, ty, y, inputs, atU, inferred, atOutput, placed, held⟩

end Sound

/-- The empty graph has nothing to be wrong. -/
theorem sound_empty (float : Kind) (d : Discipline) : (empty float).Sound d where
  node at_ := by simp [empty] at at_
  produced at_ := by simp [empty] at at_
  ordered at_ := by simp [empty] at at_
  leaf at_ := by simp [empty] at at_

theorem pushLeaf_grows (g : Graph) (x : Var) : g.Grows (g.pushLeaf x).1 where
  vars {v y} atV := by
    have inVars := (Array.getElem?_eq_some_iff.mp atV).1
    simpa [pushLeaf, Array.getElem?_push, Nat.ne_of_lt inVars] using atV
  nodes := id

/-- A leaf that fits may be added. -/
theorem Sound.pushLeaf {g : Graph} {d : Discipline} (sound : g.Sound d) {x : Var}
    (isLeaf : x.isLeaf) (fits : x.Fits d) : (g.pushLeaf x).1.Sound d := by
  have grows := pushLeaf_grows g x
  have notOutput : ∀ i, x.origin ≠ .output i := by
    intro i origin
    simp [Var.isLeaf, origin] at isLeaf
  refine ⟨?_, ?_, ?_, ?_⟩
  · intro i n at_
    obtain ⟨id, ⟨y, atOutput, origin⟩, reads, tys, ty, z, types, inferred, atZ, placed, held⟩ :=
      sound.node at_
    exact ⟨id, ⟨y, grows.vars atOutput, origin⟩, reads, tys, ty, z, grows.types types, inferred,
      grows.vars atZ, placed, held⟩
  · intro v y i atV origin
    by_cases last : v = g.vars.size
    · subst last
      obtain rfl : x = y := by simpa [Graph.pushLeaf] using atV
      exact absurd origin (notOutput i)
    · have old : g.vars[v]? = some y := by
        simpa [Graph.pushLeaf, Array.getElem?_push, last] using atV
      exact sound.produced old origin
  · exact sound.ordered
  · intro v y atV
    by_cases last : v = g.vars.size
    · subst last
      obtain rfl : x = y := by simpa [Graph.pushLeaf] using atV
      exact fits
    · have old : g.vars[v]? = some y := by
        simpa [Graph.pushLeaf, Array.getElem?_push, last] using atV
      exact sound.leaf old

/-- The graph with one more operation. -/
@[reducible] def grown (g : Graph) (op : Op) (inputs : List VarId) (ty : Ty) (place : Place)
    (mark : Option Nat) : Graph :=
  { g with
    vars := g.vars.push { ty := ty.placed place, origin := .output g.nodes.size }
    nodes := g.nodes.push
      { id := g.nodes.size, op, inputs, output := g.vars.size, place, inPlace := mark } }

theorem push_eq_ok {g g' : Graph} {op : Op} {inputs : List VarId} {place : Place}
    {mark : Option Nat} {v : VarId} :
    g.push op inputs place mark = .ok (g', v) ↔ ∃ tys ty, g.Types inputs tys ∧
      op.infer tys = .ok ty ∧ g' = g.grown op inputs ty place mark ∧ v = g.vars.size := by
  simp only [push, bind_eq_ok, tys_eq_ok, pure_eq, Except.ok.injEq, Prod.mk.injEq]
  constructor
  · rintro ⟨tys, types, ty, inferred, rfl, rfl⟩
    exact ⟨tys, ty, types, inferred, rfl, rfl⟩
  · rintro ⟨tys, ty, types, inferred, rfl, rfl⟩
    exact ⟨tys, types, ty, inferred, rfl, rfl⟩

theorem grown_grows (g : Graph) (op : Op) (inputs : List VarId) (ty : Ty) (place : Place)
    (mark : Option Nat) : g.Grows (g.grown op inputs ty place mark) where
  vars {v x} atV := by
    have inVars := (Array.getElem?_eq_some_iff.mp atV).1
    simpa [Array.getElem?_push, Nat.ne_of_lt inVars] using atV
  nodes {i n} atI := by
    have inNodes := (Array.getElem?_eq_some_iff.mp atI).1
    simpa [Array.getElem?_push, Nat.ne_of_lt inNodes] using atI

/-- An operation whose operands have the types that it asks for may be added. -/
theorem Sound.grown {g : Graph} {d : Discipline} (sound : g.Sound d) {op : Op}
    {inputs : List VarId} {tys : List Ty} {ty : Ty} {place : Place} {mark : Option Nat}
    (types : g.Types inputs tys) (inferred : op.infer tys = .ok ty) (held : d.op op tys place mark) :
    (g.grown op inputs ty place mark).Sound d := by
  have grows := grown_grows g op inputs ty place mark
  refine ⟨?_, ?_, ?_, ?_⟩
  · intro i n at_
    by_cases last : i = g.nodes.size
    · subst last
      simp only [Array.getElem?_push_size, Option.some.injEq] at at_
      subst at_
      refine ⟨rfl, ⟨_, Array.getElem?_push_size, rfl⟩, types.inRange, ?_⟩
      exact ⟨tys, ty, _, grows.types types, inferred, Array.getElem?_push_size, rfl, held⟩
    · have old : g.nodes[i]? = some n := by simpa [Array.getElem?_push, last] using at_
      obtain ⟨id, ⟨y, atOutput, origin⟩, reads, tys, ty, z, types, inferred, atZ, placed, held⟩ :=
        sound.node old
      exact ⟨id, ⟨y, grows.vars atOutput, origin⟩, reads, tys, ty, z, grows.types types, inferred,
        grows.vars atZ, placed, held⟩
  · intro v y i atV origin
    by_cases last : v = g.vars.size
    · subst last
      simp only [Array.getElem?_push_size, Option.some.injEq] at atV
      subst atV
      cases origin
      exact ⟨_, Array.getElem?_push_size, rfl⟩
    · have old : g.vars[v]? = some y := by simpa [Array.getElem?_push, last] using atV
      obtain ⟨n, at_, output⟩ := sound.produced old origin
      exact ⟨n, grows.nodes at_, output⟩
  · intro i j m n atI atJ before
    have inNodes : j < g.nodes.size + 1 := by
      have bound := (Array.getElem?_eq_some_iff.mp atJ).1
      simpa using bound
    have notLast : i ≠ g.nodes.size := Nat.ne_of_lt (Nat.lt_of_lt_of_le before (Nat.le_of_lt_succ inNodes))
    have oldI : g.nodes[i]? = some m := by simpa [Array.getElem?_push, notLast] using atI
    by_cases last : j = g.nodes.size
    · subst last
      simp only [Array.getElem?_push_size, Option.some.injEq] at atJ
      subst atJ
      exact sound.output_lt oldI
    · have oldJ : g.nodes[j]? = some n := by simpa [Array.getElem?_push, last] using atJ
      exact sound.ordered oldI oldJ before
  · intro v y atV
    by_cases last : v = g.vars.size
    · subst last
      simp only [Array.getElem?_push_size, Option.some.injEq] at atV
      subst atV
      trivial
    · have old : g.vars[v]? = some y := by simpa [Array.getElem?_push, last] using atV
      exact sound.leaf old

end Graph

end TensorGraph
