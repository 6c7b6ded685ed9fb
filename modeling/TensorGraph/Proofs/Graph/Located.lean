import TensorGraph.Proofs.Graph.Sound

/-! Graphs in which every value is where it is read. Leaves are on the host, an operation that computes has its
operands and its result where it is placed, and a transfer takes its operand to a place where it is not. -/
namespace TensorGraph

namespace Graph

/-- Where a variable lives, once it is placed. -/
def placeOf (g : Graph) (v : VarId) : Place := g.vars[v]?.bind fun x => x.ty.place

/-- An operation may be placed there: what computes has all of its operands there, and what moves a value has it
elsewhere, leads there and overwrites nothing. -/
structure Admits (g : Graph) (op : Op) (inputs : List VarId) (l : Location) (mark : Option Nat) : Prop where
  computes : ¬ op.isTransfer → ∀ v ∈ inputs, g.placeOf v = some l
  moves : op.isTransfer → op = .transferTo l ∧ mark = none ∧
    ∃ v from_, inputs = [v] ∧ g.placeOf v = some from_ ∧ from_ ≠ l

/-- Every value is where it is read, and no value is moved to one place twice. -/
structure Located (g : Graph) : Prop where
  leaf : ∀ {v : VarId} {x : Var}, g.vars[v]? = some x → x.isLeaf → g.placeOf v = some .host
  node : ∀ {i : NodeId} {n : Node}, g.nodes[i]? = some n →
    ∃ l, n.place = some l ∧ g.placeOf n.output = some l ∧ g.Admits n.op n.inputs l n.inPlace
  once : ∀ {i j : NodeId} {m n : Node}, g.nodes[i]? = some m → g.nodes[j]? = some n → m.op.isTransfer →
    n.op.isTransfer → m.inputs = n.inputs → m.place = n.place → i = j

/-- Every operation owns its output, and every output belongs to an operation. -/
structure Owned (g : Graph) : Prop where
  output : ∀ {i : NodeId} {n : Node}, g.nodes[i]? = some n → ∃ x, g.vars[n.output]? = some x ∧ x.origin = .output i
  produced : ∀ {v : VarId} {x : Var} {i : NodeId}, g.vars[v]? = some x → x.origin = .output i →
    ∃ n : Node, g.nodes[i]? = some n ∧ n.output = v

variable {g g' : Graph}

theorem placeOf_eq {v : VarId} {x : Var} (atV : g.vars[v]? = some x) : g.placeOf v = x.ty.place := by
  rw [placeOf, atV, Option.bind_some]

theorem lt_of_placeOf {v : VarId} {l : Location} (place : g.placeOf v = some l) : v < g.vars.size := by
  obtain ⟨x, atV, -⟩ := Option.bind_eq_some_iff.mp place
  exact (Array.getElem?_eq_some_iff.mp atV).1

theorem Grows.placeOf_eq (grows : g.Grows g') {v : VarId} (inRange : v < g.vars.size) :
    g'.placeOf v = g.placeOf v := by
  have atV := Array.getElem?_eq_getElem inRange
  rw [Graph.placeOf_eq atV, Graph.placeOf_eq (grows.vars atV)]

theorem Grows.placeOf (grows : g.Grows g') {v : VarId} {l : Location} (place : g.placeOf v = some l) :
    g'.placeOf v = some l := by rw [grows.placeOf_eq (lt_of_placeOf place), place]

theorem Admits.grows {op : Op} {inputs : List VarId} {l : Location} {mark : Option Nat}
    (admits : g.Admits op inputs l mark) (grows : g.Grows g') : g'.Admits op inputs l mark where
  computes stays v member := grows.placeOf (admits.computes stays v member)
  moves leads := by
    obtain ⟨same, unmarked, v, from_, single, place, elsewhere⟩ := admits.moves leads
    exact ⟨same, unmarked, v, from_, single, grows.placeOf place, elsewhere⟩

/-! What a graph holds after one addition is what it held before, or new. -/

theorem pushLeaf_vars {x y : Var} {v : VarId} : (g.pushLeaf x).1.vars[v]? = some y ↔
    g.vars[v]? = some y ∨ v = g.vars.size ∧ y = x := by
  rw [pushLeaf, Array.getElem?_push]
  by_cases last : v = g.vars.size
  · subst last
    simp [eq_comm]
  · simp [last]

variable {op : Op} {inputs : List VarId} {ty : Ty} {place : Place} {mark : Option Nat}

theorem grown_vars {y : Var} {v : VarId} : (g.grown op inputs ty place mark).vars[v]? = some y ↔
    g.vars[v]? = some y ∨ v = g.vars.size ∧ y = { ty := ty.placed place, origin := .output g.nodes.size } :=
  pushLeaf_vars

theorem grown_nodes {i : NodeId} {n : Node} : (g.grown op inputs ty place mark).nodes[i]? = some n ↔
    g.nodes[i]? = some n ∨ i = g.nodes.size ∧
      n = { id := g.nodes.size, op, inputs, output := g.vars.size, place, inPlace := mark } := by
  rw [grown, Array.getElem?_push]
  by_cases last : i = g.nodes.size
  · subst last
    simp [eq_comm]
  · simp [last]

/-- A new operation has its result where it is placed. -/
theorem placeOf_grown : (g.grown op inputs ty place mark).placeOf g.vars.size = place := by
  rw [placeOf_eq (grown_vars.mpr (.inr ⟨rfl, rfl⟩))]
  rfl

namespace Owned

theorem empty (float : Kind) : (Graph.empty float).Owned where
  output at_ := by simp [Graph.empty] at at_
  produced at_ := by simp [Graph.empty] at at_

theorem pushLeaf (owned : g.Owned) {x : Var} (isLeaf : x.isLeaf) : (g.pushLeaf x).1.Owned where
  output {i n} at_ := by
    obtain ⟨y, atOutput, origin⟩ := owned.output at_
    exact ⟨y, (pushLeaf_grows g x).vars atOutput, origin⟩
  produced {v y i} atV origin := by
    rcases pushLeaf_vars.mp atV with old | ⟨-, rfl⟩
    · exact owned.produced old origin
    · simp [Var.isLeaf, origin] at isLeaf

theorem grown (owned : g.Owned) : (g.grown op inputs ty place mark).Owned where
  output {i n} at_ := by
    rcases grown_nodes.mp at_ with old | ⟨rfl, rfl⟩
    · obtain ⟨x, atOutput, origin⟩ := owned.output old
      exact ⟨x, grown_vars.mpr (.inl atOutput), origin⟩
    · exact ⟨_, grown_vars.mpr (.inr ⟨rfl, rfl⟩), rfl⟩
  produced {v x i} atV origin := by
    rcases grown_vars.mp atV with old | ⟨rfl, rfl⟩
    · obtain ⟨n, at_, output⟩ := owned.produced old origin
      exact ⟨n, grown_nodes.mpr (.inl at_), output⟩
    · cases origin
      exact ⟨_, grown_nodes.mpr (.inr ⟨rfl, rfl⟩), rfl⟩

theorem notLeaf (owned : g.Owned) {i : NodeId} {n : Node} (at_ : g.nodes[i]? = some n) {x : Var}
    (atOutput : g.vars[n.output]? = some x) : ¬ x.isLeaf := by
  obtain ⟨y, atY, origin⟩ := owned.output at_
  obtain rfl : y = x := Option.some.inj (atY.symm.trans atOutput)
  simp [Var.isLeaf, origin]

theorem of_producer? (owned : g.Owned) {v : VarId} {n : Node} (produced : g.producer? v = some n) :
    (∃ i : NodeId, g.nodes[i]? = some n) ∧ n.output = v := by
  obtain ⟨x, i, atV, origin, at_⟩ := producer?_eq_some.mp produced
  obtain ⟨m, atM, output⟩ := owned.produced atV origin
  obtain rfl : n = m := Option.some.inj (at_.symm.trans atM)
  exact ⟨⟨i, at_⟩, output⟩

theorem producer?_output (owned : g.Owned) {i : NodeId} {n : Node} (at_ : g.nodes[i]? = some n) :
    g.producer? n.output = some n := by
  obtain ⟨x, atOutput, origin⟩ := owned.output at_
  exact producer?_eq_some.mpr ⟨x, i, atOutput, origin, at_⟩

/-- What computes a variable does so in every larger graph. -/
theorem producer?_grows (owned : g.Owned) (grows : g.Grows g') {v : VarId} (inRange : v < g.vars.size) :
    g'.producer? v = g.producer? v := by
  obtain ⟨x, atV⟩ : ∃ x, g.vars[v]? = some x := ⟨_, Array.getElem?_eq_getElem inRange⟩
  cases produced : g.producer? v with
  | some n =>
    obtain ⟨y, i, atY, origin, at_⟩ := producer?_eq_some.mp produced
    exact producer?_eq_some.mpr ⟨y, i, grows.vars atY, origin, grows.nodes at_⟩
  | none =>
    cases produced' : g'.producer? v with
    | none => rfl
    | some n =>
      obtain ⟨y, i, atY, origin, -⟩ := producer?_eq_some.mp produced'
      obtain rfl : x = y := Option.some.inj ((grows.vars atV).symm.trans atY)
      obtain ⟨m, at_, -⟩ := owned.produced atV origin
      cases produced.symm.trans (producer?_eq_some.mpr ⟨x, i, atV, origin, at_⟩)

/-- Different operations have different outputs. -/
theorem eq_of_output (owned : g.Owned) {i j : NodeId} {m n : Node} (atI : g.nodes[i]? = some m)
    (atJ : g.nodes[j]? = some n) (same : m.output = n.output) : i = j := by
  obtain ⟨x, atX, originX⟩ := owned.output atI
  obtain ⟨y, atY, originY⟩ := owned.output atJ
  rw [same] at atX
  obtain rfl : x = y := Option.some.inj (atX.symm.trans atY)
  exact Origin.output.inj (originX.symm.trans originY)

theorem distinct (owned : g.Owned) : g.nodes.toList.Pairwise fun a b => a.output ≠ b.output := by
  refine List.pairwise_iff_getElem.mpr fun i j inI inJ before same => ?_
  have at_ : ∀ k (inK : k < g.nodes.toList.length), g.nodes[k]? = some g.nodes.toList[k] := fun k inK => by
    rw [← Array.getElem?_toList]
    exact List.getElem?_eq_getElem inK
  exact absurd (owned.eq_of_output (at_ i inI) (at_ j inJ) same) (Nat.ne_of_lt before)

end Owned

namespace Located

theorem empty (float : Kind) : (Graph.empty float).Located where
  leaf at_ := by simp [Graph.empty] at at_
  node at_ := by simp [Graph.empty] at at_
  once at_ := by simp [Graph.empty] at at_

theorem pushLeaf (located : g.Located) {x : Var} (hosted : x.ty.place = some .host) :
    (g.pushLeaf x).1.Located where
  leaf {v y} atV isLeaf := by
    rw [placeOf_eq atV]
    rcases pushLeaf_vars.mp atV with old | ⟨-, rfl⟩
    · rw [← placeOf_eq old]
      exact located.leaf old isLeaf
    · exact hosted
  node {i n} at_ := by
    obtain ⟨l, here, output, admits⟩ := located.node at_
    have grows := pushLeaf_grows g x
    exact ⟨l, here, grows.placeOf output, admits.grows grows⟩
  once := located.once

/-- An operation may be added where it may be placed, a transfer as long as there is none like it. -/
theorem grown (located : g.Located) {l : Location} (admits : g.Admits op inputs l mark)
    (fresh : op.isTransfer → ∀ {i : NodeId} {m : Node}, g.nodes[i]? = some m → m.op.isTransfer →
      m.inputs = inputs → m.place ≠ some l) : (g.grown op inputs ty (some l) mark).Located where
  leaf {v y} atV isLeaf := by
    rw [placeOf_eq atV]
    rcases grown_vars.mp atV with old | ⟨-, rfl⟩
    · rw [← placeOf_eq old]
      exact located.leaf old isLeaf
    · simp [Var.isLeaf] at isLeaf
  node {i n} at_ := by
    have grows := grown_grows g op inputs ty (some l) mark
    rcases grown_nodes.mp at_ with old | ⟨rfl, rfl⟩
    · obtain ⟨l', here, output, admits'⟩ := located.node old
      exact ⟨l', here, grows.placeOf output, admits'.grows grows⟩
    · exact ⟨l, rfl, placeOf_grown, admits.grows grows⟩
  once {i j m n} atI atJ moves moves' inputs place := by
    rcases grown_nodes.mp atI with oldI | ⟨rfl, rfl⟩ <;> rcases grown_nodes.mp atJ with oldJ | ⟨rfl, rfl⟩
    · exact located.once oldI oldJ moves moves' inputs place
    · exact absurd place (fresh moves' oldI moves inputs)
    · exact absurd place.symm (fresh moves oldJ moves' inputs.symm)
    · rfl

/-- Operands are somewhere. -/
theorem reads_lt (located : g.Located) {i : NodeId} {n : Node} (at_ : g.nodes[i]? = some n) {v : VarId}
    (reads : v ∈ n.inputs) : v < g.vars.size := by
  obtain ⟨l, -, -, admits⟩ := located.node at_
  by_cases moves : n.op.isTransfer
  · obtain ⟨-, -, u, from_, single, place, -⟩ := admits.moves moves
    rw [single, List.mem_singleton] at reads
    exact reads ▸ lt_of_placeOf place
  · exact lt_of_placeOf (admits.computes moves v reads)

/-- What computes a variable is placed where the variable lives. -/
theorem producer (located : g.Located) (owned : g.Owned) {l : Location} {v : VarId} {n : Node}
    (place : g.placeOf v = some l) (produced : g.producer? v = some n) : n.place = some l := by
  obtain ⟨⟨i, at_⟩, rfl⟩ := owned.of_producer? produced
  obtain ⟨l', here, output, -⟩ := located.node at_
  rw [here, ← output, place]

end Located

end Graph

end TensorGraph
