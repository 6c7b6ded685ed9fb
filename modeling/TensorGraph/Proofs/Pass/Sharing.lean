import TensorGraph.Proofs.Graph.Term
import TensorGraph.Proofs.Pass.CanonicalValues
import TensorGraph.Proofs.Pass.Paired

/-! The canonical form of a program that folds nothing shares all that is equal. Every operation of its graph is noted
under its operands, so an expression is found again by looking up its parts, and what is found does not depend on the
order of the operands of commutative functions or on double negations. -/
namespace TensorGraph

open Checked Rebuilding

-- Where the product of blocks plays no part, any one serves for the lemmas that ask for it.
open scoped BlockRoutine

namespace Graph

variable {g g' : Graph}

theorem constant?_grows (grows : g.Grows g') {v : VarId} (inRange : v < g.vars.size) :
    g'.constant? v = g.constant? v := by
  have atV := Array.getElem?_eq_getElem inRange
  rw [constant?, constant?, atV, grows.vars atV]

/-- An operation that is left as it is: it is not folded, and negates no negation. -/
structure Irreducible (g : Graph) (op : Op) (args : List VarId) : Prop where
  reads : ∀ v ∈ args, v < g.vars.size
  count : args.length = op.arity
  positive : Canonical.negated? g op args = none
  varies : ∃ v ∈ args, g.constant? v = none

/-- Every operation of the graph is noted under its operands, and nothing else is. There is one for each operation and
operands, and each is left as it is. -/
structure Merged (g : Graph) (known : List ((Op × List VarId) × VarId)) : Prop extends g.Owned where
  irreducible : ∀ {i : NodeId} {n : Node}, g.nodes[i]? = some n → g.Irreducible n.op n.inputs
  listed : ∀ {i : NodeId} {n : Node}, g.nodes[i]? = some n → ((n.op, n.inputs), n.output) ∈ known
  stands : ∀ {op : Op} {inputs : List VarId} {v : VarId}, ((op, inputs), v) ∈ known →
    ∃ n, g.producer? v = some n ∧ n.op = op ∧ n.inputs = inputs
  once : ∀ {key : Op × List VarId} {v w : VarId}, (key, v) ∈ known → (key, w) ∈ known → v = w

end Graph

namespace Canonical

/-- What a negation negates stays the same when the graph grows. -/
theorem negated?_grows {g g' : Graph} (owned : g.Owned) (grows : g.Grows g') {op : Op} {args : List VarId}
    (inRange : ∀ v ∈ args, v < g.vars.size) : negated? g' op args = negated? g op args := by
  unfold negated?
  split
  · rw [owned.producer?_grows grows (inRange _ (by simp))]
  · rfl

theorem negated?_eq_some {g : Graph} {op : Op} {args : List VarId} {w : VarId} :
    negated? g op args = some w ↔ op = .unary .neg ∧ ∃ v rest m, args = v :: rest ∧ g.producer? v = some m ∧
      m.op = .unary .neg ∧ m.inputs.head? = some w := by
  unfold negated?
  split
  · rename_i v rest
    simp only [bind, Option.bind_eq_some_iff, Option.ite_none_right_eq_some, List.cons.injEq, true_and]
    constructor
    · rintro ⟨m, produced, negates, head⟩
      exact ⟨v, rest, m, ⟨rfl, rfl⟩, produced, negates, head⟩
    · rintro ⟨_, _, m, ⟨rfl, rfl⟩, produced, negates, head⟩
      exact ⟨m, produced, negates, head⟩
  · rename_i other
    constructor
    · rintro ⟨⟩
    · rintro ⟨rfl, v, rest, m, rfl, -⟩
      exact absurd rfl (other v rest rfl)

/-- Nothing is folded as long as an operand is no constant. -/
theorem fold?_of_varying (ks : Kernels) (limit : Nat) {g : Graph} (op : Op) {args : List VarId} {v : VarId}
    (reads : v ∈ args) (varies : g.constant? v = none) : fold? ks limit g op args = .ok none := by
  have stuck : (args.mapM fun v => do (← g.vars[v]?).constant?) = none := by
    cases found : args.mapM fun v => do (← g.vars[v]?).constant? with
    | none => rfl
    | some constants =>
      obtain ⟨t, -, isConstant⟩ := partner (mapM_eq_some.mp found) reads
      cases varies.symm.trans isConstant
  unfold fold?
  rw [stuck, ite_self]

theorem ordered_swap {f : Binary} (commutes : f.isCommutative) (v w : VarId) :
    ordered (.binary f) [v, w] = ordered (.binary f) [w, v] := by
  rcases Nat.lt_trichotomy v w with before | rfl | after
  · simp [ordered, commutes, before, Nat.lt_asymm before]
  · rfl
  · simp [ordered, commutes, after, Nat.lt_asymm after]

/-- Negations are not affected by the order of operands. -/
theorem negated?_ordered (g : Graph) (op : Op) (args : List VarId) :
    negated? g op (ordered op args) = negated? g op args := by
  rcases ordered_cases op args with same | ⟨f, a, b, rfl, -, rfl, swapped⟩
  · rw [same]
  · rfl

end Canonical

namespace Graph

variable {g g' : Graph} {known : List ((Op × List VarId) × VarId)}

theorem Irreducible.grows {op : Op} {args : List VarId} (irreducible : g.Irreducible op args) (owned : g.Owned)
    (grows : g.Grows g') : g'.Irreducible op args where
  reads v member := by
    have atV := Array.getElem?_eq_getElem (irreducible.reads v member)
    exact (Array.getElem?_eq_some_iff.mp (grows.vars atV)).1
  count := irreducible.count
  positive := by rw [Canonical.negated?_grows owned grows irreducible.reads, irreducible.positive]
  varies := by
    obtain ⟨v, reads, varies⟩ := irreducible.varies
    exact ⟨v, reads, by rw [constant?_grows grows (irreducible.reads v reads), varies]⟩

/-- The order of the operands does not matter. -/
theorem Irreducible.ordered {op : Op} {args : List VarId} (irreducible : g.Irreducible op args) :
    g.Irreducible op (Canonical.ordered op args) where
  reads v member := irreducible.reads v (Canonical.mem_ordered.mp member)
  count := by rw [Canonical.ordered_length, irreducible.count]
  positive := by rw [Canonical.negated?_ordered, irreducible.positive]
  varies := by
    obtain ⟨v, reads, varies⟩ := irreducible.varies
    exact ⟨v, Canonical.mem_ordered.mpr reads, varies⟩

namespace Merged

theorem empty (float : Kind) : (Graph.empty float).Merged [] where
  toOwned := .empty float
  irreducible at_ := by simp [Graph.empty] at at_
  listed at_ := by simp [Graph.empty] at at_
  stands member := by cases member
  once member := by cases member

/-- What is noted stands in every larger graph. -/
theorem stands_grows (merged : g.Merged known) (grows : g.Grows g') {op : Op} {inputs : List VarId} {v : VarId}
    (member : ((op, inputs), v) ∈ known) : ∃ n, g'.producer? v = some n ∧ n.op = op ∧ n.inputs = inputs := by
  obtain ⟨n, produced, same⟩ := merged.stands member
  obtain ⟨x, i, atV, -⟩ := producer?_eq_some.mp produced
  have inRange := (Array.getElem?_eq_some_iff.mp atV).1
  exact ⟨n, by rw [merged.producer?_grows grows inRange, produced], same⟩

theorem pushLeaf (merged : g.Merged known) {x : Var} (isLeaf : x.isLeaf) : (g.pushLeaf x).1.Merged known where
  toOwned := merged.toOwned.pushLeaf isLeaf
  irreducible at_ := (merged.irreducible at_).grows merged.toOwned (pushLeaf_grows g x)
  listed := merged.listed
  stands := merged.stands_grows (pushLeaf_grows g x)
  once := merged.once

/-- An operation is added and noted. -/
theorem grown (merged : g.Merged known) {op : Op} {args : List VarId} (irreducible : g.Irreducible op args)
    (unknown : ∀ v, ((op, args), v) ∉ known) (ty : Ty) (place : Place) (mark : Option Nat) :
    (g.grown op args ty place mark).Merged (((op, args), g.vars.size) :: known) where
  toOwned := merged.toOwned.grown
  irreducible at_ := by
    rcases grown_nodes.mp at_ with old | ⟨-, rfl⟩
    · exact (merged.irreducible old).grows merged.toOwned (grown_grows ..)
    · exact irreducible.grows merged.toOwned (grown_grows ..)
  listed at_ := by
    rcases grown_nodes.mp at_ with old | ⟨-, rfl⟩
    · exact List.mem_cons_of_mem _ (merged.listed old)
    · exact List.mem_cons_self
  stands member := by
    rcases List.mem_cons.mp member with new | old
    · cases new
      exact ⟨_, merged.toOwned.grown.producer?_output (grown_nodes.mpr (.inr ⟨rfl, rfl⟩)), rfl, rfl⟩
    · exact merged.stands_grows (grown_grows ..) old
  once first second := by
    rcases List.mem_cons.mp first with new | old
    · cases new
      rcases List.mem_cons.mp second with new | old
      · cases new
        rfl
      · exact absurd old (unknown _)
    · rcases List.mem_cons.mp second with new | old'
      · cases new
        exact absurd old (unknown _)
      · exact merged.once old old'

/-- No operation is there twice. -/
theorem unique (merged : g.Merged known) {i j : NodeId} {m n : Node} (atI : g.nodes[i]? = some m)
    (atJ : g.nodes[j]? = some n) (op : m.op = n.op) (inputs : m.inputs = n.inputs) : i = j := by
  have listed := merged.listed atI
  rw [op, inputs] at listed
  exact merged.eq_of_output atI atJ (merged.once listed (merged.listed atJ))

/-- The operand of a double negation is that of a negation in the graph. -/
theorem negated (merged : g.Merged known) {op : Op} {args : List VarId} {w : VarId}
    (found : Canonical.negated? g op args = some w) : op = .unary .neg ∧ ∃ (rest : List VarId) (i : NodeId) (m : Node),
      g.nodes[i]? = some m ∧ args = m.output :: rest ∧ m.op = .unary .neg ∧ m.inputs = [w] := by
  obtain ⟨rfl, v, rest, m, rfl, produced, negates, head⟩ := Canonical.negated?_eq_some.mp found
  obtain ⟨⟨i, at_⟩, rfl⟩ := merged.of_producer? produced
  obtain ⟨u, inputs⟩ : ∃ u, m.inputs = [u] := by
    rw [← List.length_eq_one_iff, (merged.irreducible at_).count, negates]
    rfl
  rw [inputs] at head
  obtain rfl : u = w := Option.some.inj head
  exact ⟨rfl, rest, i, m, at_, rfl, negates, inputs⟩

/-- No negation has a negation as its operand. -/
theorem not_double (merged : g.Merged known) {i : NodeId} {n m : Node} (at_ : g.nodes[i]? = some n)
    (negates : n.op = .unary .neg) {v : VarId} (reads : v ∈ n.inputs) (produced : g.producer? v = some m) :
    m.op ≠ .unary .neg := by
  intro again
  obtain ⟨-, count, positive, -⟩ := merged.irreducible at_
  obtain ⟨⟨j, atJ⟩, -⟩ := merged.of_producer? produced
  obtain ⟨u, inputs⟩ : ∃ u, n.inputs = [u] := List.length_eq_one_iff.mp (by rw [count, negates]; rfl)
  obtain ⟨w, inputs'⟩ : ∃ w, m.inputs = [w] :=
    List.length_eq_one_iff.mp (by rw [(merged.irreducible atJ).count, again]; rfl)
  obtain rfl : v = u := by simpa [inputs] using reads
  have negated : Canonical.negated? g n.op n.inputs = some w :=
    Canonical.negated?_eq_some.mpr ⟨negates, v, [], m, inputs, produced, again, by rw [inputs']; rfl⟩
  cases positive.symm.trans negated

end Merged

end Graph

/-- A variable, or its negative. -/
structure Signed where
  negative : Bool
  var : VarId

def Signed.neg (s : Signed) : Signed := { s with negative := !s.negative }

theorem Signed.neg_neg (s : Signed) : s.neg.neg = s := by simp [Signed.neg]

namespace Rebuild

open Canonical

/-- The variable that is noted for an operation. -/
def lookup (r : Rebuild) (op : Op) (args : List VarId) : Option VarId :=
  (r.known.find? fun e => e.1 == (op, args)).map Prod.snd

/-- A variable of the new graph as one that is no negation, or the negative of one. -/
def signed (r : Rebuild) (w : VarId) : Signed :=
  match negated? r.graph (.unary .neg) [w] with
  | some u => ⟨true, u⟩
  | none => ⟨false, w⟩

/-- The variable that is meant, if it is in the new graph. -/
def unsigned (r : Rebuild) (s : Signed) : Option VarId :=
  if s.negative then r.lookup (.unary .neg) [s.var] else some s.var

/-- What stands for an operation on such operands. -/
def find (r : Rebuild) (op : Op) (args : List (Option Signed)) : Option Signed :=
  if op = .unary .neg then args.head?.join.map Signed.neg
  else (args.mapM fun x : Option Signed => x.bind r.unsigned).bind fun ws => (r.lookup op (ordered op ws)).map r.signed

/-- The variable stands for an operation with these operands. -/
def Found (r : Rebuild) (op : Op) (args : List VarId) (w : VarId) : Prop :=
  negated? r.graph op args = some w ∨ negated? r.graph op args = none ∧ ((op, ordered op args), w) ∈ r.known

variable {r r' : Rebuild}

theorem lookup_of_mem (merged : r.graph.Merged r.known) {op : Op} {args : List VarId} {w : VarId}
    (member : ((op, args), w) ∈ r.known) : r.lookup op args = some w := by
  unfold lookup
  cases found : r.known.find? fun e => e.1 == (op, args) with
  | none => exact absurd (List.find?_eq_none.mp found _ member) (by simp)
  | some e =>
    obtain ⟨key, v⟩ := e
    obtain rfl : key = (op, args) := by simpa using List.find?_some found
    rw [Option.map_some, merged.once member (List.mem_of_find?_eq_some found)]

theorem unsigned_signed (merged : r.graph.Merged r.known) (w : VarId) : r.unsigned (r.signed w) = some w := by
  unfold signed
  cases found : negated? r.graph (.unary .neg) [w] with
  | none => rfl
  | some u =>
    obtain ⟨-, rest, i, m, at_, single, op, inputs⟩ := merged.negated found
    obtain ⟨rfl, -⟩ := List.cons_eq_cons.mp single
    have listed := merged.listed at_
    rw [op, inputs] at listed
    exact lookup_of_mem merged listed

theorem signed_inj (merged : r.graph.Merged r.known) {v w : VarId} (same : r.signed v = r.signed w) : v = w := by
  have back := unsigned_signed merged v
  rw [same, unsigned_signed merged w] at back
  exact (Option.some.inj back).symm

theorem find_exchange (r : Rebuild) {f : Binary} (commutes : f.isCommutative) (a b : Option Signed) :
    r.find (.binary f) [a, b] = r.find (.binary f) [b, a] := by
  unfold find
  simp only [reduceCtorEq, ↓reduceIte, List.mapM_cons, List.mapM_nil]
  cases a.bind r.unsigned <;> cases b.bind r.unsigned <;> simp [ordered_swap commutes]

theorem find_cancel (r : Rebuild) (a : Option Signed) :
    r.find (.unary .neg) [r.find (.unary .neg) [a]] = a := by
  cases a <;> simp [find, Signed.neg_neg]

/-- What stands for an operation is in the new graph and no constant. -/
theorem Found.spec {op : Op} {args : List VarId} {w : VarId} (found : r.Found op args w)
    (merged : r.graph.Merged r.known) : w < r.graph.vars.size ∧ r.graph.constant? w = none := by
  rcases found with negated | ⟨-, member⟩
  · obtain ⟨-, -, i, m, at_, -, -, inputs⟩ := merged.negated negated
    obtain ⟨reads, -, -, v, member, varies⟩ := merged.irreducible at_
    rw [inputs] at reads member
    exact ⟨reads w (by simp), List.mem_singleton.mp member ▸ varies⟩
  · obtain ⟨n, produced, -⟩ := merged.stands member
    obtain ⟨x, i, atW, origin, -⟩ := Graph.producer?_eq_some.mp produced
    exact ⟨(Array.getElem?_eq_some_iff.mp atW).1, by simp [Graph.constant?, atW, Var.constant?, origin]⟩

theorem Found.grows {op : Op} {args : List VarId} {w : VarId} (found : r.Found op args w) (owned : r.graph.Owned)
    (inRange : ∀ v ∈ args, v < r.graph.vars.size) (grows : r.graph.Grows r'.graph) (more : r.known ⊆ r'.known) :
    r'.Found op args w := by
  have same : negated? r'.graph op args = negated? r.graph op args := negated?_grows owned grows inRange
  exact found.imp (fun negated => by rw [same, negated]) fun ⟨positive, member⟩ => ⟨by rw [same, positive], more member⟩

theorem signed_of_negated {v w : VarId} (found : negated? r.graph (.unary .neg) [v] = some w) :
    r.signed v = ⟨true, w⟩ := by rw [signed, found]

theorem signed_of_positive {w : VarId} (positive : negated? r.graph (.unary .neg) [w] = none) :
    r.signed w = ⟨false, w⟩ := by rw [signed, positive]

/-- What stands for an operation is found from its operands. -/
theorem Found.find_eq {op : Op} {args : List VarId} {w : VarId} (found : r.Found op args w)
    (merged : r.graph.Merged r.known) (count : args.length = op.arity) :
    r.find op (args.map fun a => some (r.signed a)) = some (r.signed w) := by
  by_cases negates : op = .unary .neg
  · subst negates
    obtain ⟨a, rfl⟩ := List.length_eq_one_iff.mp count
    have found' : r.find (.unary .neg) [some (r.signed a)] = some (r.signed a).neg := rfl
    rw [List.map_cons, List.map_nil, found', Option.some.injEq]
    rcases found with negated | ⟨positive, member⟩
    · -- The operand is a negation, of something that is none.
      obtain ⟨-, rest, i, m, at_, single, op, inputs⟩ := merged.negated negated
      have positive := (merged.irreducible at_).positive
      rw [op, inputs] at positive
      rw [signed_of_negated negated, signed_of_positive positive]
      rfl
    · -- The operand is no negation, and its negative is noted.
      obtain ⟨m, produced, op, inputs⟩ := merged.stands member
      have negated : negated? r.graph (.unary .neg) [w] = some a :=
        negated?_eq_some.mpr ⟨rfl, w, [], m, rfl, produced, op, by rw [inputs]; rfl⟩
      rw [signed_of_positive positive, signed_of_negated negated]
      rfl
  · have member : ((op, ordered op args), w) ∈ r.known := by
      rcases found with negated | ⟨-, member⟩
      · exact absurd (merged.negated negated).1 negates
      · exact member
    have operands : ((args.map fun a => some (r.signed a)).mapM fun x : Option Signed => x.bind r.unsigned) =
        some args := by
      rw [mapM_eq_some, List.forall₂_map_left_iff, List.forall₂_same]
      exact fun a _ => unsigned_signed merged a
    rw [find, if_neg negates, operands, Option.bind_some, lookup_of_mem merged member, Option.map_some]

end Rebuild

namespace Canonical

/-- A rebuild that merges what is equal. For each operation that is done there is what stands for it on the images of
its operands, and what varies stays no constant. -/
structure Shares (p : Program) (done : List Node) (r : Rebuild) : Prop where
  merged : r.graph.Merged r.known
  inRange : ∀ {v w : VarId}, r.image v = some w → w < r.graph.vars.size
  varies : ∀ {v w : VarId}, r.image v = some w → p.graph.constant? v = none → r.graph.constant? w = none
  domain : ∀ {v w : VarId}, r.image v = some w →
    (∃ x, p.graph.vars[v]? = some x ∧ x.isLeaf) ∨ ∃ n ∈ done, n.output = v
  found : ∀ n ∈ done, ∃ args w, List.Forall₂ (fun v w => r.image v = some w) n.inputs args ∧
    r.image n.output = some w ∧ r.Found n.op args w

namespace Shares

variable {c : Context} {p : Program} {d : Discipline} {done : List Node} {r : Rebuild}

theorem start (p : Program) : Shares p [] (.start p) where
  merged := .empty p.graph.float
  inRange at_ := by cases at_
  varies at_ := by cases at_
  domain at_ := by cases at_
  found n member := by cases member

/-- What was found stays so when the rebuild goes on. -/
theorem found_grows (shares : Shares p done r) {r' : Rebuild} (grows : r.Grows r') (more : r.known ⊆ r'.known) :
    ∀ n ∈ done, ∃ args w, List.Forall₂ (fun v w => r'.image v = some w) n.inputs args ∧
      r'.image n.output = some w ∧ r'.Found n.op args w := by
  intro n member
  obtain ⟨args, w, images, output, found⟩ := shares.found n member
  refine ⟨args, w, images.imp fun _ _ at_ => grows.image at_, grows.image output, ?_⟩
  refine found.grows shares.merged.toOwned (fun v reads => ?_) grows.graph more
  obtain ⟨u, -, image⟩ := partner_of images reads
  exact shares.inRange image

/-- One more variable has an image in a graph that has grown. -/
theorem bound (shares : Shares p done r) {s : Rebuild} (grows : r.Grows s) (image : s.image = r.image)
    (more : r.known ⊆ s.known) (merged : s.graph.Merged s.known) {v w : VarId} (unread : r.image v = none)
    (inRange : w < s.graph.vars.size) (varies : p.graph.constant? v = none → s.graph.constant? w = none)
    {done' : List Node} (origin : (∃ x, p.graph.vars[v]? = some x ∧ x.isLeaf) ∨ ∃ n ∈ done', n.output = v)
    (kept : done ⊆ done') (found : ∀ n ∈ done', n ∈ done ∨ n.output = v ∧
      ∃ args, List.Forall₂ (fun v w => r.image v = some w) n.inputs args ∧ s.Found n.op args w) :
    Shares p done' (s.imaged v w) := by
  have old : ∀ {u z : VarId}, r.image u = some z → (s.imaged v w).image u = some z := fun at_ => by
    rw [← image] at unread at_
    exact Rebuild.image_bound unread w at_
  have cases_ : ∀ {u z : VarId}, (s.imaged v w).image u = some z → u = v ∧ z = w ∨ r.image u = some z := by
    intro u z at_
    by_cases same : u = v
    · rw [same, Rebuild.imaged_self] at at_
      exact .inl ⟨same, (Option.some.inj at_).symm⟩
    · rw [Rebuild.imaged_other same, image] at at_
      exact .inr at_
  refine ⟨merged, fun {u z} at_ => ?_, fun {u z} at_ => ?_, fun {u z} at_ => ?_, fun n member => ?_⟩
  · rcases cases_ at_ with ⟨rfl, rfl⟩ | at_
    · exact inRange
    · have atZ := Array.getElem?_eq_getElem (shares.inRange at_)
      exact (Array.getElem?_eq_some_iff.mp (grows.graph.vars atZ)).1
  · rcases cases_ at_ with ⟨rfl, rfl⟩ | at_
    · exact varies
    · intro varies
      exact (Graph.constant?_grows grows.graph (shares.inRange at_)).trans (shares.varies at_ varies)
  · rcases cases_ at_ with ⟨rfl, rfl⟩ | at_
    · exact origin
    · exact (shares.domain at_).imp_right fun ⟨n, member, output⟩ => ⟨n, kept member, output⟩
  · rcases found n member with before | ⟨output, args, images, found⟩
    · have grown : r.Grows (s.imaged v w) := ⟨grows.graph, old⟩
      exact shares.found_grows grown more n before
    · exact ⟨args, w, images.imp fun _ _ => old, by rw [output, Rebuild.imaged_self], found⟩

theorem copying (p : Program) (done : List Node) : p.Copying (Shares p done) := by
  intro r v x shares unread atV isLeaf
  have last : (r.graph.pushLeaf x).1.vars[r.graph.vars.size]? = some x := Array.getElem?_push_size
  refine shares.bound (s := ⟨(r.graph.pushLeaf x).1, r.image, r.known⟩) ⟨Graph.pushLeaf_grows r.graph x, id⟩ rfl
    (List.Subset.refl _) (shares.merged.pushLeaf isLeaf) unread (Array.getElem?_eq_some_iff.mp last).1 ?_
    (.inl ⟨x, atV, isLeaf⟩) (List.Subset.refl _) fun n member => .inl member
  rw [Graph.constant?, atV, Graph.constant?, last]
  exact id

/-- The variable that stands for an operation on the images of its operands becomes the image of its result. -/
theorem next (shares : Shares p done r) {s : Rebuild} (grows : r.Grows s) (image : s.image = r.image)
    (more : r.known ⊆ s.known) (merged : s.graph.Merged s.known) {n : Node} (unread : r.image n.output = none)
    {args : List VarId} (images : List.Forall₂ (fun v w => r.image v = some w) n.inputs args) {w : VarId}
    (found : s.Found n.op args w) : Shares p (done ++ [n]) (s.imaged n.output w) := by
  obtain ⟨inRange, varies⟩ := found.spec merged
  refine shares.bound grows image more merged unread inRange (fun _ => varies) (.inr ⟨n, by simp, rfl⟩)
    (List.subset_append_left _ _) fun m member => ?_
  rcases List.mem_append.mp member with before | last
  · exact .inl before
  · rw [List.mem_singleton.mp last]
    exact .inr ⟨rfl, args, images, found⟩

/-- A step finds what stands for the next operation, or adds it. -/
theorem step (valid : p.Valid d) (varying : ∀ n ∈ p.liveNodes, ∃ v ∈ n.inputs, p.graph.constant? v = none)
    {before after : List Node} {n : Node} (split : p.liveNodes = before ++ n :: after) (shares : Shares p before r) :
    (Canonical.step c p n).Meets r (fun _ => True) fun _ r' => Shares p (before ++ [n]) r' := by
  have live : n ∈ p.liveNodes := by simp [split]
  obtain ⟨tys, ty, x, known⟩ := valid.operation live
  refine (step_outcome (copying p before) shares n).mono ?_
  rintro _ r' ⟨args, r₁, shares₁, -, images, outcome⟩
  have unread : r₁.image n.output = none := by
    refine Rebuild.unread_of_domain shares₁.domain (fun y atOutput => ?_) ?_
    · obtain rfl : x = y := Option.some.inj (known.atOutput.symm.trans atOutput)
      exact known.notLeaf
    · exact fun m member => Nat.ne_of_lt (valid.graph.live_earlier split m member)
  have varies : ∃ v ∈ args, r₁.graph.constant? v = none := by
    obtain ⟨v, reads, varies⟩ := varying n live
    obtain ⟨w, member, image⟩ := partner images reads
    exact ⟨w, member, shares₁.varies image varies⟩
  cases outcome with
  | negated found => exact shares₁.next (.refl r₁) rfl (List.Subset.refl _) shares₁.merged unread images (.inl found)
  | folded positive fold =>
    obtain ⟨v, reads, varies⟩ := varies
    cases fold.symm.trans (fold?_of_varying _ _ _ (mem_ordered.mpr reads) varies)
  | shared positive _ member =>
    exact shares₁.next (.refl r₁) rfl (List.Subset.refl _) shares₁.merged unread images (.inr ⟨positive, member⟩)
  | @added _ ty' positive _ unknown _ _ =>
    have irreducible : r₁.graph.Irreducible n.op args := by
      refine ⟨fun v reads => ?_, ?_, positive, varies⟩
      · obtain ⟨u, -, image⟩ := partner_of images reads
        exact shares₁.inRange image
      · rw [← images.length_eq, known.count]
    have merged := shares₁.merged.grown irreducible.ordered unknown ty' n.place n.inPlace
    refine shares₁.next (s := ⟨_, _, _⟩) ⟨Graph.grown_grows .., id⟩ rfl (List.subset_cons_self _ _) merged unread images
      (.inr ⟨?_, List.mem_cons_self⟩)
    rw [negated?_grows shares₁.merged.toOwned (Graph.grown_grows ..) irreducible.reads, positive]

/-- Nothing is folded, so that it does not matter which kernels there are and what the limit is. -/
theorem step_context (shares : Shares p done r) {n : Node} (varying : ∃ v ∈ n.inputs, p.graph.constant? v = none)
    (c c' : Context) : Canonical.step c p n r = Canonical.step c' p n r := by
  unfold Canonical.step
  rw [bind_apply, bind_apply]
  cases ran : Rebuild.readAll p n.inputs r with
  | error e => rfl
  | ok result =>
    obtain ⟨args, r₁⟩ := result
    obtain ⟨shares₁, -, images⟩ := (Rebuild.readAll_keeps (copying p done) shares n.inputs).of_ok ran
    have unfolded : ∀ c : Context,
        fold? c.kernels c.config.foldLimit r₁.graph n.op (ordered n.op args) = .ok none := by
      obtain ⟨v, reads, varies⟩ := varying
      obtain ⟨w, member, image⟩ := partner images reads
      exact fun c => fold?_of_varying _ _ _ (mem_ordered.mpr member) (shares₁.varies image varies)
    rw [ok_bind, ok_bind, get_bind, get_bind]
    cases negated? r₁.graph n.op args with
    | some w => rfl
    | none => simp only [get_bind, lift_bind, unfolded, ok_bind]

/-- An expression is found under the image of the variable that it computes. -/
theorem eval_term (shares : Shares p p.liveNodes r) (valid : p.Valid d) {v w : VarId} (image : r.image v = some w) :
    (p.graph.term v).eval (fun v => (r.image v).map r.signed) r.find = some (r.signed w) := by
  induction v using Nat.strong_induction_on generalizing w with
  | _ v ih =>
    rcases shares.domain image with ⟨x, atV, isLeaf⟩ | ⟨n, live, rfl⟩
    · rw [Graph.term_leaf atV isLeaf, Term.eval, image, Option.map_some]
    have at_ := valid.graph.live_mem live
    obtain ⟨args, w', images, output, found⟩ := shares.found n live
    obtain rfl : w = w' := Option.some.inj (image.symm.trans output)
    have operands : n.inputs.map (fun u => (p.graph.term u).eval (fun v => (r.image v).map r.signed) r.find) =
        args.map fun a => some (r.signed a) := by
      rw [← List.forall₂_eq_eq_eq, List.forall₂_map_left_iff, List.forall₂_map_right_iff]
      have earlier := (List.forall₂_and_left _ _).mpr ⟨(valid.graph.node at_).reads, images⟩
      exact earlier.imp fun u a held => ih u held.1 held.2
    rw [valid.graph.term_output at_, Term.eval, List.map_map]
    have count : args.length = n.op.arity := by
      obtain ⟨tys, ty, x, known⟩ := valid.operation live
      rw [← images.length_eq, known.count]
    exact (congrArg (r.find n.op) operands).trans (found.find_eq shares.merged count)

end Shares

variable {p : Program}

/-- The steps of two contexts agree as long as nothing can be folded. -/
theorem Shares.step_agree {d : Discipline} (valid : p.Valid d)
    (varying : ∀ n ∈ p.liveNodes, ∃ v ∈ n.inputs, p.graph.constant? v = none) (c c' : Context)
    {before after : List Node} {n : Node} {r : Rebuild} (split : p.liveNodes = before ++ n :: after)
    (shares : Shares p before r) : Agree (fun a b => a.2 = b.2 ∧ Shares p (before ++ [n]) a.2)
      (Canonical.step c p n r) (Canonical.step c' p n r) := by
  rw [shares.step_context (varying n (by simp [split])) c c']
  have met := shares.step (c := c') valid varying split
  unfold Rebuilding.Meets at met
  cases ran : Canonical.step c' p n r with
  | error e => trivial
  | ok result =>
    rw [ran] at met
    exact ⟨rfl, met⟩

/-- A program in which nothing can be folded has a canonical form, whatever the kernels do. -/
theorem exists_rebuilding {stores : Cell → Prop} (valid : p.Valid (.storing stores))
    (varying : ∀ n ∈ p.liveNodes, ∃ v ∈ n.inputs, p.graph.constant? v = none) (c : Context) :
    ∃ q r, p.rebuilding (step c p) = .ok (q, r) := by
  have paired : ∀ done, p.Pairs fun r r' => r = r' ∧ Shares p done r := fun done => {
    graph := fun held => congrArg Rebuild.graph held.1
    image := fun held => congrArg Rebuild.image held.1
    copied := by
      rintro r _ v x ⟨rfl, shares⟩ unread atV isLeaf
      exact ⟨rfl, Shares.copying p done shares unread atV isLeaf⟩ }
  have agree : Agree (fun a b => a.1 = b.1 ∧ a.2 = b.2 ∧ Shares p p.liveNodes a.2)
      (p.rebuilding (step { c with kernels := .host } p)) (p.rebuilding (step c p)) := by
    refine Program.rebuilding_agree paired ⟨rfl, .start p⟩ fun {before after n r r'} split held => ?_
    obtain ⟨rfl, shares⟩ := held
    exact shares.step_agree valid varying _ _ split
  have canonical : (p.rebuilding (step { c with kernels := .host } p)).isOk := by
    have met := rebuilding_storing (c := { c with kernels := .host }) valid rfl
      (False.elim : False → p.graph.Binds (p.bind [] #[])) False.elim
    revert met
    cases p.rebuilding (step { c with kernels := .host } p) with
    | error e => exact fun failed => absurd failed.2 (Program.not_overflows valid varying)
    | ok result => exact fun _ => rfl
  obtain ⟨⟨q, r⟩, ran⟩ := exists_of_isOk (agree.isOk ▸ canonical)
  exact ⟨q, r, ran⟩

/-- Of a program in which nothing can be folded, the canonical form shares all that is equal: live operations whose
expressions are the same, up to the order of the operands of commutative functions and double negations, become one
variable. No operation stands twice on the same operands, and none changes the sign of a change of sign. -/
theorem canonical_shares_all (arises : p.graph.Arises) (accepted : p.validate = .ok ())
    (varying : ∀ n ∈ p.liveNodes, ∃ v ∈ n.inputs, p.graph.constant? v = none) (c : Context) :
    ∃ q r, p.rebuilding (step c p) = .ok (q, r) ∧ run c p = .ok q ∧
      (∀ m ∈ p.liveNodes, ∀ n ∈ p.liveNodes, (p.graph.term m.output).Same (p.graph.term n.output) →
        ∃ w, r.image m.output = some w ∧ r.image n.output = some w) ∧
      (∀ (i j : NodeId) (m n : Node), q.graph.nodes[i]? = some m → q.graph.nodes[j]? = some n → m.op = n.op →
        m.inputs = n.inputs → i = j) ∧
      ∀ (i : NodeId) (n m : Node) (v : VarId), q.graph.nodes[i]? = some n → n.op = .unary .neg → v ∈ n.inputs →
        q.graph.producer? v = some m → m.op ≠ .unary .neg := by
  have valid := (Program.valid_of_arises arises accepted).storing trivial
  obtain ⟨q, r, ran⟩ := exists_rebuilding valid varying c
  obtain ⟨shares, graph, -⟩ := Program.rebuilding_keeps (Shares p) (.start p) (Shares.copying p)
    (fun split shares => shares.step valid varying split) ran
  refine ⟨q, r, ran, by rw [run, Program.rebuild_eq_rebuilding, ran]; rfl, fun m liveM n liveN same => ?_, ?_, ?_⟩
  · obtain ⟨-, w, -, imageM, -⟩ := shares.found m liveM
    obtain ⟨-, w', -, imageN, -⟩ := shares.found n liveN
    have one : some (r.signed w) = some (r.signed w') := by
      rw [← shares.eval_term valid imageM, ← shares.eval_term valid imageN]
      exact same.eval_eq (fun _ commutes => r.find_exchange commutes) r.find_cancel
    obtain rfl := Rebuild.signed_inj shares.merged (Option.some.inj one)
    exact ⟨w, imageM, imageN⟩
  · rw [graph]
    exact fun i j m n atI atJ => shares.merged.unique atI atJ
  · rw [graph]
    exact fun i n m v at_ negates reads produced => shares.merged.not_double at_ negates reads produced

/-- The negative of a sum times a vector, and the vector times the sum in the other order with its sign changed three
times. -/
def oppositeProducts : Program :=
  let x := ((Graph.empty .f32).input { kind := .i32, rank := 1 } none).1
  let y := (x.input { kind := .i32, rank := 1 } none).1
  let sum := (y.apply (.binary .add) [0, 1]).1
  let negated := (sum.apply (.unary .neg) [2]).1
  let product := (negated.apply (.binary .mul) [3, 0]).1
  let turned := (product.apply (.binary .add) [1, 0]).1
  let once := (turned.apply (.unary .neg) [5]).1
  let twice := (once.apply (.unary .neg) [6]).1
  let thrice := (twice.apply (.unary .neg) [7]).1
  ⟨(thrice.apply (.binary .mul) [0, 8]).1, [0, 1], [4, 9], []⟩

theorem built_oppositeProducts : oppositeProducts.graph.Built :=
  .apply (.apply (.apply (.apply (.apply (.apply (.apply (.apply (.input (.input (.empty _) _ _) _ _)
    _ _) _ _) _ _) _ _) _ _) _ _) _ _) _ _

/-- The two products are the same expression. -/
theorem same_oppositeProducts : (oppositeProducts.graph.term 4).Same (oppositeProducts.graph.term 9) := by
  have first : oppositeProducts.graph.term 4 = .node (.binary .mul)
      [.node (.unary .neg) [.node (.binary .add) [.leaf 0, .leaf 1]], .leaf 0] := by cbv
  have second : oppositeProducts.graph.term 9 = .node (.binary .mul) [.leaf 0, .node (.unary .neg)
      [.node (.unary .neg) [.node (.unary .neg) [.node (.binary .add) [.leaf 1, .leaf 0]]]]] := by cbv
  rw [first, second]
  have sums : Term.Same (.node (.unary .neg) [.node (.binary .add) [.leaf 0, .leaf 1]])
      (.node (.unary .neg) [.node (.binary .add) [.leaf 1, .leaf 0]]) := .within _ [] [] (.exchange rfl _ _)
  exact (Term.Same.exchange rfl _ _).trans (.within _ [_] [] (sums.trans (Term.Same.cancel _).symm))

section

open scoped BlockRoutine

/-- The products are one variable, and the other operations that are left make the sum and change its sign. -/
theorem canonical_shares_all_oppositeProducts : ∃ q r w,
    oppositeProducts.rebuilding (step (.first (.sim 0)) oppositeProducts) = .ok (q, r) ∧
    run (.first (.sim 0)) oppositeProducts = .ok q ∧ (oppositeProducts.nodeCount, q.nodeCount) = (8, 3) ∧
    r.image 4 = some w ∧ r.image 9 = some w := by
  obtain ⟨q, r, ran, canonical, shares, -⟩ := canonical_shares_all built_oppositeProducts.arises (by decide +kernel)
    (by decide +kernel) (.first (.sim 0))
  have outputs : oppositeProducts.liveNodes.map Node.output = [2, 3, 4, 5, 6, 7, 8, 9] := by decide +kernel
  obtain ⟨m, liveM, atM⟩ : ∃ m ∈ oppositeProducts.liveNodes, m.output = 4 :=
    List.mem_map.mp (by rw [outputs]; decide)
  obtain ⟨n, liveN, atN⟩ : ∃ n ∈ oppositeProducts.liveNodes, n.output = 9 :=
    List.mem_map.mp (by rw [outputs]; decide)
  obtain ⟨w, imageM, imageN⟩ := shares m liveM n liveN (by rw [atM, atN]; exact same_oppositeProducts)
  have size : (run (.first (.sim 0)) oppositeProducts).toOption.map Program.nodeCount = some 3 := by
    decide +kernel
  rw [canonical] at size
  exact ⟨q, r, w, ran, canonical, Prod.ext rfl (Option.some.inj size), atM ▸ imageM, atN ▸ imageN⟩

end

end Canonical

end TensorGraph
