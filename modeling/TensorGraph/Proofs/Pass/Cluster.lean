import TensorGraph.Proofs.Graph.Live
import TensorGraph.Proofs.Graph.Value
import TensorGraph.Proofs.Kernel.Fusable

/-! Elementwise operations that are computed together. The result of such a cluster has a value exactly when
the variables that the cluster loads have values of one kind whose shapes agree, and each place of it
depends on these alone. -/
namespace TensorGraph

open Checked

namespace Fusion

/-- The operations that are computed together with one of them. -/
inductive Cluster (g : Graph) (absorbed : List VarId) : Node → Node → Prop where
  | self (n : Node) : Cluster g absorbed n n
  | inner {n m k : Node} {v : VarId} (reads : v ∈ n.inputs) (inside : v ∈ absorbed)
    (produced : g.producer? v = some m) (rest : Cluster g absorbed m k) : Cluster g absorbed n k

/-- The variables that a cluster loads. -/
def Loads (g : Graph) (absorbed : List VarId) (n : Node) (v : VarId) : Prop :=
  ∃ m, Cluster g absorbed n m ∧ v ∈ m.inputs ∧ v ∉ absorbed

/-- What is computed inside another expression is the result of an operation of some sort. -/
def Absorbing (g : Graph) (absorbed : List VarId) (sort : Op → Prop) : Prop :=
  ∀ v ∈ absorbed, ∃ m, g.producer? v = some m ∧ sort m.op

variable {g : Graph} {d : Discipline} {absorbed : List VarId} {sort : Op → Prop}

theorem loads_iff (absorbing : Absorbing g absorbed sort) {n : Node} {v : VarId} :
    Loads g absorbed n v ↔ ∃ u ∈ n.inputs, (u ∉ absorbed ∧ u = v) ∨
      (u ∈ absorbed ∧ ∃ m, g.producer? u = some m ∧ sort m.op ∧ Loads g absorbed m v) := by
  constructor
  · rintro ⟨k, cluster, reads, outside⟩
    cases cluster with
    | self => exact ⟨v, reads, .inl ⟨outside, rfl⟩⟩
    | @inner _ m _ u readsU inside produced rest =>
      obtain ⟨m', produced', held⟩ := absorbing u inside
      obtain rfl : m = m' := Option.some.inj (produced.symm.trans produced')
      exact ⟨u, readsU, .inr ⟨inside, m, produced, held, k, rest, reads, outside⟩⟩
  · rintro ⟨u, readsU, ⟨outside, rfl⟩ | ⟨inside, m, produced, -, k, cluster, reads, outside⟩⟩
    · exact ⟨n, .self n, readsU, outside⟩
    · exact ⟨k, .inner readsU inside produced cluster, reads, outside⟩

theorem cluster_sort (absorbing : Absorbing g absorbed sort) {n m : Node}
    (cluster : Cluster g absorbed n m) (first : sort n.op) : sort m.op := by
  induction cluster with
  | self n => exact first
  | inner _ inside produced _ ih =>
    obtain ⟨m', produced', held⟩ := absorbing _ inside
    obtain rfl := Option.some.inj (produced.symm.trans produced')
    exact ih held

/-- A fact about operations that passes from the operands to the result passes through clusters. -/
theorem cluster_induction (sound : g.Sound d) {motive : Node → Prop}
    (step : ∀ n : Node, g.nodes[n.id]? = some n →
      (∀ u ∈ n.inputs, ∀ m, g.producer? u = some m → motive m) → motive n) {n : Node}
    (at_ : g.nodes[n.id]? = some n) : motive n := by
  induction out : n.output using Nat.strong_induction_on generalizing n with
  | _ v ih =>
    refine step n at_ fun u reads m produced => ?_
    obtain ⟨atM, output⟩ := sound.of_producer? produced
    have before := (sound.node at_).reads u reads
    exact ih u (out ▸ before) atM output

theorem inputs_length (sound : g.Sound d) {n : Node} (at_ : g.nodes[n.id]? = some n) :
    n.inputs.length = n.op.arity := by
  obtain ⟨-, -, -, tys, ty, x, types, inferred, -⟩ := sound.node at_
  obtain ⟨first, rest, rfl, count, -⟩ := Op.infer_eq_ok.mp inferred
  exact types.length_eq.trans count

section Types

/-- The kind and the rank of a variable. -/
def Typed (g : Graph) (v : VarId) (k : Kind) (rank : Nat) : Prop :=
  ∃ x, g.vars[v]? = some x ∧ x.ty.kind = k ∧ x.ty.rank = rank

theorem Typed.unique {v : VarId} {k k' : Kind} {rank rank' : Nat} (first : Typed g v k rank)
    (second : Typed g v k' rank') : k = k' ∧ rank = rank' := by
  obtain ⟨x, atV, rfl, rfl⟩ := first
  obtain ⟨y, atV', rfl, rfl⟩ := second
  obtain rfl : x = y := Option.some.inj (atV.symm.trans atV')
  exact ⟨rfl, rfl⟩

theorem foldRank_fits {op : Op} {a r : Nat} {ts : List Ty} (folded : foldRank op a ts = .ok r) :
    (a = r ∨ a = 0) ∧ (∀ t ∈ ts, t.rank = r ∨ t.rank = 0) ∧ (a = r ∨ ∃ t ∈ ts, t.rank = r) := by
  induction ts generalizing a with
  | nil =>
    cases folded
    exact ⟨.inl rfl, by simp, .inl rfl⟩
  | cons t ts ih =>
    simp only [foldRank, broadcastRank?] at folded
    by_cases left : a = t.rank ∨ t.rank = 0
    · rw [if_pos left] at folded
      obtain ⟨head, tail, whole⟩ := ih folded
      refine ⟨head, ?_, ?_⟩
      · intro u member
        rcases List.mem_cons.mp member with rfl | later
        · rcases left with same | none
          · rwa [← same]
          · exact .inr none
        · exact tail u later
      · rcases whole with same | ⟨u, member, same⟩
        · exact .inl same
        · exact .inr ⟨u, List.mem_cons_of_mem _ member, same⟩
    · rw [if_neg left] at folded
      by_cases right : a = 0
      · rw [if_pos right] at folded
        obtain ⟨head, tail, whole⟩ := ih folded
        refine ⟨.inr right, ?_, .inr ?_⟩
        · intro u member
          rcases List.mem_cons.mp member with rfl | later
          · exact head
          · exact tail u later
        · rcases whole with same | ⟨u, member, same⟩
          · exact ⟨t, by simp, same⟩
          · exact ⟨u, List.mem_cons_of_mem _ member, same⟩
      · rw [if_neg right] at folded
        cases folded

/-- The rank of an elementwise result goes by the ranks of all operands. -/
theorem foldRank_of_infer {op : Op} (fusable : op.isFusable) {first : Ty} {rest : List Ty} {r : Nat}
    (count : (first :: rest).length = op.arity) (ran : op.inferRank first rest = .ok r) :
    foldRank op first.rank rest = .ok r := by
  cases op with
  | fused e => exact ran
  | binary f => exact ran
  | unary f =>
    obtain rfl : rest = [] := by simpa [Op.arity] using count
    exact ran
  | _ => exact absurd fusable Bool.false_ne_true

/-- The operands of an elementwise operation have the kind of its result, and its rank or no axes. -/
theorem operands_typed (sound : g.Sound d) {n : Node} (at_ : g.nodes[n.id]? = some n)
    (fusable : n.op.isFusable) {k : Kind} {rank : Nat} (typed : Typed g n.output k rank) :
    (∀ u ∈ n.inputs, ∃ r, Typed g u k r ∧ (r = rank ∨ r = 0)) ∧
      (∃ u ∈ n.inputs, Typed g u k rank) ∧ n.op.accepts k = .ok () := by
  obtain ⟨-, -, -, tys, ty, x, types, inferred, atOutput, placed, -⟩ := sound.node at_
  obtain ⟨y, atOutput', rfl, rfl⟩ := typed
  obtain rfl : x = y := Option.some.inj (atOutput.symm.trans atOutput')
  obtain ⟨first, rest, rfl, count, same, accepted, rankOf, kindOf, -⟩ := Op.infer_eq_ok.mp inferred
  have kind : x.ty.kind = first.kind := by
    rw [placed]
    exact kindOf.trans (Op.resultKind_of_fusable fusable _)
  have rank : x.ty.rank = ty.rank := by
    rw [placed]
    rfl
  obtain ⟨head, tail, whole⟩ := foldRank_fits (foldRank_of_infer fusable count rankOf)
  refine ⟨?_, ?_, by rw [kind]; exact accepted⟩
  · intro u reads
    obtain ⟨t, member, y, atU, rfl⟩ := partner types reads
    refine ⟨y.ty.rank, ⟨y, atU, (same _ member).trans kind.symm, rfl⟩, ?_⟩
    rw [rank]
    rcases List.mem_cons.mp member with isFirst | later
    · rw [isFirst]
      exact head
    · exact tail _ later
  · obtain ⟨t, member, rankT⟩ : ∃ t ∈ first :: rest, t.rank = ty.rank := by
      rcases whole with isFirst | ⟨t, later, equal⟩
      · exact ⟨first, by simp, isFirst⟩
      · exact ⟨t, List.mem_cons_of_mem _ later, equal⟩
    obtain ⟨u, reads, y, atU, rfl⟩ := partner_of types member
    exact ⟨u, reads, y, atU, (same _ member).trans kind.symm, rankT.trans rank.symm⟩

/-- What a cluster loads has the kind of its result, and its rank or no axes. -/
theorem loads_typed (sound : g.Sound d) (absorbing : Absorbing g absorbed (·.isFusable)) {n : Node}
    (at_ : g.nodes[n.id]? = some n) (fusable : n.op.isFusable) {k : Kind} {rank : Nat}
    (typed : Typed g n.output k rank) :
    (∀ v, Loads g absorbed n v → ∃ r, Typed g v k r ∧ (r = rank ∨ r = 0)) ∧
      ∃ v, Loads g absorbed n v ∧ Typed g v k rank := by
  revert fusable k rank
  refine cluster_induction sound (motive := fun n => n.op.isFusable → ∀ {k : Kind} {rank : Nat},
    Typed g n.output k rank →
    (∀ v, Loads g absorbed n v → ∃ r, Typed g v k r ∧ (r = rank ∨ r = 0)) ∧
      ∃ v, Loads g absorbed n v ∧ Typed g v k rank) ?_ at_
  intro n at_ ih fusable k rank typed
  obtain ⟨operands, ⟨w, readsW, typedW⟩, -⟩ := operands_typed sound at_ fusable typed
  constructor
  · intro v loads
    obtain ⟨u, reads, ⟨-, rfl⟩ | ⟨-, m, produced, fusableM, inner⟩⟩ := (loads_iff absorbing).mp loads
    · exact operands u reads
    · obtain ⟨-, rfl⟩ := sound.of_producer? produced
      obtain ⟨r, typedM, fits⟩ := operands _ reads
      obtain ⟨r', typedV, fits'⟩ := (ih _ reads m produced fusableM typedM).1 v inner
      refine ⟨r', typedV, ?_⟩
      rcases fits' with rfl | none
      · exact fits
      · exact .inr none
  · by_cases inside : w ∈ absorbed
    · obtain ⟨m, produced, fusableM⟩ := absorbing w inside
      obtain ⟨-, rfl⟩ := sound.of_producer? produced
      obtain ⟨v, loads, typedV⟩ := (ih _ readsW m produced fusableM typedW).2
      exact ⟨v, (loads_iff absorbing).mpr
        ⟨_, readsW, .inr ⟨inside, m, produced, fusableM, loads⟩⟩, typedV⟩
    · exact ⟨w, (loads_iff absorbing).mpr ⟨w, readsW, .inl ⟨inside, rfl⟩⟩, typedW⟩

end Types

section Values

/-- A value of that kind whose shape goes with results of that shape. -/
def Fits (value : VarId → Option Tensor) (k : Kind) (s : Shape) (v : VarId) : Prop :=
  ∃ t, value v = some t ∧ t.kind = k ∧ (t.shape = s ∨ t.shape = [])

variable {math : MathMode} {value : VarId → Option Tensor} {k : Kind} {s : Shape}

/-- The values of a graph: every operation gives its result for the values of its operands. -/
def Valued [BlockRoutine] (g : Graph) (math : MathMode) (value : VarId → Option Tensor) : Prop :=
  ∀ n : Node, g.nodes[n.id]? = some n →
    value n.output = (n.inputs.mapM value).bind fun ts => (n.op.eval math ts).toOption

theorem toOption_eq_some {x : Except Error Tensor} {t : Tensor} : x.toOption = some t ↔ x = .ok t := by
  cases x <;> simp [Except.toOption]

variable [BlockRoutine]

theorem value_eq_some (valued : Valued g math value) {n : Node} (at_ : g.nodes[n.id]? = some n) {r : Tensor} :
    value n.output = some r ↔ ∃ ts, n.inputs.mapM value = some ts ∧ n.op.eval math ts = .ok r := by
  simp only [valued n at_, Option.bind_eq_some_iff, toOption_eq_some]

/-- An elementwise result fits exactly when its operands do. -/
theorem operands_fit (sound : g.Sound d) (valued : Valued g math value) {n : Node}
    (at_ : g.nodes[n.id]? = some n) (fusable : n.op.isFusable) {rank : Nat} (typed : Typed g n.output k rank) :
    Fits value k s n.output ↔ ∀ u ∈ n.inputs, Fits value k s u := by
  constructor
  · rintro ⟨r, atN, rfl, fits⟩ u reads
    obtain ⟨ts, operands, ran⟩ := (value_eq_some valued at_).mp atN
    obtain ⟨t, member, atU⟩ := partner (mapM_eq_some.mp operands) reads
    obtain ⟨kind, shape⟩ := (Op.fusable_operands fusable ran).1 t member
    refine ⟨t, atU, kind, ?_⟩
    rcases shape with same | none
    · rwa [same]
    · exact .inr none
  · intro each
    obtain ⟨-, ⟨u, reads, -⟩, accepted⟩ := operands_typed sound at_ fusable typed
    obtain ⟨ts, operands⟩ := exists_mapM fun v member => (each v member).imp fun _ h => h.1
    have values := mapM_eq_some.mp operands
    have count : ts.length = n.op.arity := values.length_eq.symm.trans (inputs_length sound at_)
    have given : ts ≠ [] := by
      rintro rfl
      obtain ⟨t, none, -⟩ := partner values reads
      cases none
    obtain ⟨r, ran, kind, shape⟩ := Op.eval_fusable fusable accepted count given (fun t member => by
      obtain ⟨v, inInputs, atV⟩ := partner_of values member
      obtain ⟨t', atV', fits⟩ := each v inInputs
      obtain rfl : t = t' := Option.some.inj (atV.symm.trans atV')
      exact fits) math
    exact ⟨r, (value_eq_some valued at_).mpr ⟨ts, operands, ran⟩, kind, shape⟩

/-- An elementwise result has the shape of one of its operands. -/
theorem operand_shape (valued : Valued g math value) {n : Node} (at_ : g.nodes[n.id]? = some n)
    (fusable : n.op.isFusable) {r : Tensor} (atN : value n.output = some r) :
    ∃ u ∈ n.inputs, ∃ t, value u = some t ∧ t.shape = r.shape := by
  obtain ⟨ts, operands, ran⟩ := (value_eq_some valued at_).mp atN
  obtain ⟨-, t, member, shape⟩ := Op.fusable_operands fusable ran
  obtain ⟨u, reads, atU⟩ := partner_of (mapM_eq_some.mp operands) member
  exact ⟨u, reads, t, atU, shape⟩

/-- The result of a cluster fits exactly when all that it loads does. -/
theorem loads_fit (sound : g.Sound d) (absorbing : Absorbing g absorbed (·.isFusable))
    (valued : Valued g math value) {n : Node} (at_ : g.nodes[n.id]? = some n) (fusable : n.op.isFusable)
    {rank : Nat} (typed : Typed g n.output k rank) :
    Fits value k s n.output ↔ ∀ v, Loads g absorbed n v → Fits value k s v := by
  revert fusable rank
  refine cluster_induction sound (motive := fun n => n.op.isFusable → ∀ {rank : Nat},
    Typed g n.output k rank →
    (Fits value k s n.output ↔ ∀ v, Loads g absorbed n v → Fits value k s v)) ?_ at_
  intro n at_ ih fusable rank typed
  obtain ⟨types, -⟩ := operands_typed sound at_ fusable typed
  rw [operands_fit sound valued at_ fusable typed]
  constructor
  · intro operands v loads
    obtain ⟨u, reads, ⟨-, rfl⟩ | ⟨-, m, produced, fusableM, inner⟩⟩ := (loads_iff absorbing).mp loads
    · exact operands u reads
    · obtain ⟨-, rfl⟩ := sound.of_producer? produced
      obtain ⟨r, typedM, -⟩ := types _ reads
      exact (ih _ reads m produced fusableM typedM).mp (operands _ reads) v inner
  · intro loaded u reads
    by_cases inside : u ∈ absorbed
    · obtain ⟨m, produced, fusableM⟩ := absorbing u inside
      obtain ⟨-, rfl⟩ := sound.of_producer? produced
      obtain ⟨r, typedM, -⟩ := types _ reads
      refine (ih _ reads m produced fusableM typedM).mpr fun v inner => loaded v ?_
      exact (loads_iff absorbing).mpr ⟨_, reads, .inr ⟨inside, m, produced, fusableM, inner⟩⟩
    · exact loaded u ((loads_iff absorbing).mpr ⟨u, reads, .inl ⟨inside, rfl⟩⟩)

/-- The result of a cluster has the shape of something that it loads. -/
theorem load_shape (sound : g.Sound d) (absorbing : Absorbing g absorbed (·.isFusable))
    (valued : Valued g math value) {n : Node} (at_ : g.nodes[n.id]? = some n)
    (fusable : n.op.isFusable) {r : Tensor} (atN : value n.output = some r) :
    ∃ v t, Loads g absorbed n v ∧ value v = some t ∧ t.shape = r.shape := by
  revert fusable r
  refine cluster_induction sound (motive := fun n => n.op.isFusable → ∀ {r : Tensor},
    value n.output = some r →
    ∃ v t, Loads g absorbed n v ∧ value v = some t ∧ t.shape = r.shape) ?_ at_
  intro n at_ ih fusable r atN
  obtain ⟨u, reads, t, atU, shape⟩ := operand_shape valued at_ fusable atN
  by_cases inside : u ∈ absorbed
  · obtain ⟨m, produced, fusableM⟩ := absorbing u inside
    obtain ⟨-, rfl⟩ := sound.of_producer? produced
    obtain ⟨v, t', inner, atV, shape'⟩ := ih _ reads m produced fusableM atU
    exact ⟨v, t', (loads_iff absorbing).mpr
      ⟨_, reads, .inr ⟨inside, m, produced, fusableM, inner⟩⟩, atV, shape'.trans shape⟩
  · exact ⟨u, t, (loads_iff absorbing).mpr ⟨u, reads, .inl ⟨inside, rfl⟩⟩, atU, shape⟩

/-- The element of the value of a variable that counts at a place of a result of that shape. -/
def place? (value : VarId → Option Tensor) (k : Kind) (s : Shape) (i : Nat) (v : VarId) :
    Option (Elem k) := (value v).bind fun t => t.at? k s.volume i

omit [BlockRoutine] in
theorem place_fits {i : Nat} (inRange : i < s.volume) {v : VarId} (fits : Fits value k s v) :
    ∃ x, place? value k s i v = some x := by
  obtain ⟨t, atV, kind, shape⟩ := fits
  obtain ⟨x, atPlace⟩ := Tensor.exists_at inRange kind shape
  exact ⟨x, by rw [place?, atV, Option.bind_some, atPlace]⟩

/-- The elements of the variables at one place go by the function of an operation, or by the steps of its
expression. -/
structure Faithful {α : Type} [Scalar α] (math : MathMode) (x : VarId → α) (n : Node) : Prop where
  unary : ∀ f u, n.op = .unary f → n.inputs = [u] → x n.output = math.unary f (x u)
  binary : ∀ f u w, n.op = .binary f → n.inputs = [u, w] → x n.output = math.binary f (x u) (x w)
  fused : ∀ e, n.op = .fused e → ∃ regs,
    Expr.stepsAt math (fun j => n.inputs[j]?.map x) [] e.steps = some regs ∧ regs.getLast? = some (x n.output)

theorem place_faithful (sound : g.Sound d) (valued : Valued g math value) {n : Node}
    (at_ : g.nodes[n.id]? = some n) (fusable : n.op.isFusable) {rank : Nat} (typed : Typed g n.output k rank)
    (fits : Fits value k s n.output) {i : Nat} (inRange : i < s.volume) :
    Faithful math (fun v => (place? value k s i v).getD Scalar.zero) n := by
  obtain ⟨-, -, accepted⟩ := operands_typed sound at_ fusable typed
  obtain ⟨y, atPlace⟩ := place_fits inRange fits
  obtain ⟨r, atN, rfl, shape⟩ := fits
  obtain ⟨ts, operands, ran⟩ := (value_eq_some valued at_).mp atN
  obtain ⟨alike, -⟩ := Op.fusable_operands fusable ran
  obtain ⟨j, inResult, here, through⟩ := Tensor.place_cases inRange shape r.kind
  have made : place? value r.kind s i n.output = r.elem? r.kind j := by
    simp only [place?, atN, Option.bind_some, here]
  have read : ∀ {u t}, value u = some t → t ∈ ts →
      place? value r.kind s i u = t.at? r.kind r.shape.volume j := by
    intro u t atU member
    simp only [place?, atU, Option.bind_some, through t (alike t member).2]
  constructor
  · intro f u op inputs
    obtain ⟨t, atU, rfl⟩ : ∃ t, value u = some t ∧ [t] = ts := by
      simpa [inputs, Option.bind_eq_some_iff] using operands
    rw [op] at ran
    obtain ⟨x, atX, result⟩ := Op.unary_elem? ran (alike t (by simp)).1 inResult
    rw [made, result, read atU (by simp), atX]
    rfl
  · intro f u w op inputs
    obtain ⟨t, atU, t', atW, rfl⟩ : ∃ t, value u = some t ∧ ∃ t', value w = some t' ∧ [t, t'] = ts := by
      simpa [inputs, Option.bind_eq_some_iff] using operands
    rw [op] at ran
    obtain ⟨x, x', atX, atX', result⟩ := Op.binary_elem? ran (alike t (by simp)).1 inResult
    rw [made, result, read atU (by simp), read atW (by simp), atX, atX']
    rfl
  · intro e op
    rw [op] at ran accepted
    obtain ⟨regs, ranRegs, last⟩ := Op.fused_elem? ran accepted (fun t member => (alike t member).1)
      (fun t member => (alike t member).2) inResult
    refine ⟨regs, Expr.stepsAt_mono (fun l x got => ?_) ranRegs, ?_⟩
    · obtain ⟨t, atL, atX⟩ := Option.bind_eq_some_iff.mp got
      obtain ⟨inTs, rfl⟩ := List.getElem?_eq_some_iff.mp atL
      have values := mapM_eq_some.mp operands
      have inInputs : l < n.inputs.length := values.length_eq ▸ inTs
      have atU : value n.inputs[l] = some ts[l] := values.get inInputs inTs
      rw [List.getElem?_eq_getElem inInputs, Option.map_some, read atU (List.getElem_mem inTs), atX]
      rfl
    · rw [last, ← made, atPlace]
      rfl

/-- When the result of a cluster fits, so do the results of all its operations. -/
theorem cluster_fits (sound : g.Sound d) (absorbing : Absorbing g absorbed (·.isFusable))
    (valued : Valued g math value) {n m : Node} (cluster : Cluster g absorbed n m)
    (at_ : g.nodes[n.id]? = some n) (fusable : n.op.isFusable) {rank : Nat} (typed : Typed g n.output k rank)
    (fits : Fits value k s n.output) :
    g.nodes[m.id]? = some m ∧ m.op.isFusable ∧ (∃ rank, Typed g m.output k rank) ∧ Fits value k s m.output := by
  induction cluster generalizing rank with
  | self n => exact ⟨at_, fusable, ⟨rank, typed⟩, fits⟩
  | inner reads inside produced _ ih =>
    obtain ⟨m', produced', fusableM⟩ := absorbing _ inside
    obtain rfl := Option.some.inj (produced.symm.trans produced')
    obtain ⟨atM, rfl⟩ := sound.of_producer? produced
    obtain ⟨r, typedM, -⟩ := (operands_typed sound at_ fusable typed).1 _ reads
    have operands := (operands_fit sound valued at_ fusable typed).mp fits
    exact ih atM fusableM typedM (operands _ reads)

end Values

end Fusion

end TensorGraph
