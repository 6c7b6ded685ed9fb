import TensorGraph.Proofs.Kernel.Elements

/-! Rearrangements that do not change a result: the operands of a commutative function exchanged, and a
sign changed twice. Integers allow all of them; of a float kind the sums, the products and the change
of sign have to be as asked here, and a maximum of zeros of opposite sign shows the order of its
operands. -/
namespace TensorGraph

open Checked Kernel

/-- Sums and products do not depend on the order of their operands, and changing the sign twice
changes nothing. -/
structure Kind.Regular (k : Kind) : Prop where
  add : ∀ x y : Elem k, Scalar.add x y = Scalar.add y x
  mul : ∀ x y : Elem k, Scalar.mul x y = Scalar.mul y x
  neg : ∀ x : Elem k, Scalar.neg (Scalar.neg x) = x

/-- On elements of this kind the operation allows the rearrangements of the canonical form. -/
def Op.Rearranges (op : Op) (k : Kind) : Prop :=
  k.isFloat → k.Regular ∧ op ≠ .binary .max ∧ op ≠ .binary .min

theorem Kind.regular_of_int {k : Kind} (int : ¬ k.isFloat) : k.Regular := by
  cases k with
  | u8 => exact ⟨UInt8.add_comm, UInt8.mul_comm, fun _ => rfl⟩
  | u32 => exact ⟨UInt32.add_comm, UInt32.mul_comm, fun _ => rfl⟩
  | i32 => exact ⟨Int32.add_comm, Int32.mul_comm, fun _ => Int32.neg_neg⟩
  | i64 => exact ⟨Int64.add_comm, Int64.mul_comm, fun _ => Int64.neg_neg⟩
  | f16 => exact absurd rfl int
  | bf16 => exact absurd rfl int
  | f32 => exact absurd rfl int
  | f64 => exact absurd rfl int

theorem Op.Rearranges.regular {op : Op} {k : Kind} (allowed : op.Rearranges k) : k.Regular := by
  by_cases float : k.isFloat
  · exact (allowed float).1
  · exact Kind.regular_of_int float

/-- The greater and the lesser of two words do not depend on their order. -/
theorem extremes_of_order {α : Type} [LT α] [DecidableLT α]
    (antisymm : ∀ x y : α, ¬ x < y → ¬ y < x → x = y) (asymm : ∀ x y : α, x < y → ¬ y < x)
    (x y : α) :
    (if y < x then x else y) = (if x < y then y else x) ∧
      (if x < y then x else y) = if y < x then y else x := by
  by_cases below : y < x
  · have notAbove := asymm y x below
    rw [if_pos below, if_neg notAbove, if_neg notAbove, if_pos below]
    exact ⟨rfl, rfl⟩
  · by_cases above : x < y
    · rw [if_neg below, if_pos above, if_pos above, if_neg below]
      exact ⟨rfl, rfl⟩
    · rw [if_neg below, if_neg above, if_neg above, if_neg below]
      have same := antisymm x y above below
      exact ⟨same.symm, same.symm⟩

theorem Kind.extremes_of_int {k : Kind} (int : ¬ k.isFloat) (x y : Elem k) :
    Scalar.max x y = Scalar.max y x ∧ Scalar.min x y = Scalar.min y x := by
  cases k with
  | u8 =>
    refine extremes_of_order (fun x y above below => ?_) (fun _ _ => UInt8.lt_asymm) x y
    exact UInt8.le_antisymm (UInt8.not_lt.mp below) (UInt8.not_lt.mp above)
  | u32 =>
    refine extremes_of_order (fun x y above below => ?_) (fun _ _ => UInt32.lt_asymm) x y
    exact UInt32.le_antisymm (UInt32.not_lt.mp below) (UInt32.not_lt.mp above)
  | i32 =>
    refine extremes_of_order (fun x y above below => ?_) (fun _ _ => Int32.lt_asymm) x y
    exact Int32.le_antisymm (Int32.not_lt.mp below) (Int32.not_lt.mp above)
  | i64 =>
    refine extremes_of_order (fun x y above below => ?_) (fun _ _ => Int64.lt_asymm) x y
    exact Int64.le_antisymm (Int64.not_lt.mp below) (Int64.not_lt.mp above)
  | f16 => exact absurd rfl int
  | bf16 => exact absurd rfl int
  | f32 => exact absurd rfl int
  | f64 => exact absurd rfl int

/-- The operands of a commutative function may be exchanged where that is allowed. -/
theorem Binary.apply_comm {f : Binary} (commutes : f.isCommutative) {k : Kind}
    (allowed : (Op.binary f).Rearranges k) (x y : Elem k) : f.apply x y = f.apply y x := by
  have regular := allowed.regular
  cases f with
  | add => exact regular.add x y
  | mul => exact regular.mul x y
  | max =>
    have int : ¬ k.isFloat := fun float => (allowed float).2.1 rfl
    exact (Kind.extremes_of_int int x y).1
  | min =>
    have int : ¬ k.isFloat := fun float => (allowed float).2.2 rfl
    exact (Kind.extremes_of_int int x y).2
  | sub => exact absurd commutes Bool.false_ne_true
  | div => exact absurd commutes Bool.false_ne_true
  | pow => exact absurd commutes Bool.false_ne_true

/-- On elements of this kind the operation gives the same for both orders of its operands, if it is one of those that
are put in order, and undoes itself, if it is the change of sign. -/
structure Op.Balanced (op : Op) (k : Kind) : Prop where
  exchange : ∀ {f : Binary}, op = .binary f → f.isCommutative → ∀ x y : Elem k, f.apply x y = f.apply y x
  cancel : op = .unary .neg → ∀ x : Elem k, Scalar.neg (Scalar.neg x) = x

theorem Op.Rearranges.balanced {op : Op} {k : Kind} (allowed : op.Rearranges k) : op.Balanced k where
  exchange same commutes := Binary.apply_comm commutes (same ▸ allowed)
  cancel _ := allowed.regular.neg

theorem Op.balanced_of_int (op : Op) {k : Kind} (int : ¬ k.isFloat) : op.Balanced k :=
  Rearranges.balanced fun float => absurd float int

namespace Op

theorem Shape.broadcast_comm {name : String} {a b s : Shape} (ran : Shape.broadcast name a b = .ok s) :
    Shape.broadcast name b a = .ok s := by
  unfold Shape.broadcast at ran ⊢
  by_cases same : a = b
  · subst same
    simpa using ran
  · by_cases left : a = []
    · subst left
      have right : b ≠ [] := fun none => same none.symm
      have other : ¬ ([] = b) := fun none => right none.symm
      simpa [right, other] using ran
    · by_cases right : b = []
      · subst right
        have other : ¬ ([] = a) := fun none => left none.symm
        simpa [left, other] using ran
      · simp [same, left, right] at ran

variable [BlockRoutine]

theorem binary_operands {f : Binary} {math : MathMode} {t u r : Tensor}
    (ran : (Op.binary f).eval math [t, u] = .ok r) :
    u.kind = t.kind ∧ r.kind = t.kind ∧ Shape.broadcast f.name t.shape u.shape = .ok r.shape := by
  have computes : ¬ (Op.binary f).isTransfer := Bool.false_ne_true
  have result := (resultShape_eq_ok.mp (shape_of_eval computes ran)).1
  have joined : Shape.broadcast f.name t.shape u.shape = .ok r.shape := by
    obtain ⟨s, head, rest⟩ := bind_eq_ok.mp (show (Shape.broadcastAll f.name t.shape [u.shape]) = _ from result)
    cases rest
    exact head
  obtain ⟨first, rest, kind, split, same, computed⟩ := kernel_of_eval Kernel.binary computes rfl ran
  obtain ⟨rfl, rfl⟩ := List.cons_eq_cons.mp split
  obtain rfl : kind = t.kind := same
  simp only [Kernel.binary] at computed
  rw [if_neg (by simp [Data.size])] at computed
  simp only [List.map_cons, List.map_nil, item_zero, item_one, ok_bind] at computed
  obtain ⟨lhs, -, computed⟩ := bind_eq_ok.mp computed
  obtain ⟨rhs, resolved, computed⟩ := bind_eq_ok.mp computed
  obtain ⟨filled, -, whole⟩ := bind_eq_ok.mp computed
  obtain ⟨ys, viewed, -⟩ := bind_eq_ok.mp resolved
  refine ⟨?_, (congrArg Data.kind (Except.ok.inj whole)).symm, joined⟩
  unfold Data.view at viewed
  split at viewed
  · rename_i sameKind
    exact sameKind
  · cases viewed

theorem eval_binary {f : Binary} {t u : Tensor} {s : Shape} (same : u.kind = t.kind)
    (joined : Shape.broadcast f.name t.shape u.shape = .ok s) (math : MathMode) :
    ∃ r, (Op.binary f).eval math [t, u] = .ok r ∧ r.shape = s ∧ r.kind = t.kind := by
  have computes : ¬ (Op.binary f).isTransfer := Bool.false_ne_true
  have shaped : (Op.binary f).outputShape ([t, u].map Tensor.shape) = .ok s := by
    simp [outputShape, arity, Shape.broadcastAll, name, joined]
  have oneOf : Shape.broadcastAll f.name t.shape [u.shape] = .ok s := by simp [Shape.broadcastAll, joined]
  have member : s ∈ [t, u].map Tensor.shape := Shape.broadcastAll_mem oneOf
  obtain ⟨v, -, rfl⟩ := List.mem_map.mp member
  have result := resultShape_eq_ok.mpr ⟨shaped, rfl, v.fits⟩
  obtain ⟨left, right, -⟩ := Shape.broadcast_ok joined
  exact eval_of_completes computes rfl rfl result (binary_total f rfl same left right math)

/-- A commutative operation has one result for both orders of its operands. -/
theorem eval_exchange {f : Binary} (commutes : f.isCommutative) {t u r : Tensor}
    (balanced : (Op.binary f).Balanced r.kind) (ran : (Op.binary f).eval {} [t, u] = .ok r) :
    (Op.binary f).eval {} [u, t] = .ok r := by
  obtain ⟨same, kind, joined⟩ := binary_operands ran
  obtain ⟨r', ran', shape, kind'⟩ := eval_binary same.symm (Shape.broadcast_comm joined) {}
  have equal : r' = r := by
    refine Tensor.ext_elem? (kind'.trans same) kind shape fun i inRange => ?_
    have inRange' : i < r.shape.volume := by rwa [← shape]
    obtain ⟨x, y, atX, atY, here⟩ := binary_elem? ran rfl inRange'
    obtain ⟨y', x', atY', atX', there⟩ := binary_elem? ran' same inRange
    rw [shape] at atX' atY'
    obtain rfl : x = x' := Option.some.inj (atX.symm.trans atX')
    obtain rfl : y = y' := Option.some.inj (atY.symm.trans atY')
    rw [kind] at balanced
    rw [here, there]
    exact congrArg some (balanced.exchange rfl commutes y x)
  rw [ran', equal]

theorem eval_unary (f : Unary) (t : Tensor) (math : MathMode) :
    ∃ r, (Op.unary f).eval math [t] = .ok r ∧ r.shape = t.shape ∧ r.kind = t.kind := by
  have computes : ¬ (Op.unary f).isTransfer := Bool.false_ne_true
  have result := resultShape_eq_ok.mpr ⟨(rfl : (Op.unary f).outputShape ([t].map Tensor.shape) = _), rfl, t.fits⟩
  exact eval_of_completes computes rfl rfl result (unary_total f rfl math)

/-- A sign changed twice is not changed. -/
theorem eval_neg_neg {t : Tensor} (cancels : ∀ x : Elem t.kind, Scalar.neg (Scalar.neg x) = x) :
    ∃ r, (Op.unary .neg).eval {} [t] = .ok r ∧ (Op.unary .neg).eval {} [r] = .ok t := by
  obtain ⟨r, ran, shape, kind⟩ := eval_unary .neg t {}
  obtain ⟨u, ran', shape', kind'⟩ := eval_unary .neg r {}
  have equal : u = t := by
    refine Tensor.ext_elem? (kind'.trans kind) rfl (shape'.trans shape) fun i inRange => ?_
    have inR : i < r.shape.volume := by rwa [← shape']
    obtain ⟨x, atX, here⟩ := unary_elem? ran rfl inR
    obtain ⟨y, atY, there⟩ := unary_elem? ran' kind inRange
    rw [shape', Tensor.at?_self, here] at atY
    cases atY
    rw [there, ← Tensor.at?_self, ← shape, atX]
    exact congrArg some (cancels x)
  exact ⟨r, ran, by rw [ran', equal]⟩

end Op

end TensorGraph
