import TensorGraph.Kernel.Layout
import TensorGraph.Proofs.Kernel.BlockProduct
import TensorGraph.Proofs.Kernel.Shown

/-! Kernels that read their operands at other places than they write, in buffers larger than their
values. None of them runs in place. -/
namespace TensorGraph

open Checked

namespace Kernel

theorem copyFrom_eq {kind : Kind} (old xs : Array (Elem kind)) {n : Nat} (inSource : n ≤ xs.size)
    (inOld : n ≤ old.size) :
    Data.copyFrom ⟨kind, old⟩ ⟨kind, xs⟩ n =
      .ok ⟨kind, xs.extract 0 n ++ old.extract n old.size⟩ := by
  have fitting : ¬ (n > Data.size ⟨kind, xs⟩ ∨ n > Data.size ⟨kind, old⟩) := by
    simp only [Data.size]
    omega
  simp only [Data.copyFrom, ↓reduceDIte, if_neg fitting]
  rfl

theorem reshape_extends (target : List Nat) : ExtendsApart reshape (.reshape target) := by
  intro operands ts kind shape math d old ran fits apart shown
  simp only [reshape] at ran
  obtain ⟨src, input, ran⟩ := bind_eq_ok.mp ran
  obtain ⟨t, d', atT, rfl, ⟨slack, rfl⟩, shapeOf, input'⟩ := shown_input apart shown input
  rw [shapeOf, ok_bind] at ran
  split at ran
  · cases ran
  rename_i sameVolume
  simp only [reshape, input', ok_bind, shapeOf, if_neg sameVolume]
  have volumes : t.shape.volume = shape.volume := not_not.mp sameVolume
  have kinds : t.data.kind = kind := by
    by_contra differ
    simp [Data.copyFrom, differ] at ran
  have size : t.data.elems.size = shape.volume := t.size_eq.trans volumes
  generalize t.data = x at *
  rcases x with ⟨xKind, elems⟩
  subst kinds
  rw [copyFrom_eq _ _ (Nat.le_of_eq size.symm) (by simp)] at ran
  cases ran
  refine ⟨elems, by simp [← size], ?_⟩
  rw [copyFrom_eq _ _ (by simp [← size]) fits]
  simp [← size]

theorem view_append {x : Data} {kind : Kind} {xs : Array (Elem kind)}
    (slack : Array (Elem x.kind)) (viewed : x.view kind = .ok xs) :
    ∃ more, Data.view ⟨x.kind, x.elems ++ slack⟩ kind = .ok (xs ++ more) :=
  Data.Begins.view ⟨slack, rfl⟩ viewed

theorem getElem?_append {α : Type} {xs more : Array α} {i : Nat} {x : α}
    (got : xs[i]? = some x) : (xs ++ more)[i]? = some x := by
  have inXs : i < xs.size := (Array.getElem?_eq_some_iff.mp got).1
  rw [Array.getElem?_append_left inXs]
  exact got

theorem transpose_extends (perm : List Nat) : ExtendsApart transpose (.transpose perm) := by
  intro operands ts kind shape math d old ran fits apart shown
  simp only [transpose] at ran
  obtain ⟨src, input, ran⟩ := bind_eq_ok.mp ran
  obtain ⟨t, d', atT, rfl, ⟨slack, rfl⟩, shapeOf, input'⟩ := shown_input apart shown input
  rw [shapeOf, ok_bind] at ran
  split at ran
  · cases ran
  rename_i matching
  obtain ⟨strides, permuted, ran⟩ := bind_eq_ok.mp ran
  obtain ⟨xs, viewed, ran⟩ := bind_eq_ok.mp ran
  obtain ⟨elems, filled, ran⟩ := bind_eq_ok.mp ran
  cases ran
  obtain ⟨more, viewed'⟩ := view_append slack viewed
  refine ⟨elems, rfl, ?_⟩
  have viewedRoomy : Data.view ⟨t.data.kind, t.data.elems ++ slack⟩ kind = .ok (xs ++ more) := viewed'
  simp only [transpose, input', ok_bind, shapeOf, if_neg matching, permuted, viewedRoomy]
  rw [fill_roomy fits filled]
  · rfl
  · intro i inOld x y bound atPlace
    exact getElem?_append atPlace

theorem lane?_append {α : Type} {xs more : Array α} {len inner i : Nat} {lane : List α}
    (found : lane? xs len inner i = some lane) : lane? (xs ++ more) len inner i = some lane := by
  unfold lane? at found ⊢
  rw [mapM_eq_some] at found ⊢
  exact found.imp fun j x got => getElem?_append got

theorem reduce_extends (f : Reduction) (axis : Option Nat) :
    ExtendsApart reduce (.reduce f axis) := by
  intro operands ts kind shape math d old ran fits apart shown
  simp only [reduce] at ran
  obtain ⟨src, input, ran⟩ := bind_eq_ok.mp ran
  obtain ⟨t, d', atT, rfl, ⟨slack, rfl⟩, shapeOf, input'⟩ := shown_input apart shown input
  rw [shapeOf, ok_bind] at ran
  split at ran
  · rename_i outer len inner extents
    split at ran
    · cases ran
    rename_i covers
    obtain ⟨xs, viewed, ran⟩ := bind_eq_ok.mp ran
    obtain ⟨elems, filled, ran⟩ := bind_eq_ok.mp ran
    cases ran
    obtain ⟨more, viewed'⟩ := view_append slack viewed
    refine ⟨elems, rfl, ?_⟩
    have viewedRoomy : Data.view ⟨t.data.kind, t.data.elems ++ slack⟩ kind = .ok (xs ++ more) :=
      viewed'
    simp only [reduce, input', ok_bind, shapeOf, extents, if_neg covers, viewedRoomy]
    rw [fill_roomy fits filled]
    · rfl
    · intro i inOld x y bound atPlace
      obtain ⟨lane, found, reduced⟩ := Option.bind_eq_some_iff.mp atPlace
      exact Option.bind_eq_some_iff.mpr ⟨lane, lane?_append found, reduced⟩
  · cases ran

theorem productAt_append {α : Type} [Scalar α] {d : ProductDims}
    {lhs rhs moreLhs moreRhs : Array α} {i : Nat} {x : α}
    (found : productAt d lhs rhs i = some x) :
    productAt d (lhs ++ moreLhs) (rhs ++ moreRhs) i = some x := by
  obtain ⟨terms, mapped, summed⟩ := Option.bind_eq_some_iff.mp found
  refine Option.bind_eq_some_iff.mpr ⟨terms, ?_, summed⟩
  rw [mapM_eq_some] at mapped ⊢
  refine mapped.imp fun p y atTerm => ?_
  obtain ⟨l, gotLeft, rest⟩ := Option.bind_eq_some_iff.mp atTerm
  obtain ⟨r, gotRight, product⟩ := Option.bind_eq_some_iff.mp rest
  refine Option.bind_eq_some_iff.mpr ⟨l, getElem?_append gotLeft, ?_⟩
  exact Option.bind_eq_some_iff.mpr ⟨r, getElem?_append gotRight, product⟩

theorem productInRange_mono {kind : Kind} {d : ProductDims} {lhs rhs lhs' rhs' : Nat}
    (inRange : productInRange kind d lhs rhs = true) (left : lhs ≤ lhs') (right : rhs ≤ rhs') :
    productInRange kind d lhs' rhs' = true := by
  unfold productInRange at inRange ⊢
  split at inRange
  · simp only [*, ↓reduceIte, Bool.and_eq_true, decide_eq_true_eq] at inRange ⊢
    exact ⟨Nat.le_trans inRange.1 left, Nat.le_trans inRange.2 right⟩
  · simp only [*, Bool.false_eq_true, ↓reduceIte, Bool.and_eq_true, decide_eq_true_eq] at inRange ⊢
    exact ⟨Nat.le_trans inRange.1 left, Nat.le_trans inRange.2 right⟩

/-- The places of a product are those of its output. -/
theorem volume_productShape {ls rs shape : Shape} {d : ProductDims}
    (dims : productDims? ls rs = some d) (result : Op.productShape? ls rs = some shape) :
    d.batches * d.rows * d.cols = shape.volume := by
  unfold productDims? at dims
  unfold Op.productShape? at result
  split at dims
  · simp only at result
    split at dims
    · rename_i same
      simp only [same, ↓reduceIte, Option.some.injEq] at dims result
      subst dims result
      simp [Shape.volume]
    · cases dims
  · simp only at result
    split at dims
    · rename_i same
      simp only [same, and_self, ↓reduceIte, Option.some.injEq] at dims result
      subst dims result
      simp [Shape.volume, Nat.mul_assoc]
    · cases dims
  · cases dims

theorem productShape_of_output {shapes : List Shape} {ls rs shape : Shape}
    (result : Op.matmul.outputShape shapes = .ok shape) (left : item shapes 0 = .ok ls)
    (right : item shapes 1 = .ok rs) : Op.productShape? ls rs = some shape := by
  simp only [Op.outputShape] at result
  split at result
  · cases result
  cases shapes with
  | nil => cases result
  | cons first rest =>
    obtain rfl : first = ls := Option.some.inj (item_eq_ok.mp left)
    cases rest with
    | nil => cases right
    | cons second rest =>
      obtain rfl : second = rs := Option.some.inj (item_eq_ok.mp right)
      simp only [List.headD_cons] at result
      split at result
      · rename_i found
        cases result
        exact found
      · cases result

/-- Products of matrices in larger buffers. -/
theorem multiplied_roomy [BlockRoutine] {kind : Kind} {d : ProductDims} {shape : Shape}
    {xs ys old filled : Array (Elem kind)} (more more' : Array (Elem kind))
    (inRange : productInRange kind d xs.size ys.size) (places : d.batches * d.rows * d.cols = shape.volume)
    (fits : shape.volume ≤ old.size)
    (ran : multiplied kind d xs ys (.replicate shape.volume Scalar.zero) = .ok filled) :
    multiplied kind d (xs ++ more) (ys ++ more') old =
      .ok (filled ++ old.extract shape.volume old.size) := by
  unfold multiplied at ran ⊢
  split at ran
  · rename_i blocks
    rw [Nat.mul_assoc] at places
    obtain ⟨left, right⟩ := matrices_of_inRange blocks inRange
    have exact : (Array.replicate shape.volume (Scalar.zero : Elem kind)).size =
        d.batches * (d.rows * d.cols) := by simp [places]
    have roomy := productsBy_roomy (BlockRoutine.confined kind)
      ⟨left, right, Nat.le_of_eq exact.symm⟩ more more' exact (by simpa using fits)
    rw [if_neg (by omega)] at ran
    cases ran
    rw [Array.size_replicate] at roomy
    rw [if_pos blocks, if_neg (by omega), roomy]
  · rename_i single
    rw [places] at ran ⊢
    rw [if_neg single, fill_roomy fits ran]
    intro i inOld x y bound atPlace
    exact productAt_append atPlace

/-- The product of matrices in larger buffers, for an output of the shape of the product. -/
theorem matmul_extends [BlockRoutine] {operands : List Operand} {ts : List Tensor} {kind : Kind} {shape : Shape}
    {math : MathMode} {d : Data} {old : Array (Elem kind)}
    (ran : matmul .matmul (exactly ts kind shape math) = .ok d)
    (result : Op.matmul.outputShape (ts.map Tensor.shape) = .ok shape)
    (fits : shape.volume ≤ old.size) (apart : Apart operands)
    (shown : List.Forall₂ (Operand.Shows ⟨kind, old⟩ shape) operands ts) :
    ∃ elems : Array (Elem kind), d = ⟨kind, elems⟩ ∧
      matmul .matmul (within operands ts ⟨kind, old⟩ shape math) =
        .ok ⟨kind, elems ++ old.extract shape.volume old.size⟩ := by
  simp only [matmul] at ran
  obtain ⟨lhs, leftInput, ran⟩ := bind_eq_ok.mp ran
  obtain ⟨rhs, rightInput, ran⟩ := bind_eq_ok.mp ran
  obtain ⟨t, l, atT, rfl, ⟨leftSlack, rfl⟩, leftShape, leftInput'⟩ :=
    shown_input apart shown leftInput
  obtain ⟨u, r, atU, rfl, ⟨rightSlack, rfl⟩, rightShape, rightInput'⟩ :=
    shown_input apart shown rightInput
  rw [leftShape, ok_bind, rightShape, ok_bind] at ran
  split at ran
  · rename_i dims dimsOf
    obtain ⟨xs, leftViewed, ran⟩ := bind_eq_ok.mp ran
    obtain ⟨ys, rightViewed, ran⟩ := bind_eq_ok.mp ran
    split at ran
    · cases ran
    rename_i inRange
    obtain ⟨elems, filled, ran⟩ := bind_eq_ok.mp ran
    cases ran
    obtain ⟨moreLeft, leftViewed'⟩ := view_append leftSlack leftViewed
    obtain ⟨moreRight, rightViewed'⟩ := view_append rightSlack rightViewed
    have inRange' : ¬ (!productInRange kind dims (xs ++ moreLeft).size (ys ++ moreRight).size) = true := by
      simp only [Bool.not_eq_true', Bool.not_eq_false] at inRange ⊢
      exact productInRange_mono inRange (by simp) (by simp)
    have places : dims.batches * dims.rows * dims.cols = shape.volume :=
      volume_productShape dimsOf (productShape_of_output result leftShape rightShape)
    refine ⟨elems, rfl, ?_⟩
    simp only [matmul, leftInput', rightInput', ok_bind, leftShape, rightShape, dimsOf,
      leftViewed', rightViewed', if_neg inRange']
    rw [multiplied_roomy moreLeft moreRight (by simpa using inRange) places fits filled]
    rfl
  · cases ran

end Kernel

end TensorGraph
