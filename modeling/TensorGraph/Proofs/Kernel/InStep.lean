import TensorGraph.Proofs.Kernel.Overwriting
import TensorGraph.Proofs.Kernel.Pointwise

/-! Elementwise kernels run twice, on operands that give them the same to read. An operand gives the first elements
of its buffer, as many as its shape has places, or of the output, as many as the kernel writes. An elementwise
kernel reads a place before it writes there, so one of the runs may find an operand in the output that the other
finds in a buffer. -/
namespace TensorGraph

open Checked Kernel

namespace Data

/-- The first `n` elements. -/
def start (d : Data) (n : Nat) : Data := ⟨d.kind, d.elems.extract 0 n⟩

/-- The elements that follow the first `n`. -/
def rest (d : Data) (n : Nat) : Data := ⟨d.kind, d.elems.extract n d.elems.size⟩

theorem start_inj {kind : Kind} {xs ys : Array (Elem kind)} {n : Nat} :
    start ⟨kind, xs⟩ n = start ⟨kind, ys⟩ n ↔ SameStart n xs ys := by
  simp [start, sameStart_iff]

/-- Buffers that start alike are viewed in step. -/
theorem view_inStep {d d' : Data} {n : Nat} (same : d.start n = d'.start n) (kind : Kind) :
    InStep (fun xs ys => xs.size = d.size ∧ ys.size = d'.size ∧ SameStart n xs ys) (d.view kind) (d'.view kind) := by
  rcases d with ⟨k, xs⟩
  rcases d' with ⟨k', ys⟩
  obtain rfl : k = k' := congrArg Data.kind same
  by_cases right : k = kind
  · subst right
    simp only [view, ↓reduceDIte]
    exact .ok ⟨rfl, rfl, start_inj.mp same⟩
  · simp only [view, dif_neg right]
    exact .error _

end Data

namespace Operand

/-- The operand has room for a value of that shape. -/
def Holds (s : Shape) : Operand → Prop
  | .buffer d => s.volume ≤ d.size
  | .output => True

instance (s : Shape) : DecidablePred (Holds s)
  | .buffer d => inferInstanceAs (Decidable (s.volume ≤ d.size))
  | .output => inferInstanceAs (Decidable True)

/-- What the operand gives a kernel to read that writes `n` elements of the output. -/
def content (out : Data) (n : Nat) (s : Shape) : Operand → Data
  | .buffer d => d.start s.volume
  | .output => out.start n

/-- Two operands of one shape give two runs of a kernel the same to read. One of them may be the output where the
other is not only if the kernel runs in place, for a value of as many elements as it writes. -/
structure Alike (out out' : Data) (n : Nat) (inPlace : Prop) (s : Shape) (o o' : Operand) : Prop where
  holds : o.Holds s
  holds' : o'.Holds s
  content : o.content out n s = o'.content out' n s
  place : (o = .output ↔ o' = .output) ∨ inPlace ∧ s.volume = n

end Operand

namespace Kernel

section Sources

variable {α : Type}

/-- The sources give the same for each of the first places of two buffers, next to what these hold there. -/
structure Source.Alike (n : Nat) (old old' : Array α) (s s' : Source α) : Prop where
  covers : s.Covers n
  covers' : s'.Covers n
  same : ∀ i, i < n → ∀ x y, old[i]? = some x → old'[i]? = some y → s.get i x = s'.get i y

theorem Source.Alike.symm {n : Nat} {old old' : Array α} {s s' : Source α} (alike : Source.Alike n old old' s s') :
    Source.Alike n old' old s' s where
  covers := alike.covers'
  covers' := alike.covers
  same i inRange x y atX atY := (alike.same i inRange y x atY atX).symm

theorem covers_each {xs : Array α} {n : Nat} (enough : n ≤ xs.size) : (Source.each xs).Covers n := by
  intro i x inRange
  rw [Source.get, Array.getElem?_eq_getElem (by omega)]
  rfl

end Sources

variable {kind : Kind} {old old' : Array (Elem kind)} {n : Nat} {s : Shape}

/-- Two buffers that start alike are read alike. -/
theorem buffers_inStep {d d' : Data} (room : s.volume ≤ d.size) (room' : s.volume ≤ d'.size)
    (same : d.start s.volume = d'.start s.volume) :
    InStep (Source.Alike n old old') (Source.of kind (.buffer d) s n) (Source.of kind (.buffer d') s n) := by
  refine (Data.view_inStep same kind).bind fun xs ys related => ?_
  obtain ⟨size, size', start⟩ := related
  have enough : ¬ s.volume > xs.size := by omega
  have enough' : ¬ s.volume > ys.size := by omega
  simp only [if_neg enough, if_neg enough']
  by_cases full : s.volume = n
  · rw [if_pos full, if_pos full]
    rw [full] at room room' start
    exact .ok ⟨covers_each (by omega), covers_each (by omega), fun i inRange _ _ _ _ => start i inRange⟩
  · rw [if_neg full, if_neg full]
    by_cases single : s.volume = 1
    · have first : xs[0]? = ys[0]? := start 0 (by omega)
      rw [if_pos single, if_pos single, first, Array.getElem?_eq_getElem (by omega)]
      exact .ok ⟨fun _ _ _ => rfl, fun _ _ _ => rfl, fun _ _ _ _ _ _ => rfl⟩
    · rw [if_neg single, if_neg single]
      exact .error _

/-- A buffer is read as the output is that starts like it. -/
theorem overwritten_inStep {d : Data} (room : s.volume ≤ d.size) (full : s.volume = n)
    (same : d.start s.volume = Data.start ⟨kind, old'⟩ n) :
    InStep (Source.Alike n old old') (Source.of kind (.buffer d) s n) (Source.of kind .output s n) := by
  rcases d with ⟨k, xs⟩
  obtain rfl : k = kind := congrArg Data.kind same
  rw [full] at room same
  have start := Data.start_inj.mp same
  have resolved : Source.of k (.buffer ⟨k, xs⟩) s n = .ok (.each xs) := by
    have enough : ¬ s.volume > xs.size := by
      rw [full]
      exact Nat.not_lt.mpr room
    simp only [Source.of, Data.view, ↓reduceDIte, ok_bind, if_neg enough, if_pos full]
  rw [resolved]
  refine .ok ⟨covers_each room, fun _ _ _ => rfl, fun i inRange x y _ atY => ?_⟩
  rw [Source.get, Source.get, start i inRange, atY]

theorem source_inStep {inPlace : Prop} {o o' : Operand}
    (alike : o.Alike ⟨kind, old⟩ ⟨kind, old'⟩ n inPlace s o') :
    InStep (Source.Alike n old old') (Source.of kind o s n) (Source.of kind o' s n) := by
  obtain ⟨holds, holds', content, place⟩ := alike
  cases o with
  | buffer d =>
    cases o' with
    | buffer d' => exact buffers_inStep holds holds' content
    | output =>
      have full : inPlace ∧ s.volume = n := by simpa using place
      exact overwritten_inStep holds full.2 content
  | output =>
    cases o' with
    | buffer d' =>
      have full : inPlace ∧ s.volume = n := by simpa using place
      have turned : InStep (Source.Alike n old' old) (Source.of kind (.buffer d') s n) (Source.of kind .output s n) :=
        overwritten_inStep holds' full.2 content.symm
      exact turned.symm.mono fun _ _ alike => alike.symm
    | output =>
      have start := Data.start_inj.mp content
      refine .ok ⟨fun _ _ _ => rfl, fun _ _ _ => rfl, fun i inRange x y atX atY => ?_⟩
      rw [Source.get, Source.get, ← atX, ← atY, start i inRange]

/-- Two buffers of one kind, the outputs of two runs, are the old ones with their first places written. -/
def Written (kind : Kind) (old old' : Array (Elem kind)) (n : Nat) (d d' : Data) : Prop :=
  ∃ new new', d = ⟨kind, new⟩ ∧ d' = ⟨kind, new'⟩ ∧ Overwritten n old old' new new'

theorem written_inStep {x y : Except Error (Array (Elem kind))} (inStep : InStep (Overwritten n old old') x y) :
    InStep (Written kind old old' n) (x >>= fun elems => return ⟨kind, elems⟩) (y >>= fun elems => return ⟨kind, elems⟩) :=
  inStep.bind fun new new' overwritten => .ok ⟨new, new', rfl, rfl, overwritten⟩

section Elementwise

variable {shape : Shape} {math : MathMode} {inPlace : Prop}

theorem unary_inStep (f : Unary) {o o' : Operand} (fits : shape.volume ≤ old.size) (fits' : shape.volume ≤ old'.size)
    (alike : o.Alike ⟨kind, old⟩ ⟨kind, old'⟩ shape.volume inPlace s o') :
    InStep (Written kind old old' shape.volume) (unary (.unary f) ⟨[o], [s], ⟨kind, old⟩, shape, math⟩)
      (unary (.unary f) ⟨[o'], [s], ⟨kind, old'⟩, shape, math⟩) := by
  simp only [unary, item_zero, ok_bind]
  have room : ¬ Data.size ⟨kind, old⟩ < shape.volume := Nat.not_lt.mpr fits
  have room' : ¬ Data.size ⟨kind, old'⟩ < shape.volume := Nat.not_lt.mpr fits'
  rw [if_neg room, if_neg room']
  refine (source_inStep alike).bind fun src src' related => written_inStep (fill_inStep fits fits' ?_)
  intro i inRange x y atX atY
  rw [related.same i inRange x y atX atY]

theorem binary_inStep (f : Binary) {t : Shape} {o o' p p' : Operand} (fits : shape.volume ≤ old.size)
    (fits' : shape.volume ≤ old'.size) (left : o.Alike ⟨kind, old⟩ ⟨kind, old'⟩ shape.volume inPlace s o')
    (right : p.Alike ⟨kind, old⟩ ⟨kind, old'⟩ shape.volume inPlace t p') :
    InStep (Written kind old old' shape.volume) (binary (.binary f) ⟨[o, p], [s, t], ⟨kind, old⟩, shape, math⟩)
      (binary (.binary f) ⟨[o', p'], [s, t], ⟨kind, old'⟩, shape, math⟩) := by
  simp only [binary, item_zero, item_one, ok_bind]
  have room : ¬ Data.size ⟨kind, old⟩ < shape.volume := Nat.not_lt.mpr fits
  have room' : ¬ Data.size ⟨kind, old'⟩ < shape.volume := Nat.not_lt.mpr fits'
  rw [if_neg room, if_neg room']
  refine (source_inStep left).bind fun lhs lhs' relatedLeft => ?_
  refine (source_inStep right).bind fun rhs rhs' relatedRight => written_inStep (fill_inStep fits fits' ?_)
  intro i inRange x y atX atY
  rw [relatedLeft.same i inRange x y atX atY, relatedRight.same i inRange x y atX atY]

/-- The operands of two runs, related one by one with their common shapes. -/
inductive Matching (R : Shape → Operand → Operand → Prop) : List Shape → List Operand → List Operand → Prop where
  | nil : Matching R [] [] []
  | cons {s : Shape} {ss : List Shape} {o o' : Operand} {os os' : List Operand} (head : R s o o')
      (tail : Matching R ss os os') : Matching R (s :: ss) (o :: os) (o' :: os')

theorem Matching.length_eq {R : Shape → Operand → Operand → Prop} {ss : List Shape} {os os' : List Operand}
    (matching : Matching R ss os os') : os.length = os'.length := by
  induction matching with
  | nil => rfl
  | cons head tail ih => rw [List.length_cons, List.length_cons, ih]

theorem sources_inStep {ss : List Shape} {os os' : List Operand}
    (matching : Matching (Operand.Alike ⟨kind, old⟩ ⟨kind, old'⟩ n inPlace) ss os os') :
    InStep (fun srcs srcs' => srcs.length = os.length ∧ List.Forall₂ (Source.Alike n old old') srcs srcs')
      (sources kind n os ss) (sources kind n os' ss) := by
  induction matching with
  | nil => exact .ok ⟨rfl, .nil⟩
  | cons head tail ih =>
    refine (source_inStep head).bind fun src src' alike => ih.bind fun srcs srcs' related => .ok ⟨?_, ?_⟩
    · rw [List.length_cons, List.length_cons, related.1]
    · exact .cons alike related.2

/-- Steps load the same from sources that are alike, next to what the buffers hold. -/
theorem loads_alike {srcs srcs' : List (Source (Elem kind))}
    (alike : List.Forall₂ (Source.Alike n old old') srcs srcs') {i : Nat} (inRange : i < n) {x y : Elem kind}
    (atX : old[i]? = some x) (atY : old'[i]? = some y) :
    (fun (k : Nat) => srcs[k]?.bind fun (s : Source (Elem kind)) => s.get i x) =
      fun (k : Nat) => srcs'[k]?.bind fun (s : Source (Elem kind)) => s.get i y := by
  funext k
  cases atK : srcs[k]? with
  | none =>
    have beyond : srcs.length ≤ k := List.getElem?_eq_none_iff.mp atK
    rw [List.getElem?_eq_none (by rwa [← alike.length_eq])]
    rfl
  | some s =>
    obtain ⟨s', atK', related⟩ := forall₂_getElem? alike atK
    rw [atK', Option.bind_some, Option.bind_some]
    exact related.same i inRange x y atX atY

/-- Blocks are evaluated alike from sources that are alike. -/
theorem runBlocks_alike (math : MathMode) {srcs srcs' : List (Source (Elem kind))}
    (alike : List.Forall₂ (Source.Alike n old old') srcs srcs') {steps : List Step} (someSteps : steps ≠ [])
    {k : Kind} (checked : Expr.checkFrom srcs.length k 0 steps = .ok ()) (fits : n ≤ old.size) (fits' : n ≤ old'.size) :
    ∃ new, new.length = n ∧ runBlocks math steps srcs blockSize 0 (old.extract 0 n).toList = some new ∧
      runBlocks math steps srcs' blockSize 0 (old'.extract 0 n).toList = some new := by
  have checked' := checked
  rw [alike.length_eq] at checked'
  have covers : ∀ s ∈ srcs, s.Covers n := by
    intro s member
    obtain ⟨s', -, related⟩ := partner alike member
    exact related.covers
  have covers' : ∀ s ∈ srcs', s.Covers n := by
    intro s' member
    obtain ⟨s, -, related⟩ := partner_of alike member
    exact related.covers'
  have length : (old.extract 0 n).toList.length = n := by simp [fits]
  have length' : (old'.extract 0 n).toList.length = n := by simp [fits']
  have positive : 0 < blockSize := by decide
  obtain ⟨new, ran, size⟩ := runBlocks_total math covers checked positive (old.extract 0 n).toList 0 (by omega)
  obtain ⟨new', ran', size'⟩ := runBlocks_total math covers' checked' positive (old'.extract 0 n).toList 0 (by omega)
  have equal : new' = new := by
    apply List.ext_getElem?
    intro i
    by_cases inRange : i < n
    · obtain ⟨regs, ranRegs, last⟩ := runBlocks_at someSteps covers checked positive _ (by omega) ran (i := i) (by omega)
      obtain ⟨regs', ranRegs', last'⟩ :=
        runBlocks_at someSteps covers' checked' positive _ (by omega) ran' (i := i) (by omega)
      simp only [Nat.zero_add, Array.getElem_toList, Array.getElem_extract] at ranRegs ranRegs'
      rw [loads_alike alike inRange (Array.getElem?_eq_getElem (by omega)) (Array.getElem?_eq_getElem (by omega)),
        ranRegs'] at ranRegs
      rw [← last, ← last', Option.some.inj ranRegs]
    · rw [List.getElem?_eq_none (by omega), List.getElem?_eq_none (by omega)]
  exact ⟨new, by omega, ran, by rw [ran', equal]⟩

theorem fused_inStep {e : Expr} {k : Kind} (checked : e.check k = .ok ()) {ss : List Shape} {os os' : List Operand}
    (count : os.length = e.inputs) (fits : shape.volume ≤ old.size) (fits' : shape.volume ≤ old'.size)
    (matching : Matching (Operand.Alike ⟨kind, old⟩ ⟨kind, old'⟩ shape.volume inPlace) ss os os') :
    InStep (Written kind old old' shape.volume) (fused (.fused e) ⟨os, ss, ⟨kind, old⟩, shape, math⟩)
      (fused (.fused e) ⟨os', ss, ⟨kind, old'⟩, shape, math⟩) := by
  obtain ⟨someSteps, steps⟩ := Expr.check_ok checked
  have counted : ¬ os.length ≠ e.inputs := not_not.mpr count
  have counted' : ¬ os'.length ≠ e.inputs := by
    rw [← matching.length_eq]
    exact counted
  have room : ¬ Data.size ⟨kind, old⟩ < shape.volume := Nat.not_lt.mpr fits
  have room' : ¬ Data.size ⟨kind, old'⟩ < shape.volume := Nat.not_lt.mpr fits'
  simp only [fused, if_neg counted, if_neg counted', if_neg room, if_neg room']
  refine (sources_inStep matching).bind fun srcs srcs' related => ?_
  rw [← count, ← related.1] at steps
  obtain ⟨new, length, ran, ran'⟩ := runBlocks_alike math related.2 someSteps steps fits fits'
  simp only [ran, ran']
  exact .ok ⟨_, _, rfl, rfl, overwritten_append fits fits' (by simpa using length)⟩

end Elementwise

end Kernel

end TensorGraph
