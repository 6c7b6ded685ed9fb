import TensorGraph.Proofs.Executable.Slots
import TensorGraph.Proofs.Pass.Canonical

/-! Launches on buffers that carry values. A launch leaves the value of its operation in the output buffer, or
it fails and leaves a trace there. -/
namespace TensorGraph

open TensorGraph.Action

/-- A value that is copied into a buffer with room for it begins the buffer. -/
theorem Data.copyFrom_whole {old source : Data} {n : Nat} (kind : source.kind = old.kind)
    (size : source.size = n) (room : n ≤ old.size) :
    ∃ data, old.copyFrom source n = .ok data ∧ data.Begins source ∧ data.size = old.size := by
  obtain ⟨sourceKind, xs⟩ := source
  obtain ⟨oldKind, elems⟩ := old
  obtain rfl : sourceKind = oldKind := kind
  simp only [Data.size] at size room
  refine ⟨_, Kernel.copyFrom_eq _ _ (Nat.le_of_eq size.symm) room, ⟨elems.extract n elems.size, ?_⟩, ?_⟩
  · rw [← size, Array.extract_size]
  · simp only [Data.size, Array.size_append, Array.size_extract]
    omega

/-- The buffer is where a device works, and begins with a tensor unless it is the trace of a failure. -/
structure Machine.Carries (m : Machine) (b : Buffer) (d : Device) (t : Tensor) : Prop where
  on : b.On d
  full : (m.contents b).isSome
  begins : m.taints b = false → ∃ data, m.contents b = some data ∧ data.Begins t.data

namespace Machine

variable {m m' : Machine} {b : Buffer} {d : Device} {t : Tensor}

/-- What is to be known of a buffer is known of its block. -/
theorem contents_congr (same : ∀ k, Buffer.isIn k (some b) → m'.sees k = m.sees k) :
    m'.contents b = m.contents b ∧ m'.taints b = m.taints b := by
  cases b with
  | borrowed data => exact ⟨rfl, rfl⟩
  | owned r => exact sees_eq_iff.mp (same r.key (by simp [Buffer.isIn]))

theorem Carries.of_sees (carries : m.Carries b d t)
    (same : ∀ k, Buffer.isIn k (some b) → m'.sees k = m.sees k) : m'.Carries b d t := by
  obtain ⟨contents, taints⟩ := contents_congr same
  refine ⟨carries.on, contents ▸ carries.full, fun clean => ?_⟩
  rw [contents]
  exact carries.begins (taints ▸ clean)

/-- On devices where nothing has failed, no buffer is the trace of a failure. -/
theorem taints_of_serves (serves : m.Serves d) (on : b.On d) : m.taints b = false := by
  cases b with
  | borrowed data => rfl
  | owned r =>
    obtain ⟨home, b, kind, capacity⟩ := r
    obtain rfl : home = d := on
    cases home with
    | host => rfl
    | sim id ordinal =>
      have healthy := serves id rfl
      have unbroken : ((m.accelerator id).memory.get? b).any Block.broken = false := by
        cases at_ : (m.accelerator id).memory.get? b with
        | none => rfl
        | some block => exact healthy.whole at_
      have clean : ((m.accelerator id).hazards.get b).writer.bind (m.accelerator id).failure? = none := by
        cases ((m.accelerator id).hazards.get b).writer with
        | none => rfl
        | some l => exact healthy.clean l
      simp only [taints, BlockRef.key, Device.home, view, Accelerator.view, Accelerator.tainted, unbroken, clean]
      rfl

end Machine

section Kernels

variable {m : Machine} {l : Launch Buffer} {es : List (Buffer × Tensor)} {t : Tensor} {out : BlockRef}
  {block : Block} {kernel : Kernel}

/-- A kernel gets the tensors that the buffers carry, those in the output block too. -/
theorem Device.operand_shows {e : Buffer × Tensor}
    (carried : ∃ data, m.contents e.1 = some data ∧ data.Begins e.2.data)
    (sharing : Buffer.isIn out.key (some e.1) → e.2.shape = t.shape)
    (at_ : (m.view out.key).block = some block) :
    (Device.operandOf m out.key e.1).Shows block.data t.shape e.2 := by
  obtain ⟨data, contents, begins⟩ := carried
  obtain ⟨b, u⟩ := e
  cases b with
  | borrowed source =>
    obtain rfl : source = data := Option.some.inj contents
    exact begins
  | owned r =>
    obtain ⟨block', found, rfl⟩ := Option.map_eq_some_iff.mp contents
    simp only [Device.operandOf]
    by_cases same : r.key = out.key
    · rw [if_pos same]
      rw [same, at_] at found
      obtain rfl := Option.some.inj found
      exact ⟨begins, sharing (by simp [Buffer.isIn, same])⟩
    · rw [if_neg same, found]
      exact begins

/-- A reference kernel computes the value of its operation from buffers that carry the operands. -/
theorem Device.kernel_carries [BlockRoutine] (inputs : l.inputs = es.map fun e => (e.1, e.2.shape))
    (carried : ∀ e ∈ es, ∃ data, m.contents e.1 = some data ∧ data.Begins e.2.data)
    (sharing : ∀ e ∈ es, Buffer.isIn out.key (some e.1) → l.op.isFusable ∧ e.2.shape = t.shape)
    (shape : l.shape = t.shape) (at_ : (m.view out.key).block = some block)
    (kindOf : block.data.kind = t.kind) (room : t.shape.volume ≤ block.data.size)
    (computes : ¬ l.op.isTransfer) (formed : l.op.Formed)
    (found : Kernels.host.get? l.op.family = some kernel)
    (ran : l.op.eval l.math (es.map Prod.snd) = .ok t) :
    ∃ data, kernel l.op (Device.argsOf m l out.key block.data) = .ok data ∧ data.Begins t.data ∧
      data.size = block.data.size := by
  have args : Device.argsOf m l out.key block.data =
      Kernel.within (es.map fun e => Device.operandOf m out.key e.1) (es.map Prod.snd) block.data t.shape
        l.math := by
    simp only [Device.argsOf, Kernel.within, inputs, shape, List.map_map, Function.comp_def]
  have shown : List.Forall₂ (Operand.Shows block.data t.shape) (es.map fun e => Device.operandOf m out.key e.1)
      (es.map Prod.snd) := by
    rw [List.forall₂_map_left_iff, List.forall₂_map_right_iff]
    exact List.forall₂_same.mpr fun e member =>
      Device.operand_shows (carried e member) (fun isIn => (sharing e member isIn).2) at_
  have apart : l.op.isFusable ∨ Kernel.Apart (es.map fun e => Device.operandOf m out.key e.1) := by
    by_cases fusable : l.op.isFusable
    · exact .inl fusable
    refine .inr fun o member isOutput => ?_
    obtain ⟨e, inEs, rfl⟩ := List.mem_map.mp member
    obtain ⟨b, u⟩ := e
    cases b with
    | borrowed data => cases isOutput
    | owned r =>
      simp only [Device.operandOf] at isOutput
      by_cases same : r.key = out.key
      · exact fusable (sharing _ inEs (by simp [Buffer.isIn, same])).1
      · rw [if_neg same] at isOutput
        cases isOutput
  rw [args]
  exact Op.kernel_shown computes formed found ran kindOf room apart shown

end Kernels

namespace Activation

variable {a a' a'' : Activation} {c : Context} {ext : Key → Nat} {slot : SlotId} {d : Device} {t : Tensor}
  {b : Buffer} {clean : Prop}

variable [BlockRoutine]

/-- What became of a command that writes a slot: its value is there, or the buffer there is the trace of a launch
that failed. What has a value was not made from traces of failures. -/
structure Made (a a' : Activation) (c : Context) (ext : Key → Nat) (slot : SlotId) (d : Device) (t : Tensor)
    (b : Buffer) (clean : Prop) : Prop where
  at_ : a'.frame.buffer? slot = some b
  carries : a'.machine.Carries b d t
  outcome : (a.Steps a' ext slot False ∧ clean ∧ a'.machine.taints b = false) ∨
    (a.Steps a' ext slot True ∧ a'.machine.taints b = true ∧ ¬ c.Reliable a.machine ∧
      ∃ id, a'.machine.Blamed id (a.machine.accelerator id).launches)

theorem Steps.made (steps : a.Steps a' ext slot False) (made : a'.Made a'' c ext slot d t b clean) :
    a.Made a'' c ext slot d t b clean where
  at_ := made.at_
  carries := made.carries
  outcome := made.outcome.imp (fun ⟨more, fine⟩ => ⟨steps.after more, fine⟩)
    fun ⟨more, tainted, ill, id, l, later, failed⟩ => ⟨steps.after more, tainted,
      fun reliable => ill (reliable.lasts steps.lasts fun loud => loud),
      id, l, Nat.le_trans (steps.lasts.launches id) later, failed⟩

theorem Made.mono {clean' : Prop} (made : a.Made a' c ext slot d t b clean) (cleaner : clean → clean') :
    a.Made a' c ext slot d t b clean' :=
  { made with outcome := made.outcome.imp_left fun ⟨steps, fine, rest⟩ => ⟨steps, cleaner fine, rest⟩ }

/-- Nothing was done to the slot any more. -/
theorem Made.after (made : a.Made a' c ext slot d t b clean) (steps : a'.Steps a'' ext slot False)
    (at_ : a''.frame.buffer? slot = some b)
    (sees : ∀ k, Buffer.isIn k (some b) → a''.machine.sees k = a'.machine.sees k) :
    a.Made a'' c ext slot d t b clean where
  at_ := at_
  carries := made.carries.of_sees sees
  outcome := by
    obtain ⟨-, taints⟩ := Machine.contents_congr sees
    rw [taints]
    refine made.outcome.imp (fun ⟨first, fine⟩ => ⟨first.trans steps |>.mono (by simp), fine⟩)
      fun ⟨first, tainted, ill, id, blamed⟩ => ⟨first.trans steps |>.mono (by simp), tainted, ill, id, ?_⟩
    exact steps.lasts.recorded id _ blamed

omit [BlockRoutine] in
/-- A device wrote the block that only a slot refers to. -/
theorem Steps.written {m : Machine} {loud : Prop} {r : BlockRef}
    (alters : a.machine.Alters m (· = r.key) loud) (only : a.frame.Private ext slot r.key) :
    a.Steps { a with machine := m } ext slot loud :=
  ⟨alters.toLasts, rfl, fun _ _ => rfl, fun _ common => alters.sees fun same => common (same ▸ only), rfl, rfl,
    rfl⟩

omit [BlockRoutine] in
theorem Tidy.written (tidy : a.Tidy c ext) {m : Machine} {loud : Prop} {r : BlockRef} {block block' : Block}
    {tainted : Bool} (alters : a.machine.Alters m (· = r.key) loud)
    (before : (a.machine.view r.key).block = some block) (after : m.view r.key = ⟨some block', tainted⟩)
    (holders : block'.holders = block.holders) (kind : block'.data.kind = block.data.kind)
    (size : block'.data.size = block.data.size) : Tidy { a with machine := m } c ext := by
  refine tidy.rewritten alters ?_
  rintro _ rfl
  refine ⟨by simp [Machine.held, before, after, holders], fun r' same backs => ?_⟩
  obtain ⟨old, atOld, kindOf, sizeOf⟩ := backs
  rw [same, before] at atOld
  obtain rfl := Option.some.inj atOld
  exact ⟨block', by rw [same, after], kind.trans kindOf, size.trans sizeOf⟩

end Activation

namespace Calling

/-- The buffer that a launch reads for an operand in a slot, when the command holds a buffer of a slot. -/
def operand? (f : Frame) (held : Option (SlotId × Buffer)) (slot : SlotId) : Option Buffer :=
  match held with
  | some (own, input) => if own = slot then some input else f.buffer? slot
  | none => f.buffer? slot

variable {a : Activation} {c : Context} {ext : Key → Nat} {d : Device} {cmd : Command} {kernel : Kernel}
  {es : List (Buffer × Tensor)} {t : Tensor} {out : BlockRef} {held : Option (SlotId × Buffer)}
  {fails : Error → Activation → Prop}

theorem buffer_meets {slot : SlotId} {b : Buffer} (at_ : a.frame.buffer? slot = some b) :
    (buffer slot).Meets a fails fun x a' => a' = a ∧ x = b := by
  unfold buffer
  rw [meets_bind, meets_get]
  simp only [at_]
  exact ⟨rfl, rfl⟩

theorem operands_meet :
    List.Forall₂ (fun (e : Buffer × Tensor) (x : Site) => operand? a.frame held x.slot = some e.1)
      es cmd.inputs →
    (cmd.inputs.mapM fun (s : Site) => match held with
      | some (slot, input) => if slot = s.slot then pure input else buffer s.slot
      | none => buffer s.slot : Calling (List Buffer)).Meets a fails fun bs a' => a' = a ∧ bs = es.map Prod.fst := by
  intro reads
  refine meets_mapM (fun before bs a' => a' = a ∧ bs = (es.take before.length).map Prod.fst) _ ⟨rfl, rfl⟩ ?_ ?_
  · rintro before x after bs a' split ⟨rfl, rfl⟩
    rw [split] at reads
    obtain ⟨front, e, back, rfl, first, here, -⟩ := Checked.forall₂_split reads
    have length : front.length = before.length := first.length_eq
    have taken : ((front ++ e :: back).take (before ++ [x]).length).map Prod.fst =
        ((front ++ e :: back).take before.length).map Prod.fst ++ [e.1] := by
      rw [List.length_append, List.length_singleton, ← length, List.take_left, List.take_length_add_append]
      simp
    have found : ∀ {b : Buffer}, a'.frame.buffer? x.slot = some b → b = e.1 →
        (buffer x.slot).Meets a' fails fun y next => next = a' ∧
          ((front ++ e :: back).take before.length).map Prod.fst ++ [y] =
            ((front ++ e :: back).take (before ++ [x]).length).map Prod.fst := by
      rintro b at_ rfl
      refine (buffer_meets at_).post ?_
      rintro _ next ⟨rfl, rfl⟩
      exact ⟨rfl, taken.symm⟩
    unfold operand? at here
    cases held with
    | none => exact found here rfl
    | some own =>
      obtain ⟨slot, input⟩ := own
      simp only at here ⊢
      by_cases same : slot = x.slot
      · rw [if_pos same] at here ⊢
        cases here
        exact ⟨rfl, taken.symm⟩
      · rw [if_neg same] at here ⊢
        exact found here rfl
  · rintro bs a' ⟨rfl, rfl⟩
    rw [← reads.length_eq, List.take_length]
    exact ⟨rfl, rfl⟩

variable [BlockRoutine]

/-- A command computes a tensor from those of its operands, with a kernel that does what the reference does. -/
structure Computing (c : Context) (cmd : Command) (kernel : Kernel) (ts : List Tensor) (t : Tensor) : Prop where
  stands : ¬ cmd.op.isTransfer
  formed : cmd.op.Formed
  found : c.kernels.get? cmd.op.family = some kernel
  honest : c.kernels.Honest
  ran : cmd.op.eval cmd.math ts = .ok t
  kind : cmd.kind = t.kind

/-- A launch into a block that only its slot refers to. -/
theorem launch_meets {more : Key → Nat} {slot : SlotId} (tidy : a.Tidy c more) (owns : c.Owns d)
    (suits : out.Suits d cmd.kind t.shape.volume) (at_ : a.frame.buffer? slot = some (.owned out))
    (only : a.frame.Private ext slot out.key)
    (reads : List.Forall₂ (fun (e : Buffer × Tensor) (x : Site) => operand? a.frame held x.slot = some e.1)
      es cmd.inputs)
    (carried : ∀ e ∈ es, a.machine.Carries e.1 d e.2)
    (sharing : ∀ e ∈ es, Buffer.isIn out.key (some e.1) → cmd.op.isFusable ∧ e.2.shape = t.shape)
    (computing : Computing c cmd kernel (es.map Prod.snd) t) :
    (launch d cmd kernel ((es.map Prod.snd).map Tensor.shape) t.shape held (.owned out)).Meets a
      (fun e a' => a.Halts a' c more e) fun _ a' => a'.Tidy c more ∧
        a.Made a' c ext slot d t (.owned out) (∀ e ∈ es, a.machine.taints e.1 = false) := by
  obtain ⟨computes, formed, found, honest, ran, kind⟩ := computing
  obtain ⟨-, block, contents, kindOf, size⟩ := tidy.owned at_
  have room : t.shape.volume ≤ block.data.size := size ▸ suits.room
  have sameKind : block.data.kind = t.kind := kindOf.trans (suits.kind.trans kind)
  obtain ⟨reference, foundHost, agrees⟩ := honest _ computes _ found
  have zipped : (es.map Prod.fst).zip ((es.map Prod.snd).map Tensor.shape) = es.map fun e => (e.1, e.2.shape) := by
    rw [List.map_map, List.zip_map']
    rfl
  have computed : (∀ e ∈ es, a.machine.taints e.1 = false) → ∃ data,
      reference cmd.op (Device.argsOf a.machine ⟨cmd.label, cmd.op, kernel, es.map fun e => (e.1, e.2.shape),
        .owned out, t.shape, cmd.math⟩ out.key block.data) = .ok data ∧
        data.Begins t.data ∧ data.size = block.data.size := fun clean =>
    Device.kernel_carries (m := a.machine) (t := t) rfl (fun e member => (carried e member).begins (clean e member))
      sharing rfl contents sameKind room computes formed foundHost ran
  have fine : c.Reliable a.machine → ¬ ∃ e, kernel cmd.op (Device.argsOf a.machine ⟨cmd.label, cmd.op, kernel,
      es.map fun e => (e.1, e.2.shape), .owned out, t.shape, cmd.math⟩ out.key block.data) = .error e := by
    rintro reliable ⟨e, failed⟩
    rw [reliable.kernels, foundHost] at found
    obtain rfl := Option.some.inj found
    obtain ⟨data, succeeded, -⟩ := computed fun e member =>
      Machine.taints_of_serves (reliable.serves d owns) (carried e member).on
    cases succeeded.symm.trans failed
  unfold launch
  rw [meets_bind]
  refine (operands_meet reads).post ?_
  rintro _ a₁ ⟨rfl, rfl⟩
  rw [meets_bind, zipped]
  refine onMachine_meets (Device.dispatch_meets (tidy.has d owns) tidy.sane rfl suits.device contents
    fun e member => ?_) ?_ ?_
  · obtain ⟨e', inEs, rfl⟩ := List.mem_map.mp member
    exact ⟨(carried e' inEs).on, (carried e' inEs).full⟩
  · rintro e m ⟨alters, notVacant, failed⟩
    exact ⟨tidy.quiet alters, alters.toLasts, rfl, fun _ _ => alters.sees fun inside => inside, rfl, rfl, notVacant,
      fun reliable => fine reliable (failed (reliable.serves d owns))⟩
  · rintro _ m (⟨data, succeeded, clean, alters, new⟩ |
      ⟨failed, alters, blamed, block', new, sameData, holders⟩)
    · have clean' : ∀ e ∈ es, a₁.machine.taints e.1 = false := fun e member =>
        clean (e.1, e.2.shape) (List.mem_map.mpr ⟨e, member, rfl⟩)
      obtain ⟨data', again, begins, sameSize⟩ := computed clean'
      obtain rfl : data = data' := Except.ok.inj ((agrees _ _ succeeded).symm.trans again)
      have tidy' := tidy.written alters contents new rfl (begins.kind_eq.trans sameKind.symm) sameSize
      have made : a₁.Made { a₁ with machine := m } c ext slot d t (.owned out)
          (∀ e ∈ es, a₁.machine.taints e.1 = false) := by
        refine ⟨at_, ⟨suits.device, by simp [Machine.contents, new], fun _ => ⟨data, by simp [Machine.contents, new],
          begins⟩⟩, .inl ⟨.written alters only, clean', by simp [Machine.taints, new]⟩⟩
      refine count_meets _ fun stats => ⟨tidy'.recounted stats, ?_⟩
      exact made.after ((Activation.Steps.refl _ ext slot).recounted stats) at_ fun _ _ => rfl
    · have tidy' := tidy.written alters contents new holders (by rw [sameData]) (by rw [sameData])
      have made : a₁.Made { a₁ with machine := m } c ext slot d t (.owned out)
          (∀ e ∈ es, a₁.machine.taints e.1 = false) := by
        have tainted : m.taints (.owned out) = true := by simp [Machine.taints, new]
        refine ⟨at_, ⟨suits.device, by simp [Machine.contents, new], fun clean => ?_⟩,
          .inr ⟨.written alters only, tainted, fun reliable => ?_, blamed⟩⟩
        · cases tainted.symm.trans clean
        · exact fine reliable (failed (reliable.serves d owns))
      refine count_meets _ fun stats => ⟨tidy'.recounted stats, ?_⟩
      exact made.after ((Activation.Steps.refl _ ext slot).recounted stats) at_ fun _ _ => rfl

omit [BlockRoutine] in
/-- What is in another slot stays there, and stays as it is. -/
theorem beside {a' : Activation} {slot x : SlotId} {loud : Prop} (steps : a.Steps a' ext slot loud) {b : Buffer}
    (at_ : a.frame.buffer? x = some b) (other : x ≠ slot) : a'.frame.buffer? x = some b ∧
      ∀ k, Buffer.isIn k (some b) → a'.machine.sees k = a.machine.sees k := by
  refine ⟨(steps.others x other).trans at_, fun k isIn => steps.sees k fun only => ?_⟩
  have outside := only.2 x other
  rw [at_, isIn] at outside
  cases outside

omit [BlockRoutine] in
/-- Another slot does not refer to a block that only one slot refers to. -/
theorem isIn_private {slot x : SlotId} {b : Buffer} {k : Key} (only : a.frame.Private ext slot k)
    (at_ : a.frame.buffer? x = some b) (isIn : Buffer.isIn k (some b)) : x = slot := by
  refine Classical.byContradiction fun other => ?_
  have outside := only.2 x other
  rw [at_, isIn] at outside
  cases outside

/-- A command that computes writes to a block of its own. -/
theorem computeApart_meets (tidy : a.Tidy c ext) (inside : cmd.output.slot < a.frame.slots.size)
    (device : c.device cmd.location = .ok d) (mark : cmd.inPlace = none)
    (reads : List.Forall₂ (fun (e : Buffer × Tensor) (x : Site) => a.frame.buffer? x.slot = some e.1 ∧
      x.slot ≠ cmd.output.slot) es cmd.inputs)
    (carried : ∀ e ∈ es, a.machine.Carries e.1 d e.2) (computing : Computing c cmd kernel (es.map Prod.snd) t) :
    (compute c cmd kernel ((es.map Prod.snd).map Tensor.shape) t.shape).Meets a
      (fun e a' => a.Halts a' c ext e) fun _ a' => a'.Tidy c ext ∧
        ∃ b, a.Made a' c ext cmd.output.slot d t b (∀ e ∈ es, a.machine.taints e.1 = false) := by
  have owns : c.Owns d := (Context.device_eq_ok device).1
  unfold compute
  rw [meets_bind, meets_lift, device]
  simp only [mark]
  rw [meets_bind]
  refine (acquire_meets tidy inside owns).mono (fun _ _ halts => halts (Shape.volume_lt_of_fits t.fits)) ?_
  rintro b a₁ ⟨r, rfl, suits, tidy₁, steps, at_, only⟩
  have reads₁ : List.Forall₂ (fun (e : Buffer × Tensor) (x : Site) => a₁.frame.buffer? x.slot = some e.1 ∧
      x.slot ≠ cmd.output.slot ∧ ∀ k, Buffer.isIn k (some e.1) → a₁.machine.sees k = a.machine.sees k)
      es cmd.inputs := by
    refine reads.imp fun e x ⟨here, other⟩ => ?_
    obtain ⟨still, sees⟩ := beside steps here other
    exact ⟨still, other, sees⟩
  have sees : ∀ e ∈ es, ∀ k, Buffer.isIn k (some e.1) → a₁.machine.sees k = a.machine.sees k :=
    fun e member => by
      obtain ⟨x, -, -, -, same⟩ := Checked.partner reads₁ member
      exact same
  refine (launch_meets tidy₁ owns suits at_ only (reads₁.imp fun e x held => held.1)
    (fun e member => (carried e member).of_sees (sees e member)) (fun e member isIn => ?_) computing).mono
      (fun e a' halts => steps.halts halts) ?_
  · obtain ⟨x, -, here, other, -⟩ := Checked.partner reads₁ member
    exact absurd (isIn_private only here isIn) other
  · rintro _ a' ⟨tidy', made⟩
    refine ⟨tidy', _, (steps.made made).mono fun clean e member => ?_⟩
    rw [← (Machine.contents_congr (sees e member)).2]
    exact clean e member

/-- A command that computes may write over one of its operands, which is held until the launch is done. -/
theorem computeOver_meets (tidy : a.Tidy c ext) (device : c.device cmd.location = .ok d) {i : Nat} {x : Site}
    (mark : cmd.inPlace = some i) (atI : cmd.inputs[i]? = some x) (same : x.slot = cmd.output.slot)
    (reads : List.Forall₂ (fun (e : Buffer × Tensor) (x : Site) => a.frame.buffer? x.slot = some e.1 ∧
      (x.slot = cmd.output.slot → cmd.op.isFusable ∧ e.2.shape = t.shape)) es cmd.inputs)
    (carried : ∀ e ∈ es, a.machine.Carries e.1 d e.2) (computing : Computing c cmd kernel (es.map Prod.snd) t) :
    (compute c cmd kernel ((es.map Prod.snd).map Tensor.shape) t.shape).Meets a
      (fun e a' => a.Halts a' c ext e) fun _ a' => a'.Tidy c ext ∧
        ∃ b, a.Made a' c ext cmd.output.slot d t b (∀ e ∈ es, a.machine.taints e.1 = false) := by
  have owns : c.Owns d := (Context.device_eq_ok device).1
  obtain ⟨entry, inEs, atX, -⟩ := Checked.partner_of reads (List.mem_of_getElem? atI)
  rw [same] at atX
  unfold compute
  rw [meets_bind, meets_lift, device]
  simp only [mark]
  rw [meets_bind, meets_lift, Kernel.item_eq_ok.mpr atI]
  simp only
  rw [same, meets_bind]
  refine (buffer_meets atX).post ?_
  rintro input a₀ ⟨rfl, rfl⟩
  have known : ∀ r, entry.1 = .owned r → c.Owns r.device ∧ a₀.machine.Backs r := fun r isOwned =>
    tidy.owned (isOwned ▸ atX)
  refine (holding_meets (P := True) tidy known fun m tidy₁ lasts sees₁ => ?_).mono (fun _ _ halts => halts trivial)
    fun _ _ done => done
  refine Meets.mono ?_ (fun _ _ halts _ => halts) fun _ _ done => done
  rw [meets_bind]
  refine (acquireOver_meets tidy₁ atX owns).mono (fun _ _ halts => halts (Shape.volume_lt_of_fits t.fits)) ?_
  rintro b a₁ ⟨r, rfl, suits, tidy₂, steps, at_, only, kept⟩
  have first : a₀.Steps ⟨a₀.frame, m⟩ ext cmd.output.slot False :=
    ⟨lasts, rfl, fun _ _ => rfl, fun k _ => sees₁ k, rfl, rfl, rfl⟩
  have reads₁ : List.Forall₂ (fun (e : Buffer × Tensor) (y : Site) =>
      operand? a₁.frame (some (cmd.output.slot, entry.1)) y.slot = some e.1 ∧
      (∀ k, Buffer.isIn k (some e.1) → a₁.machine.sees k = a₀.machine.sees k) ∧
      (Buffer.isIn r.key (some e.1) → cmd.op.isFusable ∧ e.2.shape = t.shape)) es cmd.inputs := by
    refine reads.imp fun e y ⟨here, sharing⟩ => ?_
    simp only [operand?]
    by_cases atOut : cmd.output.slot = y.slot
    · rw [← atOut, atX] at here
      rw [if_pos atOut]
      have isInput : entry.1 = e.1 := Option.some.inj here
      refine ⟨congrArg some isInput, fun k isIn => ?_, fun _ => sharing atOut.symm⟩
      exact (kept k (isInput ▸ isIn)).trans (sees₁ k)
    · rw [if_neg atOut]
      obtain ⟨still, sees⟩ := beside steps here (Ne.symm atOut)
      refine ⟨still, fun k isIn => (sees k isIn).trans (sees₁ k), fun isIn => ?_⟩
      exact absurd (isIn_private only still isIn) (Ne.symm atOut)
  have facts : ∀ e ∈ es, (∀ k, Buffer.isIn k (some e.1) → a₁.machine.sees k = a₀.machine.sees k) ∧
      (Buffer.isIn r.key (some e.1) → cmd.op.isFusable ∧ e.2.shape = t.shape) := fun e member => by
    obtain ⟨y, -, -, known⟩ := Checked.partner reads₁ member
    exact known
  refine (launch_meets tidy₂ owns suits at_ only (reads₁.imp fun e y held => held.1)
    (fun e member => (carried e member).of_sees (facts e member).1) (fun e member => (facts e member).2)
    computing).mono (fun e a' halts => ?_) ?_
  · refine steps.halts_of (fun k others => ?_) halts
    by_cases isIn : Buffer.isIn k (some entry.1)
    · exact kept k isIn
    · have none : Buffer.hold (some entry.1) k = 0 := if_neg isIn
      exact steps.public (by omega)
  · rintro _ a' ⟨tidy', made⟩
    refine ⟨tidy', fun m' tidy₃ lasts₃ sees₃ => ⟨tidy₃, .owned r, ?_⟩⟩
    have released : a'.Steps ⟨a'.frame, m'⟩ ext cmd.output.slot False := by
      refine ⟨lasts₃, rfl, fun _ _ => rfl, fun k common => sees₃ k ?_, rfl, rfl, rfl⟩
      refine Nat.pos_of_ne_zero fun zero => common ⟨by omega, fun y _ => Bool.eq_false_iff.mpr fun isIn => ?_⟩
      have positive := Frame.refs_pos isIn
      omega
    refine (((first.after steps).made made).after released made.at_ fun k isIn => sees₃ k ?_).mono
      fun clean e member => ?_
    · have positive : 0 < a'.frame.refs k := Frame.refs_pos (by rw [made.at_]; exact isIn)
      omega
    · rw [← (Machine.contents_congr (facts e member).1).2]
      exact clean e member

/-- A command that computes reads what its operands carry, also where it writes over one of them. -/
theorem compute_meets (tidy : a.Tidy c ext) (inside : cmd.output.slot < a.frame.slots.size)
    (device : c.device cmd.location = .ok d)
    (reads : List.Forall₂ (fun (e : Buffer × Tensor) (x : Site) => a.frame.buffer? x.slot = some e.1 ∧
      (x.slot = cmd.output.slot → cmd.inPlace.isSome ∧ cmd.op.isFusable ∧ e.2.shape = t.shape)) es cmd.inputs)
    (carried : ∀ e ∈ es, a.machine.Carries e.1 d e.2)
    (marked : ∀ i, cmd.inPlace = some i → ∃ x, cmd.inputs[i]? = some x ∧ x.slot = cmd.output.slot)
    (computing : Computing c cmd kernel (es.map Prod.snd) t) :
    (compute c cmd kernel ((es.map Prod.snd).map Tensor.shape) t.shape).Meets a
      (fun e a' => a.Halts a' c ext e) fun _ a' => a'.Tidy c ext ∧
        ∃ b, a.Made a' c ext cmd.output.slot d t b (∀ e ∈ es, a.machine.taints e.1 = false) := by
  cases mark : cmd.inPlace with
  | none =>
    refine computeApart_meets tidy inside device mark (reads.imp fun e x held => ⟨held.1, fun same => ?_⟩) carried
      computing
    have marked := (held.2 same).1
    rw [mark] at marked
    cases marked
  | some i =>
    obtain ⟨x, atI, same⟩ := marked i mark
    exact computeOver_meets tidy device mark atI same (reads.imp fun e x held => ⟨held.1, fun same => (held.2 same).2⟩)
      carried computing

/-- The first elements of a buffer are the tensor that it carries. Who reads the trace of a failure hears of it. -/
theorem read_meets {b : Buffer} (tidy : a.Tidy c ext) (owns : c.Owns d) (carries : a.machine.Carries b d t) :
    (onMachine (d.download b t.shape.volume)).Meets a (fun e a' => a.Halts a' c ext e) fun data a' =>
      data = t.data ∧ a.machine.taints b = false ∧
        ∃ m, a' = { a with machine := m } ∧ a.machine.Alters m (fun _ => False) False := by
  obtain ⟨whole, contents⟩ := Option.isSome_iff_exists.mp carries.full
  have taken : a.machine.taints b = false → whole.take t.shape.volume = .ok t.data := fun clean => by
    obtain ⟨data, same, begins⟩ := carries.begins clean
    obtain rfl : whole = data := Option.some.inj (contents.symm.trans same)
    rw [← t.size_eq]
    exact begins.take
  refine onMachine_meets (Device.download_meets tidy.sane carries.on (tidy.has d owns) contents taken)
    (fun e m refused => tidy.halts owns refused) ?_
  rintro data m ⟨same, alters, clean⟩
  exact ⟨same, clean, m, rfl, alters⟩

omit [BlockRoutine] in
theorem location_of_on {b : Buffer} (owns : c.Owns d) (on : b.On d) : c.device b.location = .ok d := by
  cases b with
  | borrowed data =>
    obtain rfl : d = .host := on
    rfl
  | owned r =>
    obtain rfl : r.device = d := on
    exact owns.device

/-- A transfer leaves the value of its operand in the slot that it writes. -/
theorem transfer_meets {e : Device} {x : Site} {rest : List Site} {src : Buffer} (tidy : a.Tidy c ext)
    (inside : cmd.output.slot < a.frame.slots.size) (device : c.device cmd.location = .ok d) (owns : c.Owns e)
    (inputs : cmd.inputs = x :: rest) (other : x.slot ≠ cmd.output.slot)
    (at_ : a.frame.buffer? x.slot = some src) (carries : a.machine.Carries src e t) (kind : cmd.kind = t.kind) :
    (transfer c cmd t.shape).Meets a (fun e a' => a.Halts a' c ext e) fun _ a' => a'.Tidy c ext ∧
      ∃ b, a'.machine.taints b = false ∧ a.Made a' c ext cmd.output.slot d t b (a.machine.taints src = false) := by
  have owns' : c.Owns d := (Context.device_eq_ok device).1
  unfold transfer
  rw [inputs]
  simp only
  rw [meets_bind]
  refine (buffer_meets at_).post ?_
  rintro _ a₀ ⟨rfl, rfl⟩
  rw [meets_bind, meets_lift, device]
  simp only
  rw [meets_bind]
  refine (acquire_meets tidy inside owns').mono (fun _ _ halts => halts (Shape.volume_lt_of_fits t.fits)) ?_
  rintro b a₁ ⟨r, rfl, suits, tidy₁, steps, atOut, only⟩
  obtain ⟨still, sees⟩ := beside steps at_ other
  have carries₁ := carries.of_sees sees
  rw [meets_bind, meets_lift, location_of_on owns carries.on]
  simp only
  rw [meets_bind]
  refine (read_meets tidy₁ owns carries₁).mono (fun e a' halts => steps.halts halts) ?_
  rintro _ a₂ ⟨rfl, clean, m, rfl, alters⟩
  have tidy₂ := tidy₁.quiet alters
  have steps₂ : a₀.Steps { a₁ with machine := m } ext cmd.output.slot False := steps.after (.quiet alters ext _)
  obtain ⟨-, block, contents, kindOf, size⟩ := tidy₂.owned atOut
  have sameKind : t.data.kind = block.data.kind := (kindOf.trans (suits.kind.trans kind)).symm
  have room : t.shape.volume ≤ block.data.size := size ▸ suits.room
  obtain ⟨data, copied, begins, sameSize⟩ := Data.copyFrom_whole sameKind t.size_eq room
  rw [meets_bind]
  have before : m.view r.key = ⟨some block, (m.view r.key).tainted⟩ := View.ext contents rfl
  refine onMachine_meets (Device.upload_meets tidy₂.sane suits.device (tidy₂.has d owns') before copied)
    (fun e m' refused => steps₂.halts (tidy₂.halts owns' refused)) ?_
  rintro _ m' ⟨alters', new⟩
  have tidy₃ := tidy₂.written alters' contents new rfl (begins.kind_eq.trans sameKind) sameSize
  have steps₃ : a₀.Steps { a₁ with machine := m' } ext cmd.output.slot False :=
    steps₂.after (.written alters' (steps₂.private_iff.mpr (steps.private_iff.mp only)))
  refine count_meets _ fun stats => ⟨tidy₃.recounted stats, .owned r, by simp [Machine.taints, new], ?_⟩
  refine ⟨atOut, ⟨suits.device, by simp [Machine.contents, new], fun _ => ⟨data, by simp [Machine.contents, new],
    begins⟩⟩, .inl ⟨steps₃.recounted stats, ?_, by simp [Machine.taints, new]⟩⟩
  rw [← (Machine.contents_congr sees).2]
  exact clean

end Calling

end TensorGraph
