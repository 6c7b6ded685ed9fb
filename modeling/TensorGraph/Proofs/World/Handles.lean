import TensorGraph.Proofs.World.Calls
import TensorGraph.Proofs.World.Outcomes

/-! Results that stay in the buffers of an executable. A handle is on a block that it holds, so nobody else writes to
the block while the handle is held; the number of calls decides whether the handle may still be read. -/
namespace TensorGraph

open Checked TensorGraph.Action

/-- Two buffers have no block in common. -/
def Buffer.Apart (b b' : Buffer) : Prop := ∀ k, Buffer.isIn k (some b) → Buffer.isIn k (some b') = false

namespace Executable

/-- A call leaves a buffer alone. -/
structure Spares (f : Executable) (inputs : List Tensor) (m : Machine) (b : Buffer) : Prop where
  /-- No command gets the buffer to write its output to. -/
  output : ∀ {done rest : List Command} {cmd : Command} {d : Device} {n : Nat} {b' : Buffer} {a a' : Activation},
    f.schedule.commands = done ++ cmd :: rest → f.Reaches inputs m done a → f.context.device cmd.location = .ok d →
      (Calling.acquire cmd.output.slot d cmd.kind n).start a = (.ok b', a') → b.Apart b'
  /-- No command that overwrites an operand gets it either. -/
  inPlace : ∀ {done rest : List Command} {cmd : Command} {d : Device} {n : Nat} {x : Site} {b' input : Buffer}
    {a a' : Activation}, f.schedule.commands = done ++ cmd :: rest → f.Reaches inputs m done a →
      f.context.device cmd.location = .ok d → a.frame.buffer? x.slot = some input →
        (Calling.holding input (Calling.acquireOver x.slot input d cmd.kind n)).start a = (.ok b', a') → b.Apart b'
  /-- Between any two commands, and in the middle of one, what is in the buffer is what was there before. -/
  between : ∀ {done rest : List Command} {a : Activation}, f.schedule.commands = done ++ rest →
    f.Reaches inputs m done a → a.machine.contents b = m.contents b
  within : ∀ {done rest : List Command} {cmd : Command} {front back : List Site} {a : Activation},
    f.schedule.commands = done ++ cmd :: rest → cmd.inputs = front ++ back →
      f.ReachesWithin inputs m done cmd front a → a.machine.contents b = m.contents b
  /-- And so it is when the call has ended, whatever comes of it. -/
  ended : ∀ {borrow : Bool} {result : Except Error (List Output)} {g : Executable} {m' : Machine},
    f.call inputs borrow m = (result, g, m') → m'.contents b = m.contents b

end Executable

namespace World

variable {faultless : Prop} {w w' w'' : World} {m : Machine} {before after : List Executable} {f g : Executable}
  {inputs : List Tensor} {id : ExecutableId}

section Buffers

/-- A block that a result is in has a holder besides the executables. -/
theorem others_of_output (fs : List Executable) {h : Handle} (held : .borrowed h ∈ w.outputs) {k : Key}
    (isIn : Buffer.isIn k (some h.buffer)) : 0 < others fs w.outputs k := by
  have least := Output.holds_le held k
  have one : (Output.borrowed h).holds k = 1 := by simp [Output.holds, Buffer.hold, isIn]
  simp only [others]
  omega

/-- As long as a result is held, calls leave its buffer alone. -/
theorem Good.spares [BlockRoutine] (good : Good faultless w) (split : w.executables = before ++ f :: after)
    (accepts : f.Accepts inputs) {h : Handle} (held : .borrowed h ∈ w.outputs) :
    f.Spares inputs w.machine h.buffer := by
  obtain ⟨scope, l, -, fits⟩ := good.fits (by simp [split] : f ∈ w.executables) inputs
  have fits := fits accepts
  have same : ∀ {m : Machine},
      (∀ k, 0 < others (before ++ after) w.outputs k → m.sees k = w.machine.sees k) →
      m.contents h.buffer = w.machine.contents h.buffer := fun sees =>
    (Machine.contents_congr fun k isIn => sees k (others_of_output _ held isIn)).1
  -- What a command writes to is referred to by one slot alone.
  have apart : ∀ r : BlockRef, others (before ++ after) w.outputs r.key = 0 → h.buffer.Apart (.owned r) := by
    intro r alone k isIn
    have shared := others_of_output (before ++ after) held isIn
    simp only [Buffer.isIn, beq_eq_false_iff_ne]
    rintro rfl
    omega
  constructor
  case output =>
    intro done rest cmd d n b' a a' order reaches device ran
    obtain ⟨mid, -⟩ := good.reaches split accepts order reaches
    have member : cmd ∈ f.schedule.commands := by simp [order]
    have inside : cmd.output.slot < a.frame.slots.size := by
      rw [mid.slots, fits.laid.slotCount_eq]
      exact fits.laid.fair.inRange (fits.laid.output_sited member)
    obtain ⟨r, rfl, -, -, -, -, alone, -⟩ :=
      (Calling.acquire_meets mid.tidy inside (Context.device_eq_ok device).1).of_ok ran
    exact apart r alone
  case inPlace =>
    intro done rest cmd d n x b' input a a' order reaches device at_ ran
    obtain ⟨mid, -⟩ := good.reaches split accepts order reaches
    have met : (Calling.holding input (Calling.acquireOver x.slot input d cmd.kind n)).Meets a
        (fun e a' => n < Shape.capacity → a.Halts a' f.context (others (before ++ after) w.outputs) e)
        fun b' _ => h.buffer.Apart b' := by
      apply Calling.holding_meets mid.tidy fun r owned => mid.tidy.owned (owned ▸ at_)
      intro m tidy lasts sees
      apply (Calling.acquireOver_meets tidy at_ (Context.device_eq_ok device).1).post
      rintro _ a' ⟨r, rfl, -, tidy', -, -, ⟨alone, -⟩, -⟩
      exact ⟨tidy', fun _ _ _ _ => apart r alone⟩
    exact met.of_ok ran
  case between =>
    intro done rest a order reaches
    exact same (good.reaches split accepts order reaches).1.sees
  case within =>
    rintro done rest cmd front back a order whole ⟨a', reached, partly⟩
    obtain ⟨mid, counts⟩ := good.reaches split accepts order reached
    exact same ((mid.partly_meets fits order counts whole).of_ok partly).1.sees
  case ended =>
    intro borrow result g m' ran
    obtain ⟨a, -, rfl, met⟩ := good.call_cases split ran
    cases result with
    | error e =>
      rcases met with ⟨rfl, -⟩ | ⟨-, aborts⟩
      · rfl
      · exact same aborts.sees
    | ok os => exact same met.2.sees

end Buffers

section Numbers

/-- The operation is a call of an executable that was accepted, whatever came of it. -/
def Calls (id : ExecutableId) (w w' : World) : Prop :=
  ∃ before f after inputs borrow result g m, w.executables = before ++ f :: after ∧ f.id = id ∧ f.Accepts inputs ∧
    f.call inputs borrow w.machine = (result, g, m) ∧ w' = { w with
      machine := m, executables := before ++ g :: after, outputs := results result ++ w.outputs }

variable [BlockRoutine]

theorem Calls.step (calls : Calls id w w') : Step faultless w w' := by
  obtain ⟨before, f, after, inputs, borrow, result, g, m, split, -, -, ran, rfl⟩ := calls
  exact .call split inputs borrow ran

/-- Operations after a point, with the number of accepted calls of an executable among them. -/
inductive Since (faultless : Prop) (id : ExecutableId) (w : World) : Nat → World → Prop where
  | now : Since faultless id w 0 w
  | other {n : Nat} {w' w'' : World} (since : Since faultless id w n w') (step : Step faultless w' w'')
    (other : ¬ Calls id w' w'') : Since faultless id w n w''
  | call {n : Nat} {w' w'' : World} (since : Since faultless id w n w') (calls : Calls id w' w'') :
    Since faultless id w (n + 1) w''

/-- What an operation leaves of the counts of calls, of the accelerators and of results that are still held. -/
structure Onward (faultless : Prop) (w w' : World) : Prop where
  known : w.machine.calls.size ≤ w'.machine.calls.size
  counts : ∀ id, id < w.machine.calls.size → ¬ Calls id w w' → w'.machine.callsOf id = w.machine.callsOf id
  size : w.machine.accelerators.size ≤ w'.machine.accelerators.size
  healthy : faultless → ∀ id, id < w.machine.accelerators.size → (w.machine.accelerator id).Healthy →
    (w'.machine.accelerator id).Healthy
  /-- A result that was there before is in a buffer that nobody wrote to. A new one has a number of its own. -/
  held : ∀ h, .borrowed h ∈ w'.outputs →
    (.borrowed h ∈ w.outputs ∧ ∀ k, Buffer.isIn k (some h.buffer) → w'.machine.sees k = w.machine.sees k) ∨
      w.machine.callsOf h.executable < h.call

omit [BlockRoutine] in
theorem Onward.of_unmoved (unmoved : w.machine.Unmoved w'.machine) (outputs : w'.outputs = w.outputs)
    (known : w.machine.calls.size ≤ w'.machine.calls.size)
    (counts : ∀ id, id < w.machine.calls.size → w'.machine.callsOf id = w.machine.callsOf id) :
    Onward faultless w w' where
  known := known
  counts id inside _ := counts id inside
  size := unmoved.size
  healthy _ := unmoved.healthy
  held _ member := .inl ⟨outputs ▸ member, fun k _ => unmoved.sees k⟩

omit [BlockRoutine] in
theorem Onward.of_unnumbered (unmoved : w.machine.Unmoved w'.machine) (outputs : w'.outputs = w.outputs)
    (calls : w'.machine.calls = w.machine.calls) : Onward faultless w w' :=
  .of_unmoved unmoved outputs (Nat.le_of_eq (by rw [calls])) fun id _ => by rw [Machine.callsOf, calls]; rfl

omit [BlockRoutine] in
theorem Onward.of_alters (alters : w.machine.Alters w'.machine (fun _ => False) False)
    (outputs : w'.outputs = w.outputs) : Onward faultless w w' :=
  .of_unnumbered (Machine.unmoved_of_alters alters) outputs alters.calls

omit [BlockRoutine] in
/-- What was given up is held by others or by nobody. -/
theorem Onward.of_lasts (lasts : w.machine.Lasts w'.machine False) (outputs : w'.outputs ⊆ w.outputs)
    (fs : List Executable) (sees : ∀ k, 0 < others fs w'.outputs k → w'.machine.sees k = w.machine.sees k) :
    Onward faultless w w' where
  known := Nat.le_of_eq (by rw [lasts.calls])
  counts id _ _ := by rw [Machine.callsOf, lasts.calls]; rfl
  size := Nat.le_of_eq lasts.size.symm
  healthy _ id _ held := (lasts.healthy id held).resolve_right fun loud => loud
  held _ member := .inl ⟨outputs member, fun k isIn => sees k (others_of_output fs member isIn)⟩

omit [BlockRoutine] in
/-- A new executable has a count of its own. -/
theorem onward_of_create {s : Schedule} {c : Context} {result : Except Error Executable}
    (ran : (Executable.create s c).start w.machine = (result, m)) (fs : List Executable) :
    Onward faultless w { w with machine := m, executables := fs } := by
  obtain rfl : m = c.retain { w.machine with calls := w.machine.calls.push 0 } := by
    cases ran
    rfl
  refine .of_unmoved (Machine.unmoved_of_same rfl rfl) rfl (by simp [Context.retain]) fun id inside => ?_
  simp [Machine.callsOf, Context.retain, Array.getD_eq_getD_getElem?, Array.getElem?_push, Nat.ne_of_lt inside]

omit [BlockRoutine] in
/-- An accepted call is counted, and no other executable's calls are. -/
theorem callsOf_start (f : Executable) (inputs : List Tensor) (m : Machine) (inside : f.id < m.calls.size)
    (id : ExecutableId) :
    (f.course inputs m).start.callsOf id = m.callsOf id + if f.id = id then 1 else 0 := by
  simp only [Executable.course, Course.next, Machine.callsOf, Array.getD_eq_getD_getElem?, Array.getElem?_modify]
  split
  · rename_i same
    subst same
    simp [inside]
  · rfl

/-- What a call does to the counts, and to results that are still held. -/
theorem Good.call_onward (good : Good faultless w) (split : w.executables = before ++ f :: after) {borrow : Bool}
    {result : Except Error (List Output)} (ran : f.call inputs borrow w.machine = (result, g, m)) :
    Onward faultless w { w with
      machine := m, executables := before ++ g :: after, outputs := results result ++ w.outputs } := by
  have member : f ∈ w.executables := by simp [split]
  have inside := good.counted f member
  have sized : (f.course inputs w.machine).start.calls.size = w.machine.calls.size := by
    simp [Executable.course, Course.next]
  have reliable := good.course_reliable member inputs
  obtain ⟨a, -, rfl, met⟩ := good.call_cases split ran
  -- Accepted calls are those that are counted.
  have counted : f.Accepts inputs → a.machine.calls = (f.course inputs w.machine).start.calls →
      ∀ id, ¬ Calls id w { w with
          machine := a.machine, executables := before ++ g :: after, outputs := results result ++ w.outputs } →
        a.machine.callsOf id = w.machine.callsOf id := by
    intro accepts calls id other
    rw [Machine.callsOf, calls]
    refine (callsOf_start f inputs w.machine inside id).trans ?_
    rw [if_neg fun same => other ⟨before, f, after, inputs, borrow, result, g, _, split, same, accepts, ran, rfl⟩]
    rfl
  cases result with
  | error e =>
    rcases met with ⟨rfl, -⟩ | ⟨accepts, aborts⟩
    · exact .of_unnumbered (Machine.unmoved_of_same rfl rfl) rfl rfl
    · refine ⟨?_, fun id _ other => counted accepts aborts.lasts.calls id other, Nat.le_of_eq aborts.lasts.size.symm,
        fun holds id _ held => ?_, fun h inOutputs => .inl ⟨inOutputs, fun k isIn => ?_⟩⟩
      · rw [aborts.lasts.calls, sized]
      · exact ((aborts.quiet (reliable holds)).1.healthy id held).resolve_right fun loud => loud
      · exact aborts.sees k (others_of_output (w := w) _ inOutputs isIn)
  | ok os =>
    obtain ⟨accepts, ends⟩ := met
    refine ⟨?_, fun id _ other => counted accepts ends.lasts.calls id other, Nat.le_of_eq ends.lasts.size.symm,
      fun holds id _ held => ?_, fun h inOutputs => ?_⟩
    · exact Nat.le_of_eq ((congrArg Array.size ends.lasts.calls).trans sized).symm
    · exact ((ends.quiet (reliable holds)).healthy id held).resolve_right fun loud => loud
    · rcases List.mem_append.mp inOutputs with new | old
      · obtain ⟨x, -, t, -, -, -, -, -, isIt, number⟩ := partner_of ends.outputs new
        rw [callsOf_start f inputs w.machine inside, if_pos rfl] at number
        exact .inr (by rw [isIt]; omega)
      · exact .inl ⟨old, fun k isIn => ends.sees k (others_of_output _ old isIn)⟩

/-- Every operation leaves results that are still held as they are, and counts no call that was not accepted. -/
theorem Step.onward (step : Step faultless w w') (good : Good faultless w) : Onward faultless w w' := by
  cases step with
  | create t ran =>
    cases ran
    exact .of_unnumbered (Machine.unmoved_of_same rfl rfl) rfl rfl
  | @write m c result known t ran =>
    refine .of_unnumbered (unmoved_of_write ran) rfl ?_
    cases result with
    | error e => rw [(write_meets c t).of_error ran]
    | ok _ => rw [((write_meets c t).of_ok ran).2.2]
  | context config tables honest sound ran =>
    have opened : Opened w.machine _ :=
      ((build_meets config tables _).mono (fun _ _ held => held) fun _ _ held => held.1).always ran
    exact .of_unnumbered opened.unmoved rfl opened.calls
  | @compile m c result known p fresh ran =>
    unfold Program.compile at ran
    cases scheduled : p.schedule c with
    | error e =>
      rw [scheduled] at ran
      cases ran
      exact .of_unnumbered (Machine.unmoved_of_same rfl rfl) rfl rfl
    | ok s =>
      rw [scheduled] at ran
      exact onward_of_create ran _
  | fork known ran => exact onward_of_create ran _
  | call split inputs borrow ran => exact good.call_onward split ran
  | @synchronize m before after f g result split ran =>
    have has := good.has f.context (.inr ⟨f, by simp [split], rfl⟩)
    obtain ⟨a, -, rfl, ended⟩ := run_cases (synchronize_meets good.sane has) ran
    refine .of_alters ?_ rfl
    cases result <;> exact ended.1.alters
  | read known ran => exact .of_alters ((good.toHost_meets known).always ran) rfl
  | wait known ran => exact .of_alters ((good.wait_meets known).always ran) rfl
  | @dropOutput before after o split =>
    obtain ⟨lasts, -, sees⟩ := good.dropped_output split
    refine .of_lasts lasts ?_ _ sees
    rw [split]
    exact ((List.sublist_cons_self o after).append_left before).subset
  | dropExecutable split =>
    obtain ⟨lasts, -, sees⟩ := good.dropped_executable split
    exact .of_lasts lasts (List.Subset.refl _) _ sees
  | @dropContext before after c split =>
    obtain ⟨lasts, -, sees⟩ := lasts_release c w.machine
    exact .of_lasts lasts (List.Subset.refl _) [] fun k _ => sees k

/-- An accepted call is counted once. -/
theorem Calls.counted (good : Good faultless w) (calls : Calls id w w') :
    w'.machine.callsOf id = w.machine.callsOf id + 1 := by
  obtain ⟨before, f, after, inputs, borrow, result, g, m, split, rfl, accepts, ran, rfl⟩ := calls
  obtain ⟨a, -, rfl, met⟩ := good.call_cases split ran
  have numbered := callsOf_start f inputs w.machine (good.counted f (by simp [split])) f.id
  rw [if_pos rfl] at numbered
  cases result with
  | error e =>
    rcases met with ⟨-, refused⟩ | ⟨-, aborts⟩
    · rcases refused with ⟨reason, poisoned, -⟩ | ⟨-, refused⟩
      · cases accepts.usable.symm.trans poisoned
      · cases accepts.inputs.symm.trans refused
    · rw [← numbered, Machine.callsOf, aborts.lasts.calls]
      rfl
  | ok os =>
    rw [← numbered, Machine.callsOf, met.2.lasts.calls]
    rfl

/-- What operations leave of the results that were there when they began. -/
structure Kept (faultless : Prop) (id : ExecutableId) (w : World) (n : Nat) (w' : World) : Prop where
  good : Good faultless w'
  known : id < w'.machine.calls.size
  counts : w'.machine.callsOf id = w.machine.callsOf id + n
  size : w.machine.accelerators.size ≤ w'.machine.accelerators.size
  healthy : faultless → ∀ id, id < w.machine.accelerators.size → (w.machine.accelerator id).Healthy →
    (w'.machine.accelerator id).Healthy
  held : ∀ h, h.executable = id → h.call ≤ w.machine.callsOf id → .borrowed h ∈ w'.outputs →
    ∀ k, Buffer.isIn k (some h.buffer) → w'.machine.sees k = w.machine.sees k

variable {n n' : Nat}

/-- One more operation. A result with a number that was given before is not a new one. -/
theorem Kept.step (kept : Kept faultless id w n w') (step : Step faultless w' w'')
    (counts : w''.machine.callsOf id = w.machine.callsOf id + n') : Kept faultless id w n' w'' := by
  have onward := step.onward kept.good
  refine ⟨step.good kept.good, Nat.lt_of_lt_of_le kept.known onward.known, counts, Nat.le_trans kept.size onward.size,
    fun holds d inside held => ?_, fun h isIt number member k isIn => ?_⟩
  · exact onward.healthy holds d (Nat.lt_of_lt_of_le inside kept.size) (kept.healthy holds d inside held)
  · rcases onward.held h member with ⟨old, sees⟩ | new
    · exact (sees k isIn).trans (kept.held h isIt number old k isIn)
    · rw [isIt, kept.counts] at new
      omega

theorem Since.kept (since : Since faultless id w n w') (good : Good faultless w) (known : id < w.machine.calls.size) :
    Kept faultless id w n w' := by
  induction since with
  | now => exact ⟨good, known, rfl, Nat.le_refl _, fun _ _ _ held => held, fun _ _ _ _ _ _ => rfl⟩
  | other since step other ih =>
    refine ih.step step ?_
    rw [(step.onward ih.good).counts id ih.known other, ih.counts]
  | call since calls ih =>
    refine ih.step calls.step ?_
    rw [calls.counted ih.good, ih.counts, Nat.add_assoc]

end Numbers

section Handles

section

open scoped BlockRoutine

end

end Handles

end World

end TensorGraph
