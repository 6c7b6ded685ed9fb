import TensorGraph.Proofs.Executable.Accounts
import TensorGraph.Proofs.Machine.Traffic
import TensorGraph.Proofs.World.Handles

/-! The counters of the accelerators after any history. A counter is the bytes of the blocks that slots, results and
unfinished launches refer to, and a call that fails gives back everything that it had allocated. -/
namespace TensorGraph

open Checked TensorGraph.Action

namespace Machine

variable {m m' m₀ : Machine}

/-- The counters of all accelerators are right. -/
def Accounted (m : Machine) : Prop := ∀ id, (m.accelerator id).Accounted

theorem Continues.accounted (continues : m.Continues m') (accounted : m.Accounted) : m'.Accounted := fun id =>
  (continues id).accounted (accounted id)

/-- A new accelerator has nothing to count. -/
theorem Accounted.push (accounted : m.Accounted) {a : Accelerator} (empty : a.memory = {}) :
    Accounted { m with accelerators := m.accelerators.push a } := by
  intro id
  by_cases new : id = m.accelerators.size
  · rw [new, accelerator_push_self, Accelerator.Accounted, empty]
    exact Memory.accounted_empty
  · have same : Machine.accelerator { m with accelerators := m.accelerators.push a } id = m.accelerator id := by
      simp only [accelerator, Array.getD_eq_getD_getElem?, Array.getElem?_push, if_neg new]
    rw [same]
    exact accounted id

theorem held_sim (m : Machine) (id : AcceleratorId) (b : BlockId) :
    m.held (some id, b) = (m.accelerator id).memory.holders b := by
  rw [Memory.holders_eq]
  rfl

/-- Where the counters are right and the books of holders are kept, the counter of an accelerator is exact. -/
theorem Accounted.exact (accounted : m.Accounted) {refs : Key → Nat} (held : ∀ k, m.held k = refs k)
    (id : AcceleratorId) :
    (m.accelerator id).memory.Exact (m.accelerator id).limit fun b => refs (some id, b) :=
  Memory.Accounted.exact (accounted id) fun b => (held_sim m id b).symm.trans (held _)

end Machine

section Steps

variable {m m' : Machine} {c : Context} {d : Device} {f g : Executable}

/-- Opening a context leaves the counters right. -/
theorem Context.build_accounted (config : Config) (tables : List Table) (kernels : Kernels) :
    (Context.build config tables kernels).Preserves Machine.Accounted := by
  have leases (n : Nat) : (modify fun m => { m with leases := m.leases.release n } : Action Machine Unit).Preserves
      Machine.Accounted := keeps_modify fun _ accounted => accounted
  have lease (n : Nat) : (Context.lease n).Preserves Machine.Accounted := by
    refine keeps_get.bind fun m _ => (preserves_lift _ _).andThen fun leases => ?_
    exact keeps_modify fun _ accounted => accounted
  have connect (target : Target) : (Device.connect target config.sim).Preserves Machine.Accounted := by
    cases target with
    | host => exact keeps_pure trivial
    | sim n =>
      refine keeps_get.bind fun m accounted => Keeps.andThen (keeps_set ?_) fun _ => keeps_pure trivial
      exact accounted.push rfl
    | cuda n => exact keeps_throw trivial
  have opened (custom : Option Table) : (Context.openTarget config custom).Preserves Machine.Accounted := by
    have chosen (d : Option Device) : (do return (d, ← Context.chooseTable d custom) :
        Action Machine (Option Device × Option Table)).Preserves Machine.Accounted :=
      (preserves_lift _ _).andThen fun _ => keeps_pure trivial
    unfold Context.openTarget
    cases config.target with
    | host => exact chosen none
    | sim n => exact ((connect (.sim n)).andThen fun d => keeps_pure trivial).andThen chosen
    | cuda n => exact ((connect (.cuda n)).andThen fun d => keeps_pure trivial).andThen chosen
  have built : (Context.openTarget config (Context.customTables tables).2).attempt.Preserves Machine.Accounted :=
    (keeps_attempt (opened _)).plain
  unfold Context.build
  cases config.target.ordinal? with
  | none =>
    refine built.andThen fun result => ?_
    cases result with
    | error e => exact keeps_throw trivial
    | ok r => exact keeps_get.bind fun m held => Keeps.andThen (keeps_set held) fun _ => keeps_pure trivial
  | some n =>
    refine (lease n).andThen fun _ => built.andThen fun result => ?_
    cases result with
    | error e => exact (leases n).andThen fun _ => keeps_throw trivial
    | ok r => exact keeps_get.bind fun m held => Keeps.andThen (keeps_set held) fun _ => keeps_pure trivial

/-- A device that refuses an allocation leaves everything as it was, unless no memory has room for the block. -/
theorem Device.alloc_refused (has : m.Has d) {kind : Kind} {n : Nat} {e : Error}
    (ran : (d.alloc kind n).start m = (.error e, m')) : m' = m ∨ e = .crash ∧ Shape.capacity ≤ n := by
  have met : (d.alloc kind n).Meets m (fun e m' => m' = m ∨ e = .crash ∧ Shape.capacity ≤ n) fun _ _ => True := by
    cases d with
    | host =>
      unfold Device.alloc
      rw [meets_bind, meets_get]
      split
      · trivial
      · exact .inl rfl
    | sim id ordinal =>
      unfold Device.alloc
      rw [meets_bind]
      refine Machine.onAccelerator_meets (Accelerator.alloc_decides _ kind n) ?_ fun _ _ _ => trivial
      rintro e a ⟨-, ⟨rfl, -⟩ | ⟨crash, beyond, -⟩⟩
      · exact .inl (Machine.setAccelerator_self (has id rfl))
      · exact .inr ⟨crash, beyond⟩
  exact met.of_error ran

/-- What a device grants there may be memory for. -/
theorem Device.room_of_alloc {kind : Kind} {n : Nat} {r : BlockRef} (ran : (d.alloc kind n).start m = (.ok r, m')) :
    n < Shape.capacity := by
  have met : (d.alloc kind n).Meets m (fun _ _ => True) fun _ _ => n < Shape.capacity := by
    cases d with
    | host =>
      unfold Device.alloc
      rw [meets_bind, meets_get]
      split
      · assumption
      · trivial
    | sim id ordinal =>
      unfold Device.alloc
      rw [meets_bind]
      exact Machine.onAccelerator_meets (Accelerator.alloc_decides _ kind n) (fun _ _ _ => trivial)
        fun b _ granted => granted.1.room
  exact met.of_ok ran

theorem Executable.create_accounted (s : Schedule) (c : Context) :
    (Executable.create s c).Preserves Machine.Accounted :=
  keeps_get.bind fun _ accounted => Keeps.andThen (keeps_set accounted) fun _ => keeps_pure trivial

/-- What an executable does leads to a later state of the machine. -/
theorem Executable.run_continues {α : Type} {act : Calling α}
    (continues : ∀ a₀ : Activation, act.Preserves a₀.Continues) {result : Except Error α}
    (ran : f.run act m = (result, g, m')) : m.Continues m' := by
  obtain ⟨a, -, rfl, met⟩ := World.run_cases (continues ⟨f.frame, m⟩ ⟨f.frame, m⟩ (.refl _)) ran
  cases result <;> exact met.2.machine

theorem Context.release_accounted (accounted : m.Accounted) : (c.release m).Accounted :=
  Machine.Continues.accounted (.of_same (c.release_same m).2.1) accounted

theorem Executable.drop_accounted (accounted : m.Accounted) : (f.drop m).Accounted := by
  unfold Executable.drop
  rcases ran : f.run (Calling.reset f.schedule) m with ⟨result, g, m'⟩
  have continues := run_continues (fun _ => Calling.reset_kept (Calling.upkeep_continues f.context _) f.schedule) ran
  exact Context.release_accounted (continues.accounted accounted)

theorem Output.release_accounted (accounted : m.Accounted) (o : Output) : (o.release m).Accounted := by
  cases o with
  | host t => exact accounted
  | borrowed h => exact Machine.Continues.accounted (.release h.buffer) accounted

theorem Output.toHost_continues {m₀ : Machine} (o : Output) : o.toHost.Preserves m₀.Continues := by
  cases o with
  | host t => exact keeps_pure trivial
  | borrowed h =>
    refine keeps_get.bind fun m _ => ?_
    exact keeps_ite (fun _ => Keeps.andThen (keeps_throw trivial) fun _ => h.device.materialize_continues _ _)
      fun _ => h.device.materialize_continues _ _

/-- Every operation leaves the counters right. -/
theorem World.Step.accounted [BlockRoutine] {faultless : Prop} {w w' : World} (step : World.Step faultless w w')
    (accounted : w.machine.Accounted) : w'.machine.Accounted := by
  cases step with
  | create t ran =>
    cases ran
    exact accounted
  | write known t ran => exact (Preserves.always (Cell.write_continues _ t) (.refl _) ran).accounted accounted
  | context config tables honest sound ran => exact Preserves.always (Context.build_accounted _ _ _) accounted ran
  | compile known p fresh ran =>
    exact Preserves.always ((preserves_lift _ _).andThen fun s => Executable.create_accounted s _) accounted ran
  | fork known ran => exact Preserves.always (Executable.create_accounted _ _) accounted ran
  | call split inputs borrow ran =>
    exact (Executable.run_continues (fun _ => Calling.invoke_continues _ _ _ inputs borrow) ran).accounted accounted
  | synchronize split ran =>
    have continues := Executable.run_continues (fun _ => Calling.synchronize_kept (Calling.upkeep_continues _ _)) ran
    exact continues.accounted accounted
  | read known ran => exact (Preserves.always (Output.toHost_continues _) (.refl _) ran).accounted accounted
  | wait known ran => exact (Preserves.always (Context.synchronize_continues _) (.refl _) ran).accounted accounted
  | dropOutput split => exact Output.release_accounted accounted _
  | dropExecutable split => exact Executable.drop_accounted accounted
  | dropContext split => exact Context.release_accounted accounted

end Steps

namespace World

variable [BlockRoutine]

/-- What a user comes to who also asks the devices of a context for blocks. Such a block is held as a result is, and
given up as one. A request that crashes ends it all. -/
inductive Arises : World → Prop where
  | start (processors : Nat) (alert : Bool) : Arises { machine := { processors, alert } }
  | step {w w' : World} (arises : Arises w) (step : Step False w w') : Arises w'
  | alloc {w : World} {c : Context} {d : Device} {kind : Kind} {n : Nat} {r : BlockRef} {m : Machine}
      (arises : Arises w) (uses : w.Uses c) (owns : c.Owns d) (ran : (d.alloc kind n).start w.machine = (.ok r, m))
      (f : ExecutableId) (call : Nat) :
      Arises { w with machine := m, outputs := .borrowed ⟨.owned r, [n], d, f, call⟩ :: w.outputs }
  | refuse {w : World} {c : Context} {d : Device} {kind : Kind} {n : Nat} {e : Error} {m : Machine}
      (arises : Arises w) (uses : w.Uses c) (owns : c.Owns d)
      (ran : (d.alloc kind n).start w.machine = (.error e, m)) (returns : e ≠ .crash) : Arises { w with machine := m }

variable {w w' : World} {m : Machine} {before after : List Executable} {f g : Executable} {inputs : List Tensor}

/-- A block that was asked for is held by its result alone. -/
theorem Good.alloc {faultless : Prop} (good : Good faultless w) {c : Context} (uses : w.Uses c) {d : Device}
    (owns : c.Owns d) {kind : Kind} {n : Nat} {r : BlockRef} (ran : (d.alloc kind n).start w.machine = (.ok r, m))
    (f : ExecutableId) (call : Nat) :
    Good faultless { w with machine := m, outputs := .borrowed ⟨.owned r, [n], d, f, call⟩ :: w.outputs } := by
  obtain ⟨device, -, -, vacant, alters, bytes, new⟩ :=
    (Device.alloc_meets (good.has c uses d owns) good.sane kind n).of_ok ran
  have unheld : w.machine.held r.key = 0 := by rw [Machine.held, vacant]; rfl
  have sees : ∀ k, 0 < others w.executables w.outputs k → m.sees k = w.machine.sees k := fun k refers => by
    refine alters.sees ?_
    rintro rfl
    have held := good.held r.key
    simp only [others] at refers
    omega
  have room := Device.room_of_alloc ran
  have fits : Shape.fits [n] := by
    have counted : n < Shape.word := Nat.lt_trans room (by decide)
    simp [Shape.fits, Shape.counts, Shape.product?, Shape.volume, counted, room]
  have carries : m.Carries (.owned r) d ⟨[n], .zeros kind n, by simp [Data.size, Data.zeros, Shape.volume], fits⟩ := by
    have contents : m.contents (.owned r) = some (.zeros kind n) := by rw [Machine.contents, new]; rfl
    exact ⟨device, by rw [contents]; rfl, fun _ => ⟨_, contents, .refl _⟩⟩
  refine ⟨alters.sane good.sane, fun k => ?_, fun c uses d owns => alters.has (good.has c uses d owns), good.honest,
    good.laid, fun f member => (good.rests f member).of_sees fun k refers => sees k ?_, fun o member h isIt => ?_,
    by rw [alters.cells]; exact good.typed, good.numbered, by rw [alters.calls]; exact good.counted,
    fun holds c uses => (good.reliable holds c uses).lasts alters.toLasts fun loud => loud, good.usable⟩
  · have held := good.held k
    have counted : Output.holdsAll (.borrowed ⟨.owned r, [n], d, f, call⟩ :: w.outputs) k =
        Buffer.hold (some (.owned r)) k + Output.holdsAll w.outputs k := List.sum_cons
    change m.held k = refsOf w.executables k + Output.holdsAll (_ :: w.outputs) k
    rw [counted]
    by_cases same : r.key = k
    · subst same
      have one : m.held r.key = 1 := by rw [Machine.held, new]; rfl
      have hold : Buffer.hold (some (.owned r)) r.key = 1 := by simp [Buffer.hold, Buffer.isIn]
      omega
    · have hold : Buffer.hold (some (.owned r)) k = 0 := by simp [Buffer.hold, Buffer.isIn, same]
      rw [alters.held (Ne.symm same), held, hold, Nat.zero_add]
  · exact Nat.lt_of_lt_of_le refers (Nat.le_trans (refs_le_refsOf member k) (Nat.le_add_right _ _))
  · rcases List.mem_cons.mp member with rfl | old
    · cases isIt
      exact ⟨alters.has (good.has c uses d owns), _, carries, rfl⟩
    · obtain ⟨there, t, carried, shape⟩ := good.handles o old h isIt
      refine ⟨alters.has there, t, carried.of_sees fun k isIn => sees k ?_, shape⟩
      exact others_of_output _ (isIt ▸ old) isIn

/-- The books of a user who also asks for blocks. -/
structure Audited (w : World) : Prop where
  good : Good False w
  accounted : w.machine.Accounted

theorem Arises.audited (arises : Arises w) : w.Audited := by
  induction arises with
  | start processors alert => exact ⟨good_start processors alert, fun id => Memory.accounted_empty⟩
  | step _ step ih => exact ⟨step.good ih.good, step.accounted ih.accounted⟩
  | alloc _ uses owns ran f call ih =>
    refine ⟨ih.good.alloc uses owns ran f call, ?_⟩
    exact (Preserves.always (Device.alloc_continues _ _ (Device.room_of_alloc ran)) (.refl _) ran).accounted ih.accounted
  | @refuse w c d kind n e m _ uses owns ran returns ih =>
    obtain rfl := (Device.alloc_refused (ih.good.has c uses d owns) ran).resolve_right fun crash => returns crash.1
    exact ih

/-- References to the blocks of an accelerator, by executables and results. -/
def refsAt (fs : List Executable) (os : List Output) (id : AcceleratorId) (b : BlockId) : Nat :=
  others fs os (some id, b)

theorem Audited.kept (audited : w.Audited) {id : AcceleratorId} {clients : List BlockId}
    (counts : ∀ b, clients.count b = refsAt w.executables w.outputs id b) :
    Traffic.Kept ⟨w.machine.accelerator id, clients, []⟩ where
  accounted := audited.accounted id
  held b := by
    rw [← Machine.held_sim, audited.good.held, Traffic.references, List.flatMap_nil, List.append_nil, counts]
    rfl

/-- What a call that failed leaves on an accelerator, when others refer to its blocks so many times. -/
structure Recovers (a a' : Accelerator) (refs : BlockId → Nat) : Prop where
  /-- The counter is the bytes of the blocks of others. -/
  counter : a'.memory.Exact a'.limit refs
  /-- These were there before the call, with the same bytes. -/
  older : ∀ {b : BlockId} {block : Block}, a'.memory.get? b = some block →
    ∃ old, a.memory.get? b = some old ∧ block.bytes = old.bytes
  limit : a'.limit = a.limit
  lower : a'.memory.inUse ≤ a.memory.inUse
  /-- What could have been allocated before the call can be allocated after it, unless the device was lost. -/
  room : ∀ {kind : Kind} {n : Nat} {b : BlockId} {a₁ : Accelerator}, a'.knowsLoss = false →
    (Accelerator.alloc kind n).start a = (.ok b, a₁) → ∃ b' a₂, (Accelerator.alloc kind n).start a' = (.ok b', a₂)

omit [BlockRoutine] in
/-- Where the counter is not higher than it was, there is room for as much. -/
theorem room_of_lower {a a' : Accelerator} (limit : a'.limit = a.limit) (lower : a'.memory.inUse ≤ a.memory.inUse)
    (alive : a'.knowsLoss = false) {kind : Kind} {n : Nat} {b : BlockId} {a₁ : Accelerator}
    (ran : (Accelerator.alloc kind n).start a = (.ok b, a₁)) :
    ∃ b' a₂, (Accelerator.alloc kind n).start a' = (.ok b', a₂) := by
  obtain ⟨granted, -, -⟩ := (Accelerator.alloc_decides a kind n).of_ok ran
  have grants : a'.Grants kind n := granted.lower limit lower alive
  rcases ran' : (Accelerator.alloc kind n).start a' with ⟨result, a₂⟩
  cases result with
  | error e => exact absurd grants ((Accelerator.alloc_decides a' kind n).of_error ran').1
  | ok b' => exact ⟨b', a₂, rfl⟩

/-- After an accepted call that fails the slots are empty, and only others hold blocks. -/
theorem Good.call_empties {faultless : Prop} (good : Good faultless w) (split : w.executables = before ++ f :: after)
    (accepts : f.Accepts inputs) {borrow : Bool} {e : Error}
    (ran : f.call inputs borrow w.machine = (.error e, g, m)) :
    (∀ slot, g.frame.buffer? slot = none) ∧ ∀ k, m.held k = others (before ++ after) w.outputs k := by
  have member : f ∈ w.executables := by simp [split]
  obtain ⟨a, rfl, rfl, empty⟩ := run_cases (Calling.invoke_empties (a := ⟨f.frame, w.machine⟩)
    (good.rests f member).slots accepts.usable accepts.inputs f.id borrow) ran
  refine ⟨empty, fun k => ?_⟩
  obtain ⟨a', same, machine, ended⟩ := good.call_cases split ran
  have aborts : (f.course inputs w.machine).Aborts (others (before ++ after) w.outputs) e a' := by
    rcases ended with ⟨-, refused⟩ | ⟨-, aborts⟩
    · rcases refused with ⟨reason, poisoned, -⟩ | ⟨-, refused⟩
      · cases accepts.usable.symm.trans poisoned
      · cases accepts.inputs.symm.trans refused
    · exact aborts
  have frames : a.frame = a'.frame := congrArg Executable.frame same
  have none : a'.frame.refs k = 0 := Frame.refs_eq_zero fun x => by
    rw [← frames]
    exact empty x
  have settled := aborts.settled.tidy.held k
  rwa [none, Nat.zero_add, ← machine] at settled

/-- Nobody but a call can refer to a block that is new. -/
theorem Good.new_gone {faultless : Prop} (good : Good faultless w) (split : w.executables = before ++ f :: after)
    (held : ∀ k, m.held k = others (before ++ after) w.outputs k) (accounted : m.Accounted) {id : AcceleratorId}
    {b : BlockId} (new : (w.machine.accelerator id).memory.next ≤ b) : (m.accelerator id).memory.get? b = none := by
  have unheld := good.held (some id, b)
  rw [Machine.held_sim, Memory.holders_eq, Memory.get?_beyond new, split, refsOf_split] at unheld
  have alone : (m.accelerator id).memory.holders b = 0 := by
    rw [← Machine.held_sim, held, others]
    simp only [Option.map_none, Option.getD_none] at unheld
    omega
  refine Option.not_isSome_iff_eq_none.mp fun lives => ?_
  exact Nat.lt_irrefl 0 (alone ▸ (Memory.holders_pos (accounted id)).mp lives)

/-- An accepted call that fails gives back all that it had allocated. -/
theorem Audited.failed (audited : w.Audited) (split : w.executables = before ++ f :: after)
    (accepts : f.Accepts inputs) {borrow : Bool} {e : Error}
    (ran : f.call inputs borrow w.machine = (.error e, g, m)) : (∀ slot, g.frame.buffer? slot = none) ∧
      ∀ id, Recovers (w.machine.accelerator id) (m.accelerator id) (refsAt (before ++ after) w.outputs id) := by
  obtain ⟨empty, held⟩ := audited.good.call_empties split accepts ran
  refine ⟨empty, fun id => ?_⟩
  have continues := Executable.run_continues (fun _ => Calling.invoke_continues _ _ _ inputs borrow) ran
  have accounted := continues.accounted audited.accounted
  have later := continues id
  have left : ∀ b, (w.machine.accelerator id).memory.next ≤ b → (m.accelerator id).memory.get? b = none :=
    fun b => audited.good.new_gone split held accounted
  have lower := later.memory.inUse_le (audited.accounted id) left
  refine ⟨later.limit ▸ accounted.exact held id, fun {b block} at_ => ?_, later.limit, lower,
    fun alive ran => room_of_lower later.limit lower alive ran⟩
  refine later.memory.older (Nat.lt_of_not_le fun beyond => ?_) at_
  cases (left b beyond).symm.trans at_

end World

namespace World

section

open scoped BlockRoutine

end

end World

end TensorGraph
