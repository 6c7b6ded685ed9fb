import TensorGraph.Executable.Output
import TensorGraph.Machine.Cell
import TensorGraph.Proofs.Logic.Checked
import TensorGraph.Proofs.Logic.Invariant
import TensorGraph.Proofs.Machine.Device
import TensorGraph.Proofs.Op.Typing

/-! What devices say when they fail. Who keeps its buffers where it uses them hears of whatever went wrong in a
kernel, now or earlier, but never that a buffer lives on another device. -/
namespace TensorGraph

open Checked TensorGraph.Action

/-- The reason of a device that was given a buffer of another one. -/
def Astray (reason : String) : Prop :=
  ∃ l : Location, reason = "operand lives on " ++ l.name ∨ reason = "storage lives on " ++ l.name

theorem not_astray {reason : String} (operand : reason.toList.take 2 ≠ ['o', 'p'])
    (storage : reason.toList.take 2 ≠ ['s', 't']) : ¬ Astray reason := by
  rintro ⟨l, rfl | rfl⟩
  · exact operand (by simp)
  · exact storage (by simp)

/-- A device gives as its reason only what it `may` say, and no location is missing. -/
def Error.Tells (may : String → Prop) : Error → Prop
  | device _ _ reason _ => may reason
  | configuration _ => False
  | _ => True

theorem Error.Tells.mono {may may' : String → Prop} (more : ∀ reason, may reason → may' reason) {e : Error}
    (tells : e.Tells may) : e.Tells may' := by
  cases e with
  | device _ _ reason _ => exact more reason tells
  | configuration _ => exact tells
  | _ => trivial

/-- Everything may be said but that a buffer is astray; kernels may say what they like. -/
structure Voiced (ks : Kernels) (may : String → Prop) : Prop where
  device : ∀ {reason : String}, ¬ Astray reason → may reason
  kernel : ∀ {op : Op} {k : Kernel} {args : KernelArgs} {e : Error}, ks.lookup op = .ok k → k op args = .error e →
    may e.text

variable {ks : Kernels} {may : String → Prop}

theorem Data.take_tells {d : Data} {n : Nat} {e : Error} (failed : d.take n = .error e) : e.Tells may := by
  unfold take at failed
  split at failed <;> cases failed
  trivial

theorem Data.copyFrom_tells {d source : Data} {n : Nat} {e : Error} (failed : d.copyFrom source n = .error e) :
    e.Tells may := by
  unfold copyFrom at failed
  split at failed
  · split at failed <;> cases failed
    trivial
  · cases failed
    trivial

theorem Tensor.make_tells {shape : Shape} {d : Data} {e : Error} (failed : make shape d = .error e) :
    e.Tells may := by
  unfold make at failed
  split at failed
  · cases failed
    trivial
  split at failed
  · split at failed <;> cases failed
    trivial
  · cases failed
    trivial

theorem Error.OfExtents.tells {e : Error} (ofExtents : e.OfExtents) : e.Tells may := by
  rcases ofExtents with ⟨op, reason, rfl⟩ | rfl <;> trivial

/-- The kernel of a launch is a registered one. -/
def Launch.From {β : Type} (l : Launch β) (ks : Kernels) : Prop := ks.lookup l.op = .ok l.kernel

/-- The kernel of a launch fails for reasons that may be said. -/
def Launch.Speaks {β : Type} (l : Launch β) (may : String → Prop) : Prop :=
  ∀ args e, l.kernel l.op args = .error e → may e.text

theorem Launch.From.speaks {β : Type} {l : Launch β} (known : l.From ks) (voiced : Voiced ks may) : l.Speaks may :=
  fun _ _ failed => voiced.kernel known failed

namespace Accelerator

variable {a a' : Accelerator} {l : Launch BlockId} {deps : List LaunchId}

/-- Every failure so far is for a reason that may be said, and so is every failure of a kernel that is still to
run. -/
structure Logs (may : String → Prop) (a : Accelerator) : Prop where
  failed : ∀ l f, a.failure? l = some f → may f.reason
  delayed : ∀ d ∈ a.delayed, d.launch.Speaks may

theorem Logs.same_log (logs : a.Logs may) (log : a'.log = a.log) (delayed : a'.delayed = a.delayed) :
    a'.Logs may where
  failed l f failed := logs.failed l f (by rwa [failure?, log] at failed)
  delayed d member := logs.delayed d (delayed ▸ member)

theorem Logs.first (logs : a.Logs may) {f : Failure} {ls : List LaunchId} (found : a.firstFailure? ls = some f) :
    may f.reason := by
  obtain ⟨l, -, failed⟩ := List.exists_of_findSome?_eq_some found
  exact logs.failed l f failed

theorem compute_error (speaks : l.Speaks may) {e : Error} (failed : a.compute l = .error e) :
    e = .crash ∨ may e.text := by
  unfold compute at failed
  rcases bind_eq_error.mp failed with read | ⟨inputs, -, failed⟩
  · obtain ⟨⟨b, shape⟩, -, missing⟩ := mapM_eq_error read
    simp only at missing
    split at missing
    · cases missing
    · split at missing <;> cases missing
      exact .inl rfl
  · cases at_ : a.memory.get? l.output with
    | none =>
      rw [at_] at failed
      cases failed
      exact .inl rfl
    | some block =>
      rw [at_] at failed
      exact .inr (speaks _ _ failed)

/-- A launch fails as one that it waits for, for a reason of the device, or as its kernel. -/
theorem Logs.run (logs : a.Logs may) (voiced : Voiced ks may) (speaks : l.Speaks may) (id : LaunchId)
    (deps : List LaunchId) : (∀ f, (a.run id l deps).1 = some f → may f.reason) ∧
      (a.run id l deps).2.log = a.log ∧ (a.run id l deps).2.delayed = a.delayed := by
  have fixed : ∀ {reason : String} {fatal : Bool} {f : Failure}, ¬ Astray reason →
      some (l.failure reason fatal) = some f → may f.reason := fun here same => by
    cases same
    exact voiced.device here
  unfold Accelerator.run
  split
  · rename_i f found
    refine ⟨fun f' same => ?_, rfl, rfl⟩
    cases same
    exact logs.first found
  · split
    · exact ⟨fun f => fixed (not_astray (by decide) (by decide)), rfl, rfl⟩
    · exact ⟨fun f => fixed (not_astray (by decide) (by decide)), rfl, rfl⟩
  · split
    · exact ⟨fun f => fixed (not_astray (by decide) (by decide)), rfl, rfl⟩
    split
    · exact ⟨fun f => fixed (not_astray (by decide) (by decide)), rfl, rfl⟩
    split
    · exact ⟨nofun, rfl, rfl⟩
    · exact ⟨fun f => fixed (not_astray (by decide) (by decide)), rfl, rfl⟩
    · rename_i e notCrash failed
      refine ⟨fun f same => ?_, rfl, rfl⟩
      cases same
      exact (compute_error speaks failed).resolve_left fun crash => notCrash crash

theorem Logs.land (logs : a.Logs may) (voiced : Voiced ks may) {d : Delayed} (speaks : d.launch.Speaks may) :
    (a.land d).Logs may := by
  obtain ⟨reasons, log, delayed⟩ := logs.run voiced speaks d.id d.deps
  refine ⟨fun i f failed => ?_, fun d' member => logs.delayed d' (delayed ▸ member)⟩
  simp only [Accelerator.land, failure?, log, Array.getElem?_setIfInBounds] at failed
  split at failed
  · split at failed
    · exact reasons f failed
    · cases failed
  · exact logs.failed i f failed

theorem Logs.push (logs : a.Logs may) (voiced : Voiced ks may) (speaks : l.Speaks may) : (a.push l).Logs may := by
  have recorded : (a.record l).Logs may :=
    ⟨fun i f failed => logs.failed i f (failure?_record a l ▸ failed), logs.delayed⟩
  unfold Accelerator.push
  simp only
  split
  · refine ⟨recorded.failed, fun d member => ?_⟩
    rcases List.mem_append.mp member with old | new
    · exact logs.delayed d old
    · rwa [List.mem_singleton.mp new]
  · exact recorded.land voiced speaks

theorem Logs.landAll (logs : a.Logs may) (voiced : Voiced ks may) : a.landAll.Logs may where
  failed := (List.foldlRecOn a.delayed Accelerator.land (motive := Accelerator.Logs may) logs fun _ logs' d member =>
    logs'.land voiced (logs.delayed d member)).failed
  delayed := nofun

theorem Logs.await (logs : a.Logs may) (voiced : Voiced ks may) (ls : List LaunchId) : (a.await ls).Logs may := by
  unfold Accelerator.await
  split
  · exact logs.landAll voiced
  · exact logs

section Keeps

theorem checkAlive_keeps (voiced : Voiced ks may) (op : String) :
    (checkAlive op).Keeps (Logs may) (Error.Tells may) fun _ => True := by
  refine keeps_get.bind fun a _ => keeps_ite (fun _ => keeps_throw ?_) fun _ => keeps_pure trivial
  exact voiced.device (not_astray (by decide) (by decide))

theorem settle_keeps (voiced : Voiced ks may) {fails : Error → Prop} (ls : List LaunchId) :
    (settle ls).Keeps (Logs may) fails fun _ => True := by
  refine keeps_modify fun a logs => ?_
  have awaited := logs.await voiced ls
  simp only
  split
  · exact awaited.same_log rfl rfl
  · exact awaited

theorem wait_keeps (voiced : Voiced ks may) (ls : List LaunchId) :
    (wait ls).Keeps (Logs may) (Error.Tells may) fun _ => True := by
  refine (settle_keeps voiced ls).andThen fun _ => keeps_get.bind fun a logs => ?_
  cases found : a.firstFailure? ls with
  | none => exact keeps_pure trivial
  | some f => exact keeps_throw (logs.first found)

theorem refusal?_tells (voiced : Voiced ks may) {a : Accelerator} {bytes : Nat} {e : Error}
    (refused : a.refusal? bytes = some e) : e.Tells may := by
  unfold refusal? at refused
  split at refused
  · cases refused
    trivial
  · obtain ⟨limit, -, refused⟩ := Option.bind_eq_some_iff.mp refused
    split at refused
    · cases refused
      trivial
    · split at refused <;> cases refused
      exact voiced.device (not_astray (by simp [toString]) (by simp [toString]))

theorem alloc_keeps (voiced : Voiced ks may) (kind : Kind) (n : Nat) :
    (alloc kind n).Keeps (Logs may) (Error.Tells may) fun _ => True := by
  refine (checkAlive_keeps voiced "alloc").andThen fun _ => keeps_get.bind fun a logs => ?_
  cases refused : a.refusal? (n * kind.bytes) with
  | some e => exact keeps_throw (refusal?_tells voiced refused)
  | none =>
    refine keeps_ite (fun _ => ?_) fun _ => ?_
    · exact Keeps.andThen (keeps_set (logs.same_log rfl rfl)) fun _ => keeps_pure trivial
    · exact Keeps.andThen (keeps_set (logs.same_log rfl rfl)) fun _ => keeps_throw trivial

theorem contents_keeps (b : BlockId) : (contents b).Keeps (Logs may) (Error.Tells may) fun _ => True := by
  refine keeps_get.bind fun a _ => ?_
  cases a.memory.get? b with
  | none => exact keeps_throw trivial
  | some block =>
    refine keeps_ite (fun _ => ?_) fun _ => keeps_pure trivial
    exact Keeps.andThen (keeps_throw trivial) fun _ => keeps_pure trivial

theorem upload_keeps (voiced : Voiced ks may) (source : Data) (n : Nat) (b : BlockId) :
    (upload source n b).Keeps (Logs may) (Error.Tells may) fun _ => True := by
  refine keeps_get.bind fun a _ => (settle_keeps voiced _).andThen fun _ => (contents_keeps b).andThen fun data => ?_
  refine (keeps_lift (fun _ failed => Data.copyFrom_tells failed) fun _ _ => trivial).andThen fun _ => ?_
  exact keeps_modify fun a logs => logs.same_log rfl rfl

theorem download_keeps (voiced : Voiced ks may) (b : BlockId) (n : Nat) :
    (download b n).Keeps (Logs may) (Error.Tells may) fun _ => True := by
  refine keeps_get.bind fun a _ => (wait_keeps voiced _).andThen fun _ => (contents_keeps b).andThen fun data => ?_
  exact keeps_lift (fun _ failed => Data.take_tells failed) fun _ _ => trivial

theorem settleBlock_keeps (voiced : Voiced ks may) (b : BlockId) :
    (settleBlock b).Keeps (Logs may) (Error.Tells may) fun _ => True :=
  keeps_get.bind fun _ _ => wait_keeps voiced _

theorem dispatch_keeps (voiced : Voiced ks may) (known : l.From ks) :
    (dispatch l).Keeps (Logs may) (Error.Tells may) fun _ => True :=
  (checkAlive_keeps voiced _).andThen fun _ => keeps_modify fun _ logs => logs.push voiced (known.speaks voiced)

theorem synchronize_keeps (voiced : Voiced ks may) :
    synchronize.Keeps (Logs may) (Error.Tells may) fun _ => True := by
  refine keeps_get.bind fun a _ => (keeps_modify fun a logs => logs.same_log rfl rfl).andThen fun _ => ?_
  exact (wait_keeps voiced _).andThen fun _ => checkAlive_keeps voiced _

end Keeps

end Accelerator

/-- Every accelerator of a machine has a property of its own. -/
def Machine.Each (inv : AcceleratorId → Accelerator → Prop) (m : Machine) : Prop := ∀ id, inv id (m.accelerator id)

/-- Every failure so far, on any accelerator, is for a reason that may be said. -/
def Machine.Logs (may : String → Prop) (m : Machine) : Prop := ∀ id, (m.accelerator id).Logs may

namespace Machine

section Each

variable {m m' : Machine} {inv : AcceleratorId → Accelerator → Prop}

theorem Each.same (each : m.Each inv) (same : m'.accelerators = m.accelerators) : m'.Each inv := fun id => by
  rw [accelerator, same]
  exact each id

theorem Each.setAccelerator (each : m.Each inv) {id : AcceleratorId} {a : Accelerator} (here : inv id a) :
    (m.setAccelerator id a).Each inv := fun other => by
  by_cases inRange : id < m.accelerators.size
  · rw [accelerator_set inRange]
    split
    · rename_i same
      exact same ▸ here
    · exact each other
  · have nothing : m.setAccelerator id a = m := by
      simp [Machine.setAccelerator, Array.setIfInBounds, inRange]
    rw [nothing]
    exact each other

theorem Each.onMemory (each : m.Each inv) {f : Memory → Memory}
    (stays : ∀ id a, inv id a → inv id { a with memory := f a.memory }) (d : Device) : (m.onMemory d f).Each inv := by
  cases d with
  | host => exact each.same rfl
  | sim id ordinal => exact each.setAccelerator (stays id _ (each id))

theorem Each.retain (each : m.Each inv)
    (stays : ∀ b id a, inv id a → inv id { a with memory := a.memory.retain b }) (b : Buffer) :
    (m.retain b).Each inv := by
  cases b with
  | owned r => exact each.onMemory (stays r.id) r.device
  | borrowed data => exact each

theorem Each.awaitUsers (each : m.Each inv) (lands : ∀ id a, inv id a → inv id a.landAll) (r : BlockRef) :
    (m.awaitUsers r).Each inv := by
  unfold Machine.awaitUsers
  split
  · exact each
  · simp only
    split
    · exact each.setAccelerator (lands _ _ (each _))
    · exact each

theorem Each.release (each : m.Each inv) (lands : ∀ id a, inv id a → inv id a.landAll)
    (stays : ∀ b id a, inv id a → inv id { a with memory := a.memory.release b }) (b : Buffer) :
    (m.release b).Each inv := by
  cases b with
  | owned r => exact (each.awaitUsers lands r).onMemory (stays r.id) r.device
  | borrowed data => exact each

theorem onAccelerator_each {α : Type} {id : AcceleratorId} {act : Action Accelerator α} {fails : Error → Prop}
    {post : α → Prop} (keeps : act.Keeps (inv id) fails post) : (onAccelerator id act).Keeps (Each inv) fails post :=
  keeps_onPart (fun _ each => each id) (fun _ _ each here => each.setAccelerator here) keeps

end Each

variable {m m' : Machine}

theorem Logs.same (logs : m.Logs may) (same : m'.accelerators = m.accelerators) : m'.Logs may :=
  Each.same logs same

theorem Logs.retain (logs : m.Logs may) (b : Buffer) : (m.retain b).Logs may :=
  Each.retain logs (fun _ _ _ logs => logs.same_log rfl rfl) b

theorem Logs.release (logs : m.Logs may) (voiced : Voiced ks may) (b : Buffer) : (m.release b).Logs may :=
  Each.release logs (fun _ _ logs => logs.landAll voiced) (fun _ _ _ logs => logs.same_log rfl rfl) b

theorem onAccelerator_keeps {α : Type} {id : AcceleratorId} {act : Action Accelerator α} {post : α → Prop}
    (keeps : act.Keeps (Accelerator.Logs may) (Error.Tells may) post) :
    (onAccelerator id act).Keeps (Logs may) (Error.Tells may) post := onAccelerator_each keeps

end Machine

namespace Device

variable {d : Device} {b : Buffer} {l : Launch Buffer}

theorem alloc_keeps (voiced : Voiced ks may) (d : Device) (kind : Kind) (n : Nat) :
    (d.alloc kind n).Keeps (Machine.Logs may) (Error.Tells may) fun r => r.device = d := by
  cases d with
  | host =>
    refine keeps_get.bind fun m logs => keeps_ite (fun _ => ?_) fun _ => keeps_throw trivial
    exact Keeps.andThen (keeps_set (logs.same rfl)) fun _ => keeps_pure rfl
  | sim id ordinal =>
    exact (Machine.onAccelerator_keeps (Accelerator.alloc_keeps voiced kind n)).andThen fun _ => keeps_pure rfl

theorem hostContents_keeps (b : BlockId) :
    (hostContents b).Keeps (Machine.Logs may) (Error.Tells may) fun _ => True := by
  refine keeps_get.bind fun m _ => ?_
  cases m.host.get? b with
  | none => exact keeps_throw trivial
  | some block => exact keeps_pure trivial

theorem upload_keeps (voiced : Voiced ks may) (source : Data) (n : Nat) (on : b.On d) :
    (d.upload source n b).Keeps (Machine.Logs may) (Error.Tells may) fun _ => True := by
  cases b with
  | borrowed data =>
    obtain rfl : d = .host := on
    exact keeps_throw trivial
  | owned r =>
    obtain ⟨home, b, kind, capacity⟩ := r
    obtain rfl : home = d := on
    cases home with
    | host =>
      refine (hostContents_keeps b).andThen fun data => ?_
      refine (keeps_lift (fun _ failed => Data.copyFrom_tells failed) fun _ _ => trivial).andThen fun _ => ?_
      exact keeps_modify fun m logs => logs.same rfl
    | sim id ordinal =>
      refine (Machine.onAccelerator_keeps (Accelerator.checkAlive_keeps voiced _)).andThen fun _ => ?_
      exact Machine.onAccelerator_keeps (Accelerator.upload_keeps voiced source n b)

theorem download_keeps (voiced : Voiced ks may) (n : Nat) (on : b.On d) :
    (d.download b n).Keeps (Machine.Logs may) (Error.Tells may) fun _ => True := by
  have taken : ∀ data : Data, (liftM (data.take n) : Action Machine Data).Keeps (Machine.Logs may) (Error.Tells may)
      fun _ => True := fun data => keeps_lift (fun _ failed => Data.take_tells failed) fun _ _ => trivial
  cases b with
  | borrowed data =>
    obtain rfl : d = .host := on
    exact taken data
  | owned r =>
    obtain ⟨home, b, kind, capacity⟩ := r
    obtain rfl : home = d := on
    cases home with
    | host => exact (hostContents_keeps b).andThen fun data => taken data
    | sim id ordinal =>
      refine (Machine.onAccelerator_keeps (Accelerator.checkAlive_keeps voiced _)).andThen fun _ => ?_
      exact Machine.onAccelerator_keeps (Accelerator.download_keeps voiced b n)

theorem materialize_keeps (voiced : Voiced ks may) (shape : Shape) (on : b.On d) :
    (d.materialize b shape).Keeps (Machine.Logs may) (Error.Tells may) fun _ => True :=
  (download_keeps voiced _ on).andThen fun _ =>
    keeps_lift (fun _ failed => Tensor.make_tells failed) fun _ _ => trivial

theorem settle_keeps (voiced : Voiced ks may) (on : b.On d) : (d.settle b).Keeps (Machine.Logs may) (Error.Tells may) fun _ => True := by
  cases b with
  | borrowed data =>
    obtain rfl : d = .host := on
    exact keeps_pure trivial
  | owned r =>
    obtain ⟨home, b, kind, capacity⟩ := r
    obtain rfl : home = d := on
    cases home with
    | host => exact keeps_pure trivial
    | sim id ordinal => exact Machine.onAccelerator_keeps (Accelerator.settleBlock_keeps voiced b)

theorem synchronize_keeps (voiced : Voiced ks may) (d : Device) :
    d.synchronize.Keeps (Machine.Logs may) (Error.Tells may) fun _ => True := by
  cases d with
  | host => exact keeps_pure trivial
  | sim id ordinal => exact Machine.onAccelerator_keeps (Accelerator.synchronize_keeps voiced)

theorem runOnHost_keeps (voiced : Voiced ks may) (known : l.From ks) (out : BlockId) :
    (runOnHost l out).Keeps (Machine.Logs may) (Error.Tells may) fun _ => True := by
  have operands : ∀ b : Buffer, (hostOperand out b).Keeps (Machine.Logs may) (Error.Tells may) fun _ => True := by
    intro b
    cases b with
    | borrowed data => exact keeps_pure trivial
    | owned r =>
      refine keeps_ite (fun _ => keeps_pure trivial) fun _ => ?_
      exact (hostContents_keeps r.id).andThen fun _ => keeps_pure trivial
  refine (keeps_mapM (fun _ => True) fun e _ => operands e.1).bind fun inputs _ => ?_
  refine (hostContents_keeps out).bind fun old _ => ?_
  simp only
  split
  · exact keeps_modify fun m logs => logs.same rfl
  · exact keeps_throw trivial
  · rename_i e _ failed
    exact keeps_throw (voiced.kernel known failed)

/-- A device takes every operand that lives on it. -/
theorem dispatch_keeps (voiced : Voiced ks may) (known : l.From ks) (inputs : ∀ e ∈ l.inputs, e.1.On d)
    (output : l.output.On d) : (d.dispatch l).Keeps (Machine.Logs may) (Error.Tells may) fun _ => True := by
  have accepted : ∀ b : Buffer, b.On d → (liftM (d.operand l.label b) : Action Machine Buffer).Keeps
      (Machine.Logs may) (Error.Tells may) (· = b) := by
    intro b on
    rw [operand_ok on]
    exact keeps_pure rfl
  refine (keeps_mapM (fun _ => True) fun e member => ?_).bind fun es _ => ?_
  · exact (accepted e.1 (inputs e member)).bind fun _ _ => keeps_pure trivial
  refine (accepted l.output output).bind fun b same => ?_
  rw [same]
  cases out : l.output with
  | borrowed data => exact keeps_throw (voiced.device (not_astray (by decide) (by decide)))
  | owned r =>
    cases d with
    | host => exact runOnHost_keeps voiced known r.id
    | sim id ordinal => exact Machine.onAccelerator_keeps (Accelerator.dispatch_keeps voiced known)

end Device

theorem Cell.write_keeps (c : Cell) (t : Tensor) :
    (c.write t).Keeps (Machine.Logs may) (Error.Tells may) fun _ => True := by
  have written : (modify fun m => { m with cells := m.cells.setIfInBounds c.id t } : Action Machine Unit).Keeps
      (Machine.Logs may) (Error.Tells may) fun _ => True := keeps_modify fun m logs => logs.same rfl
  refine keeps_ite (fun _ => Keeps.andThen (keeps_throw trivial) fun _ => ?_) fun _ => ?_ <;>
    exact keeps_ite (fun _ => Keeps.andThen (keeps_throw trivial) fun _ => written) fun _ => written

/-- Waiting for a context says only what its devices say. -/
theorem Context.synchronize_keeps (voiced : Voiced ks may) (c : Context) :
    c.synchronize.Keeps (Machine.Logs may) (Error.Tells may) fun _ => True := by
  unfold Context.synchronize
  cases c.accelerator with
  | none => exact keeps_pure trivial
  | some d => exact Device.synchronize_keeps voiced d

end TensorGraph
