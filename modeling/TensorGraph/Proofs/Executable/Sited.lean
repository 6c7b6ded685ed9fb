import TensorGraph.Proofs.Executable.Homes
import TensorGraph.Proofs.Executable.Upkeep

/-! Calls keep every buffer at the home of its slot. So a command hands its device only buffers that live there, and
no device is given a buffer of another one. -/
namespace TensorGraph

open Checked TensorGraph.Action

/-- A buffer is on the device of the context at a place. -/
def Context.Houses (c : Context) (place : Place) (b : Buffer) : Prop :=
  ∃ l d, place = some l ∧ c.device l = .ok d ∧ b.On d

theorem Context.houses_host (c : Context) (data : Data) : c.Houses (some .host) (.borrowed data) :=
  ⟨.host, .host, rfl, rfl, rfl⟩

theorem Context.Houses.on {c : Context} {l : Location} {d : Device} {b : Buffer} (houses : c.Houses (some l) b)
    (device : c.device l = .ok d) : b.On d := by
  obtain ⟨l', d', same, device', on⟩ := houses
  cases same
  rwa [← Except.ok.inj (device.symm.trans device')] at on

/-- The device of a buffer is the one at its location. -/
theorem Context.Houses.device {c : Context} {place : Place} {b : Buffer} (houses : c.Houses place b) :
    ∃ d, c.device b.location = .ok d ∧ b.On d := by
  obtain ⟨l, d, -, device, on⟩ := houses
  exact ⟨d, Calling.location_of_on (Context.device_eq_ok device).1 on, on⟩

/-- Every buffer is at the home of its slot. -/
def Frame.Sited (f : Frame) (c : Context) (home : SlotId → Place) : Prop :=
  ∀ slot b, f.buffer? slot = some b → c.Houses (home slot) b

namespace Frame.Sited

variable {f f' : Frame} {c : Context} {home : SlotId → Place}

theorem fresh (s : Schedule) (c : Context) (home : SlotId → Place) : (Frame.fresh s).Sited c home := by
  intro slot b at_
  simp only [buffer?, Frame.fresh, Array.getElem?_replicate] at at_
  split at at_ <;> cases at_

theorem same_slots (sited : f.Sited c home) (same : f'.slots = f.slots) : f'.Sited c home := fun slot b at_ =>
  sited slot b (by rwa [buffer?, same] at at_)

theorem put (sited : f.Sited c home) {slot : SlotId} {b : Option Buffer}
    (housed : ∀ x, b = some x → c.Houses (home slot) x) :
    ({ f with slots := f.slots.setIfInBounds slot b } : Frame).Sited c home := by
  intro slot' b' at_
  by_cases inside : slot < f.slots.size
  · rw [buffer?_set inside] at at_
    by_cases same : slot' = slot
    · rw [if_pos same] at at_
      exact same ▸ housed b' at_
    · rw [if_neg same] at at_
      exact sited slot' b' at_
  · rw [Array.setIfInBounds, dif_neg inside] at at_
    exact sited slot' b' at_

end Frame.Sited

/-- Every buffer is at the home of its slot, and every failure so far is for a reason that may be said. -/
structure Activation.Sited (c : Context) (home : SlotId → Place) (may : String → Prop) (a : Activation) : Prop where
  frame : a.frame.Sited c home
  machine : a.machine.Logs may

/-- Whether a part of a call succeeds or fails, it leaves every buffer at the home of its slot, and an error of a device
gives a reason that may be said. -/
abbrev Calling.Stays {α : Type} (act : Calling α) (c : Context) (home : SlotId → Place) (may : String → Prop)
    (post : α → Prop) : Prop := act.Keeps (Activation.Sited c home may) (Error.Tells may) post

namespace Calling

variable {c : Context} {home : SlotId → Place} {may : String → Prop} {s : Schedule}

theorem onMachine_stays {α : Type} {act : Action Machine α} {post : α → Prop}
    (keeps : act.Keeps (Machine.Logs may) (Error.Tells may) post) : (onMachine act).Stays c home may post :=
  keeps_onPart (fun _ sited => sited.machine) (fun _ _ sited logs => ⟨sited.frame, logs⟩) keeps

/-- What calls are made of leaves every buffer at the home of its slot. -/
theorem upkeep_sited (voiced : Voiced c.kernels may) (home : SlotId → Place) : Upkeep c (Activation.Sited c home may)
    (Error.Tells may) (fun slot b => c.Houses (home slot) b) fun d b => b.On d where
  said tells := tells.mono fun _ => False.elim
  frames sited same := ⟨sited.frame.same_slots same, sited.machine⟩
  slots sited housed := ⟨sited.frame.put housed, sited.machine⟩
  holds b sited := ⟨sited.frame, sited.machine.retain b⟩
  yields b sited := ⟨sited.frame, sited.machine.release voiced b⟩
  numbers _ sited := ⟨sited.frame, sited.machine.same rfl⟩
  present sited at_ := sited.frame _ _ at_
  home housed := by
    obtain ⟨d, device, on⟩ := housed.device
    rw [device]
    exact keeps_pure on
  allocates d kind _ _ := onMachine_stays (Device.alloc_keeps voiced d kind _)
  uploads data n on := onMachine_stays (Device.upload_keeps voiced data n on)
  downloads n on := onMachine_stays (Device.download_keeps voiced n on)
  reads shape on := onMachine_stays (Device.materialize_keeps voiced shape on)
  settles on := onMachine_stays (Device.settle_keeps voiced on)
  writes x t := onMachine_stays (x.write_keeps t)
  waits := onMachine_stays (c.synchronize_keeps voiced)

/-- The device of a command has its operands, and takes its result. -/
theorem serves_sited (voiced : Voiced c.kernels may) {cmd : Command} (sited : cmd.Sited c home) :
    (liftM (c.device cmd.location) : Calling Device).Stays c home may (Serves (Activation.Sited c home may)
      (Error.Tells may) (fun slot b => c.Houses (home slot) b) (fun d b => b.On d) cmd) := by
  obtain ⟨d, device⟩ := sited.device
  have there : ∀ {slot : SlotId}, home slot = some cmd.location → ∀ b, c.Houses (home slot) b ↔ b.On d :=
    fun {slot} here b => by
      rw [here]
      exact ⟨fun housed => housed.on device, fun on => ⟨cmd.location, d, rfl, device, on⟩⟩
  rw [device]
  refine keeps_pure ⟨there sited.output, fun runs x read => there ((sited.operands _ runs).2 x read), ?_⟩
  intro kernel runs l op same inputs output
  have known : l.From c.kernels := by
    rw [Launch.From, op, same]
    exact (sited.operands kernel runs).1
  exact onMachine_stays (Device.dispatch_keeps voiced known inputs output)

/-- The data of a caller is on the host, as the leaves are. -/
theorem leaves_sited (sited : s.Sited c home) :
    ∀ x ∈ s.leafSites, ∀ data, c.Houses (home x.slot) (.borrowed data) := fun x member data => by
  rw [sited.leaf x member]
  exact c.houses_host data

theorem invoke_stays (voiced : Voiced c.kernels may) (sited : s.Sited c home) (f : ExecutableId)
    (inputs : List Tensor) (borrow : Bool) : (invoke s c f inputs borrow).Stays c home may fun _ => True :=
  invoke_kept (upkeep_sited voiced home) (leaves_sited sited)
    (fun cmd member => serves_sited voiced (sited.command cmd member)) f inputs borrow

end Calling

end TensorGraph
