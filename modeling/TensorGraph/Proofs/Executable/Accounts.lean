import TensorGraph.Proofs.Executable.Ledger
import TensorGraph.Proofs.Executable.Upkeep
import TensorGraph.Proofs.Machine.Accounts

/-! The counters of the accelerators during a call. Every part of a call leads to a later state of each device memory,
whether it fails or not, and a call that failed leaves no slot with a buffer. -/
namespace TensorGraph

open TensorGraph.Action

namespace Machine

variable {m m' m'' m₀ : Machine}

/-- A later state of a machine is one of each accelerator. -/
def Continues (m m' : Machine) : Prop := ∀ id, (m.accelerator id).Continues (m'.accelerator id)

namespace Continues

theorem refl (m : Machine) : m.Continues m := fun _ => .refl _

theorem trans (first : m.Continues m') (second : m'.Continues m'') : m.Continues m'' :=
  fun id => (first id).trans (second id)

theorem of_same (same : m'.accelerators = m.accelerators) : m.Continues m' := Each.same (refl m) same

theorem retain (b : Buffer) : m.Continues (m.retain b) :=
  Each.retain (refl m) (fun _ _ _ later => later.trans (.of_memory (.retain _))) b

theorem release (b : Buffer) : m.Continues (m.release b) :=
  Each.release (refl m) (fun _ a later => later.trans (Accelerator.landAll_steady a).toContinues)
    (fun _ _ _ later => later.trans (.of_memory (.release _))) b

end Continues

theorem onAccelerator_continues {α : Type} {act : Action Accelerator α} (id : AcceleratorId)
    (continues : ∀ a₀ : Accelerator, act.Preserves a₀.Continues) : (onAccelerator id act).Preserves m₀.Continues :=
  onAccelerator_each (continues (m₀.accelerator id))

end Machine

namespace Device

open Accelerator Machine

variable {m₀ : Machine} {d : Device}

theorem alloc_continues (d : Device) (kind : Kind) {n : Nat} (room : n < Shape.capacity) :
    (d.alloc kind n).Preserves m₀.Continues := by
  cases d with
  | host =>
    refine keeps_get.bind fun m kept => keeps_ite (fun _ => ?_) fun _ => keeps_throw trivial
    exact Keeps.andThen (keeps_set (kept.trans (.of_same rfl))) fun _ => keeps_pure trivial
  | sim id ordinal =>
    exact (onAccelerator_continues id fun _ => Accelerator.alloc_continues kind room).andThen fun _ => keeps_pure trivial

theorem hostContents_continues (b : BlockId) : (hostContents b).Preserves m₀.Continues := by
  refine keeps_get.bind fun m _ => ?_
  cases m.host.get? b with
  | none => exact keeps_throw trivial
  | some block => exact keeps_pure trivial

theorem checkAlive_continues (id : AcceleratorId) (op : String) :
    (onAccelerator id (checkAlive op)).Preserves m₀.Continues :=
  onAccelerator_continues id fun _ => continues_of_steady fun _ => checkAlive_steady op

theorem upload_continues (d : Device) (source : Data) (n : Nat) (b : Buffer) :
    (d.upload source n b).Preserves m₀.Continues := by
  unfold upload
  split
  · exact keeps_throw trivial
  · rename_i b _ _
    refine (hostContents_continues b).andThen fun data => (preserves_lift _ _).andThen fun _ => ?_
    exact keeps_modify fun m kept => kept.trans (.of_same rfl)
  · rename_i id _ home _ b _ _
    refine (checkAlive_continues id _).andThen fun _ => ?_
    exact onAccelerator_continues home fun _ => continues_of_steady fun _ => upload_steady source n b
  · exact keeps_throw trivial

theorem download_continues (d : Device) (b : Buffer) (n : Nat) : (d.download b n).Preserves m₀.Continues := by
  unfold download
  split
  · exact preserves_lift _ _
  · rename_i b _ _
    exact (hostContents_continues b).andThen fun data => preserves_lift _ _
  · rename_i id _ home _ b _ _
    refine (checkAlive_continues id _).andThen fun _ => ?_
    exact onAccelerator_continues home fun _ => continues_of_steady fun _ => download_steady b n
  · exact keeps_throw trivial

theorem materialize_continues (d : Device) (b : Buffer) (shape : Shape) :
    (d.materialize b shape).Preserves m₀.Continues :=
  (download_continues d b _).andThen fun _ => preserves_lift _ _

theorem settle_continues (d : Device) (b : Buffer) : (d.settle b).Preserves m₀.Continues := by
  unfold settle
  split
  · exact keeps_pure trivial
  · exact keeps_pure trivial
  · rename_i home _ id _ _
    exact onAccelerator_continues home fun _ => continues_of_steady fun _ => settleBlock_steady id
  · exact keeps_throw trivial

theorem synchronize_continues (d : Device) : d.synchronize.Preserves m₀.Continues := by
  cases d with
  | host => exact keeps_pure trivial
  | sim id ordinal => exact onAccelerator_continues id fun _ => continues_of_steady fun _ => synchronize_steady

theorem runOnHost_continues (l : Launch Buffer) (out : BlockId) : (runOnHost l out).Preserves m₀.Continues := by
  have operand (b : Buffer) : (hostOperand out b).Preserves m₀.Continues := by
    cases b with
    | borrowed data => exact keeps_pure trivial
    | owned r =>
      refine keeps_ite (fun _ => keeps_pure trivial) fun _ => ?_
      exact (hostContents_continues r.id).andThen fun _ => keeps_pure trivial
  refine (keeps_mapM (fun _ => True) fun e _ => operand e.1).plain.andThen fun inputs => ?_
  refine (hostContents_continues out).andThen fun old => ?_
  simp only
  split
  · exact keeps_modify fun m kept => kept.trans (.of_same rfl)
  · exact keeps_throw trivial
  · exact keeps_throw trivial

theorem dispatch_continues (d : Device) (l : Launch Buffer) : (d.dispatch l).Preserves m₀.Continues := by
  refine (keeps_mapM (fun _ => True) fun e _ => ?_).plain.andThen fun inputs => ?_
  · exact (preserves_lift _ _).andThen fun _ => keeps_pure trivial
  refine (preserves_lift _ _).andThen fun b => ?_
  cases b with
  | borrowed data => exact keeps_throw trivial
  | owned r =>
    cases d with
    | host => exact runOnHost_continues l r.id
    | sim id ordinal => exact onAccelerator_continues id fun _ => continues_of_steady fun _ => dispatch_steady _

end Device

theorem Cell.write_continues {m₀ : Machine} (c : Cell) (t : Tensor) : (c.write t).Preserves m₀.Continues := by
  have written : (modify fun m => { m with cells := m.cells.setIfInBounds c.id t } : Action Machine Unit).Preserves
      m₀.Continues := keeps_modify fun m kept => kept.trans (.of_same rfl)
  refine keeps_ite (fun _ => Keeps.andThen (keeps_throw trivial) fun _ => ?_) fun _ => ?_ <;>
    exact keeps_ite (fun _ => Keeps.andThen (keeps_throw trivial) fun _ => written) fun _ => written

theorem Context.synchronize_continues {m₀ : Machine} (c : Context) : c.synchronize.Preserves m₀.Continues := by
  unfold Context.synchronize
  cases c.accelerator with
  | none => exact keeps_pure trivial
  | some d => exact d.synchronize_continues

/-- A later state of a call, with the same slots. -/
structure Activation.Continues (a a' : Activation) : Prop where
  slots : a'.frame.slots.size = a.frame.slots.size
  machine : a.machine.Continues a'.machine

theorem Activation.Continues.refl (a : Activation) : a.Continues a := ⟨rfl, .refl _⟩

namespace Calling

variable {a₀ : Activation} {s : Schedule} {c : Context}

theorem onMachine_continues {α : Type} {act : Action Machine α} (continues : act.Preserves a₀.machine.Continues) :
    (onMachine act).Preserves a₀.Continues :=
  keeps_onPart (fun _ kept => kept.machine) (fun _ _ kept later => ⟨kept.slots, later⟩) continues

/-- What calls are made of leads to a later state of the machine, wherever buffers are. -/
theorem upkeep_continues (c : Context) (a₀ : Activation) :
    Upkeep c a₀.Continues (fun _ => True) (fun _ _ => True) fun _ _ => True where
  said _ := trivial
  frames kept same := ⟨(congrArg Array.size same).trans kept.slots, kept.machine⟩
  slots kept _ := ⟨by simpa using kept.slots, kept.machine⟩
  holds b kept := ⟨kept.slots, kept.machine.trans (.retain b)⟩
  yields b kept := ⟨kept.slots, kept.machine.trans (.release b)⟩
  numbers _ kept := ⟨kept.slots, kept.machine.trans (.of_same rfl)⟩
  present _ _ := trivial
  home _ := preserves_lift _ _
  allocates d kind _ room := onMachine_continues (d.alloc_continues kind room)
  uploads {d b} data n _ := onMachine_continues (d.upload_continues data n b)
  downloads {d b} n _ := onMachine_continues (d.download_continues b n)
  reads {d b} shape _ := onMachine_continues (d.materialize_continues b shape)
  settles {d b} _ := onMachine_continues (d.settle_continues b)
  writes x t := onMachine_continues (x.write_continues t)
  waits := onMachine_continues c.synchronize_continues

/-- Any device will do for a command. -/
theorem serves_continues (c : Context) (a₀ : Activation) (cmd : Command) :
    (liftM (c.device cmd.location) : Calling Device).Keeps a₀.Continues (fun _ => True)
      (Serves a₀.Continues (fun _ => True) (fun _ _ => True) (fun _ _ => True) cmd) :=
  keeps_lift (fun _ _ => trivial) fun d _ =>
    ⟨fun _ => .rfl, fun _ _ _ _ => .rfl, fun _ l _ _ _ _ => onMachine_continues (d.dispatch_continues l)⟩

theorem run_continues (c : Context) (s : Schedule) (f : ExecutableId) (inputs : List Tensor) (borrow : Bool)
    (call : Nat) : (run s c f inputs borrow call).Preserves a₀.Continues :=
  run_kept (upkeep_continues c a₀) (fun _ _ _ => trivial) (fun cmd _ => serves_continues c a₀ cmd) f inputs borrow call

theorem invoke_continues (c : Context) (s : Schedule) (f : ExecutableId) (inputs : List Tensor) (borrow : Bool) :
    (invoke s c f inputs borrow).Preserves a₀.Continues :=
  invoke_kept (upkeep_continues c a₀) (fun _ _ _ => trivial) (fun cmd _ => serves_continues c a₀ cmd) f inputs borrow

/-- Of a call that was accepted and fails nothing is left in the slots. -/
theorem invoke_empties {a : Activation} (slots : a.frame.slots.size = s.slotCount) (usable : a.frame.poisoned = none)
    {inputs : List Tensor} (accepted : accept s inputs = .ok ()) (f : ExecutableId) (borrow : Bool) :
    (invoke s c f inputs borrow).Meets a (fun _ a' => ∀ x, a'.frame.buffer? x = none) fun _ _ => True := by
  unfold invoke nextCall
  rw [meets_bind, meets_get, usable]
  simp only
  rw [meets_bind, meets_lift, accepted, meets_bind, meets_bind, meets_modify, meets_bind, meets_get, meets_pure,
    meets_bind, meets_attempt]
  refine ((run_continues c s f inputs borrow _) _ (.refl _)).mono (fun e a₁ ⟨_, kept⟩ => ?_) fun _ _ _ => trivial
  rw [meets_bind]
  exact (recover_empties s e (kept.slots.trans slots)).post fun _ _ emptied => emptied.vacant

end Calling

end TensorGraph
