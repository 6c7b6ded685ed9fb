import TensorGraph.Executable.Basic
import TensorGraph.Proofs.Executable.Invoke
import TensorGraph.Proofs.Machine.Reports

/-! What calls keep. A call puts buffers into slots, holds them and asks devices for work; an invariant of these is kept
by every part of the call, whether that fails or not. -/
namespace TensorGraph

open TensorGraph.Action

namespace Calling

/-- An invariant of what calls are made of. A buffer in a slot has `rests`, and one that a device is given has `on`. -/
structure Upkeep (c : Context) (inv : Activation → Prop) (fails : Error → Prop) (rests : SlotId → Buffer → Prop)
    (on : Device → Buffer → Prop) : Prop where
  /-- What is wrong with the call itself may be said. -/
  said {e : Error} : e.Tells (fun _ => False) → fails e
  frames {a : Activation} {f : Frame} : inv a → f.slots = a.frame.slots → inv { a with frame := f }
  slots {a : Activation} {slot : SlotId} {b : Option Buffer} : inv a → (∀ x, b = some x → rests slot x) →
    inv { a with frame := { a.frame with slots := a.frame.slots.setIfInBounds slot b } }
  holds {a : Activation} (b : Buffer) : inv a → inv { a with machine := a.machine.retain b }
  yields {a : Activation} (b : Buffer) : inv a → inv { a with machine := a.machine.release b }
  numbers {a : Activation} (calls : Array Nat) : inv a → inv { a with machine := { a.machine with calls } }
  present {a : Activation} {slot : SlotId} {b : Buffer} : inv a → a.frame.buffer? slot = some b → rests slot b
  home {slot : SlotId} {b : Buffer} : rests slot b →
    (liftM (c.device b.location) : Calling Device).Keeps inv fails fun d => on d b
  allocates (d : Device) (kind : Kind) {n : Nat} : n < Shape.capacity →
    (onMachine (d.alloc kind n)).Keeps inv fails fun r => on d (.owned r)
  uploads {d : Device} {b : Buffer} (data : Data) (n : Nat) : on d b →
    (onMachine (d.upload data n b)).Keeps inv fails fun _ => True
  downloads {d : Device} {b : Buffer} (n : Nat) : on d b →
    (onMachine (d.download b n)).Keeps inv fails fun _ => True
  reads {d : Device} {b : Buffer} (shape : Shape) : on d b →
    (onMachine (d.materialize b shape)).Keeps inv fails fun _ => True
  settles {d : Device} {b : Buffer} : on d b → (onMachine (d.settle b)).Keeps inv fails fun _ => True
  writes (x : Cell) (t : Tensor) : (onMachine (x.write t)).Keeps inv fails fun _ => True
  waits : (onMachine c.synchronize).Keeps inv fails fun _ => True

/-- A device serves a command: buffers in the slot of the result are such as the device has, and for a launch those of
the operands as well. -/
structure Serves (inv : Activation → Prop) (fails : Error → Prop) (rests : SlotId → Buffer → Prop)
    (on : Device → Buffer → Prop) (cmd : Command) (d : Device) : Prop where
  result (b : Buffer) : rests cmd.output.slot b ↔ on d b
  operand {kernel : Kernel} : cmd.work = .launch kernel → ∀ x ∈ cmd.inputs, ∀ b, rests x.slot b ↔ on d b
  launches {kernel : Kernel} : cmd.work = .launch kernel → ∀ l : Launch Buffer, l.op = cmd.op → l.kernel = kernel →
    (∀ e ∈ l.inputs, on d e.1) → on d l.output → (onMachine (d.dispatch l)).Keeps inv fails fun _ => True

variable {c : Context} {inv : Activation → Prop} {fails : Error → Prop} {rests : SlotId → Buffer → Prop}
  {on : Device → Buffer → Prop} {s : Schedule} {cmd : Command} {d : Device} {slot : SlotId} {b : Buffer}
  (up : Upkeep c inv fails rests on)

include up

theorem onFrame_kept {f : Frame → Frame} (same : ∀ x, (f x).slots = x.slots) :
    (onFrame f).Keeps inv fails fun _ => True := keeps_modify fun _ kept => up.frames kept (same _)

theorem count_kept (f : Stats → Stats) : (count f).Keeps inv fails fun _ => True := onFrame_kept up fun _ => rfl

theorem enter_kept (phase : Phase) : (enter phase).Keeps inv fails fun _ => True := onFrame_kept up fun _ => rfl

theorem buffer_kept (slot : SlotId) : (buffer slot).Keeps inv fails (rests slot) := by
  refine keeps_get.bind fun a kept => ?_
  cases at_ : a.frame.buffer? slot with
  | none => exact keeps_throw (up.said trivial)
  | some b => exact keeps_pure (up.present kept at_)

theorem shape_kept (v : VarId) : (shape v).Keeps inv fails fun _ => True := by
  refine keeps_get.bind fun a _ => ?_
  cases a.frame.shapes[v]?.join with
  | none => exact keeps_throw (up.said trivial)
  | some s => exact keeps_pure trivial

theorem put_kept {b : Option Buffer} (fits : ∀ x, b = some x → rests slot x) :
    (put slot b).Keeps inv fails fun _ => True := by
  refine keeps_modify fun a kept => ?_
  cases a.frame.buffer? slot with
  | none => exact up.slots kept fits
  | some old => exact up.yields old (up.slots kept fits)

theorem clear_kept (slot : SlotId) : (put slot none).Keeps inv fails fun _ => True := put_kept up nofun

theorem bind_kept {x : Site} {t : Tensor} (fits : rests x.slot (.borrowed t.data)) :
    (bind x t).Keeps inv fails fun _ => True := by
  refine (put_kept up fun b same => ?_).andThen fun _ => onFrame_kept up fun _ => rfl
  cases same
  exact fits

section Buffers

variable (here : ∀ b, rests slot b ↔ on d b)

include here

theorem allocate_kept (kind : Kind) {n : Nat} (room : n < Shape.capacity) :
    (allocate slot d kind n).Keeps inv fails (on d) := by
  refine (up.allocates d kind (Accelerator.max_one_lt_capacity room)).bind fun r new => (count_kept up _).andThen fun _ => ?_
  refine (put_kept up fun b same => ?_).andThen fun _ => keeps_pure new
  cases same
  exact (here _).mpr new

/-- A buffer that is used again is where the new value belongs, as its slot is. -/
theorem acquire_kept (kind : Kind) {n : Nat} (room : n < Shape.capacity) :
    (acquire slot d kind n).Keeps inv fails (on d) := by
  refine keeps_get.bind fun a kept => ?_
  have fresh := allocate_kept up here kind room
  cases at_ : a.frame.buffer? slot with
  | none => exact fresh
  | some b =>
    refine keeps_ite (fun _ => (count_kept up _).andThen fun _ => keeps_pure ?_) fun _ => fresh
    exact (here b).mp (up.present kept at_)

theorem acquireOver_kept (old : on d b) (kind : Kind) {n : Nat} (room : n < Shape.capacity) :
    (acquireOver slot b d kind n).Keeps inv fails (on d) := by
  refine keeps_get.bind fun a _ => keeps_ite (fun _ => (count_kept up _).andThen fun _ => keeps_pure old) fun _ => ?_
  exact (clear_kept up slot).andThen fun _ => allocate_kept up here kind room

end Buffers

theorem holding_kept {α : Type} {act : Calling α} {post : α → Prop} (kept : act.Keeps inv fails post) :
    (holding b act).Keeps inv fails post := by
  refine (keeps_modify fun a => up.holds b).andThen fun _ => ?_
  refine (keeps_attempt kept).bind fun result ⟨ended, failed⟩ => ?_
  refine (keeps_modify fun a => up.yields b).andThen fun _ => ?_
  cases result with
  | ok a => exact keeps_pure (ended a rfl)
  | error e => exact keeps_throw (failed e rfl)

theorem free_kept (s : Schedule) (slot : SlotId) : (free s c slot).Keeps inv fails fun _ => True := by
  refine keeps_ite (fun _ => keeps_pure trivial) fun _ => keeps_get.bind fun a kept => ?_
  cases at_ : a.frame.buffer? slot with
  | none => exact keeps_pure trivial
  | some b =>
    cases b with
    | borrowed data => exact clear_kept up slot
    | owned r =>
      refine keeps_ite (fun _ => keeps_pure trivial) fun _ => ?_
      have rest : (do
          put slot none
          count fun s => { s with releases := s.releases + 1 }
          if !(Buffer.owned r).location.isHost then countSync : Calling Unit).Keeps inv fails fun _ => True :=
        (clear_kept up slot).andThen fun _ => (count_kept up _).andThen fun _ =>
          keeps_ite (fun _ => count_kept up _) fun _ => keeps_pure trivial
      refine keeps_ite (fun _ => ?_) fun _ => rest
      exact (up.home (up.present kept at_)).bind fun d there => (up.settles there).andThen fun _ => rest

omit up in
theorem remaining_kept (slot : SlotId) : (remaining slot).Keeps inv fails fun _ => True :=
  keeps_get.bind fun _ _ => keeps_pure trivial

theorem release_kept (s : Schedule) (slot : SlotId) : (release s c slot).Keeps inv fails fun _ => True := by
  refine Keeps.andThen (onFrame_kept up ?_) fun _ => (remaining_kept slot).andThen fun n => ?_
  · exact fun _ => rfl
  · exact keeps_ite (fun _ => free_kept up s slot) fun _ => keeps_pure trivial

theorem drop_kept (s : Schedule) (p : Buffer → Bool) : (drop s p).Keeps inv fails fun _ => True :=
  keeps_forM fun slot _ => keeps_get.bind fun _ _ =>
    keeps_ite (fun _ => clear_kept up slot) fun _ => keeps_pure trivial

theorem reset_kept (s : Schedule) : (reset s).Keeps inv fails fun _ => True :=
  (drop_kept up s _).andThen fun _ => onFrame_kept up fun _ => rfl

theorem toHost_kept (there : rests slot b) (shape : Shape) : (toHost c b shape).Keeps inv fails fun _ => True := by
  have rest : (do onMachine ((← c.device b.location).materialize b shape) : Calling Tensor).Keeps inv fails
      fun _ => True := (up.home there).bind fun d on => up.reads shape on
  exact keeps_ite (fun _ => (count_kept up _).andThen fun _ => rest) fun _ => rest

section Commands

variable (device : (liftM (c.device cmd.location) : Calling Device).Keeps inv fails (Serves inv fails rests on cmd))

include device

theorem transfer_kept {shape : Shape} (fits : shape.fits) :
    (transfer c cmd shape).Keeps inv fails fun _ => True := by
  unfold transfer
  cases cmd.inputs with
  | nil => exact keeps_throw (up.said trivial)
  | cons input rest =>
    refine (buffer_kept up input.slot).bind fun src there => device.bind fun d serves => ?_
    refine (acquire_kept up serves.result cmd.kind (Shape.volume_lt_of_fits fits)).bind fun dst new => ?_
    refine (up.home there).bind fun e old => (up.downloads _ old).andThen fun data => ?_
    exact (up.uploads data _ new).andThen fun _ => count_kept up _

omit device in
theorem launch_kept {kernel : Kernel} (runs : cmd.work = .launch kernel) (serves : Serves inv fails rests on cmd d)
    (shapes : List Shape) (shape : Shape) {held : Option (SlotId × Buffer)} (holds : ∀ x ∈ held, on d x.2)
    (out : on d b) : (launch d cmd kernel shapes shape held b).Keeps inv fails fun _ => True := by
  have fetched : ∀ x ∈ cmd.inputs, (buffer x.slot).Keeps inv fails (on d) := fun x read =>
    (buffer_kept up x.slot).mono fun b => (serves.operand runs x read b).mp
  refine (keeps_mapM (on d) fun x read => ?_).bind fun bs fit => ?_
  · cases held with
    | none => exact fetched x read
    | some h => exact keeps_ite (fun _ => keeps_pure (holds h rfl)) fun _ => fetched x read
  refine (serves.launches runs _ rfl rfl ?_ out).andThen fun _ => count_kept up _
  exact fun e member => fit e.1 (List.of_mem_zip member).1

theorem compute_kept {kernel : Kernel} (runs : cmd.work = .launch kernel) (shapes : List Shape) {shape : Shape}
    (fits : shape.fits) : (compute c cmd kernel shapes shape).Keeps inv fails fun _ => True := by
  refine device.bind fun d serves => ?_
  cases cmd.inPlace with
  | none =>
    refine (acquire_kept up serves.result cmd.kind (Shape.volume_lt_of_fits fits)).bind fun out new => ?_
    exact launch_kept up runs serves shapes shape nofun new
  | some i =>
    have item : (liftM (Kernel.item cmd.inputs i) : Calling Site).Keeps inv fails (· ∈ cmd.inputs) := by
      unfold Kernel.item
      refine keeps_lift (fun e missing => ?_) fun x found => ?_
      · split at missing <;> cases missing
        exact up.said trivial
      · split at found <;> cases found
        exact List.mem_of_getElem? ‹_›
    refine item.bind fun x read => (buffer_kept up x.slot).bind fun input there => holding_kept up ?_
    have here := serves.operand runs x read
    have old := (here input).mp there
    refine (acquireOver_kept up here old cmd.kind (Shape.volume_lt_of_fits fits)).bind fun out new => ?_
    refine launch_kept up runs serves shapes shape (fun h held => ?_) new
    cases held
    exact old

theorem execute_kept (s : Schedule) : (execute s c cmd).Keeps inv fails fun _ => True := by
  refine (keeps_mapM (fun _ => True) fun x _ => shape_kept up x.var).plain.andThen fun shapes => ?_
  refine Keeps.bind (keeps_lift (fun _ failed => up.said (Op.resultShape_error failed).tells) fun shape counted =>
    (Op.resultShape_eq_ok.mp counted).2.2) ?_
  intro shape fits
  have rest : (do
      onFrame fun x => { x with shapes := x.shapes.setIfInBounds cmd.output.var (some shape) }
      cmd.inputs.forM fun x => release s c x.slot
      if (← remaining cmd.output.slot) = 0 then free s c cmd.output.slot : Calling Unit).Keeps inv fails
      fun _ => True := by
    refine Keeps.andThen (onFrame_kept up ?_) fun _ => (keeps_forM fun x _ => release_kept up s x.slot).andThen ?_
    · exact fun _ => rfl
    · exact fun _ => (remaining_kept _).andThen fun n =>
        keeps_ite (fun _ => free_kept up s _) fun _ => keeps_pure trivial
  cases runs : cmd.work with
  | transfer kept =>
    refine keeps_get.bind fun a _ => keeps_ite (fun _ => ?_) fun _ => rest
    exact (transfer_kept up device fits).andThen fun _ => rest
  | launch kernel => exact (compute_kept up device runs shapes fits).andThen fun _ => rest

end Commands

theorem begin_kept (leaves : ∀ x ∈ s.leafSites, ∀ data, rests x.slot (.borrowed data)) (inputs : List Tensor) :
    (begin s inputs).Keeps inv fails fun _ => True := by
  have leaf : ∀ {x : Site}, x ∈ s.leafSites → ∀ t : Tensor, (bind x t).Keeps inv fails fun _ => True :=
    fun member t => bind_kept up (leaves _ member t.data)
  refine (enter_kept up _).andThen fun _ => (count_kept up _).andThen fun _ => ?_
  refine Keeps.andThen (onFrame_kept up ?_) fun _ => ?_
  · exact fun _ => rfl
  refine (keeps_forM fun e member => leaf ?_ e.2).andThen fun _ => ?_
  · exact List.mem_append_left _ (List.mem_append_left _ (List.of_mem_zip member).1)
  refine (keeps_forM fun e member => leaf ?_ e.2).andThen fun _ => ?_
  · exact List.mem_append_left _ (List.mem_append_right _ (List.mem_map_of_mem member))
  refine keeps_forM fun e member => ?_
  have read : (onMachine e.2.read).Keeps inv fails fun _ => True := fun a kept => by
    rw [onMachine, meets_onPart]
    exact ⟨trivial, kept⟩
  exact read.andThen fun t => leaf (List.mem_append_right _ (List.mem_map_of_mem member)) t

theorem output_kept (f : ExecutableId) (borrow : Bool) (call : Nat) (x : Site) :
    (output c f borrow call x).Keeps inv fails fun _ => True := by
  refine (buffer_kept up x.slot).bind fun b there => (shape_kept up x.var).andThen fun shape => ?_
  refine keeps_ite (fun _ => ?_) fun _ => (toHost_kept up there shape).andThen fun _ => keeps_pure trivial
  exact (up.home there).plain.andThen fun d => keeps_pure trivial

theorem newValues_kept (s : Schedule) : (newValues s c).Keeps inv fails fun _ => True := by
  refine (keeps_mapM (fun _ => True) fun u _ => ?_).plain
  refine (buffer_kept up u.2.slot).bind fun b there => (shape_kept up u.2.var).andThen fun shape => ?_
  exact (toHost_kept up there shape).andThen fun _ => keeps_pure trivial

theorem answer_kept (s : Schedule) (f : ExecutableId) (borrow : Bool) (call : Nat) :
    (answer s c f borrow call).Keeps inv fails fun _ => True := by
  have rest : (do
      let outputs ← s.outputs.mapM (output c f borrow call)
      let values ← newValues s c
      return (outputs, values) : Calling (List Output × List (Cell × Tensor))).Keeps inv fails fun _ => True := by
    refine (keeps_mapM (fun _ => True) fun x _ => output_kept up f borrow call x).plain.andThen fun os => ?_
    exact (newValues_kept up s).andThen fun values => keeps_pure trivial
  exact keeps_ite (fun _ => (enter_kept up _).andThen fun _ => rest) fun _ => rest

theorem retainAll_kept {a : Activation} (kept : inv a) (os : List Output) :
    inv { a with machine := os.foldl (fun m o => o.retain m) a.machine } := by
  induction os generalizing a with
  | nil => exact kept
  | cons o os ih =>
    cases o with
    | host t => exact ih kept
    | borrowed h => exact ih (up.holds h.buffer kept)

theorem commit_kept (s : Schedule) (results : List Output × List (Cell × Tensor)) :
    (commit s results).Keeps inv fails fun _ => True := by
  refine (keeps_forM fun v _ => up.writes v.1 v.2).andThen fun _ => ?_
  refine (keeps_modify fun a kept => retainAll_kept up kept results.1).andThen fun _ => ?_
  exact (drop_kept up s _).andThen fun _ => (enter_kept up _).andThen fun _ => keeps_pure trivial

theorem recover_kept (s : Schedule) (e : Error) : (recover s c e).Keeps inv fails fun _ => True := by
  refine (reset_kept up s).andThen fun _ => (keeps_attempt up.waits).plain.andThen fun drained => ?_
  refine keeps_ite (fun _ => ?_) fun _ => enter_kept up _
  refine Keeps.andThen (onFrame_kept up ?_) fun _ => enter_kept up _
  exact fun _ => rfl

theorem nextCall_kept (f : ExecutableId) : (nextCall f).Keeps inv fails fun _ => True :=
  (keeps_modify fun _ => up.numbers _).andThen fun _ => keeps_get.bind fun _ _ => keeps_pure trivial

theorem synchronize_kept : (synchronize c).Keeps inv fails fun _ => True := by
  refine (count_kept up _).andThen fun _ => (keeps_attempt up.waits).bind fun result ⟨_, failed⟩ => ?_
  cases result with
  | ok _ => exact keeps_pure trivial
  | error e =>
    refine keeps_ite (fun _ => ?_) fun _ => keeps_throw (failed e rfl)
    refine Keeps.andThen (onFrame_kept up ?_) fun _ => keeps_throw (failed e rfl)
    exact fun _ => rfl

section Calls

variable (leaves : ∀ x ∈ s.leafSites, ∀ data, rests x.slot (.borrowed data))
  (devices : ∀ cmd ∈ s.commands,
    (liftM (c.device cmd.location) : Calling Device).Keeps inv fails (Serves inv fails rests on cmd))

include leaves devices

theorem run_kept (f : ExecutableId) (inputs : List Tensor) (borrow : Bool) (call : Nat) :
    (run s c f inputs borrow call).Keeps inv fails fun _ => True := by
  rw [run_eq, readings_eq]
  refine Keeps.andThen ?_ (commit_kept up s)
  refine (begin_kept up leaves inputs).andThen fun _ => ?_
  refine (keeps_forM fun cmd member => execute_kept up (devices cmd member) s).andThen fun _ => ?_
  exact answer_kept up s f borrow call

theorem invoke_kept (f : ExecutableId) (inputs : List Tensor) (borrow : Bool) :
    (invoke s c f inputs borrow).Keeps inv fails fun _ => True := by
  refine keeps_get.bind fun a _ => ?_
  cases a.frame.poisoned with
  | some reason => exact keeps_throw (up.said trivial)
  | none =>
    refine Keeps.andThen (keeps_lift (fun e refused => ?_) fun _ _ => trivial) fun _ => ?_
    · obtain ⟨text, rfl⟩ := invalid_of_accept refused
      exact up.said trivial
    refine (nextCall_kept up f).andThen fun call => ?_
    refine (keeps_attempt (run_kept up leaves devices f inputs borrow call)).bind fun result ended => ?_
    cases result with
    | ok os => exact keeps_pure trivial
    | error e => exact (recover_kept up s e).andThen fun _ => keeps_throw (ended.2 e rfl)

end Calls

end Calling

end TensorGraph
