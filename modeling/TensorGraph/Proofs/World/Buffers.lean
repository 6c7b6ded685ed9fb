import TensorGraph.Proofs.Executable.Occupancy
import TensorGraph.Proofs.World.Locations

/-! The buffers that an executable holds between its calls, after any history: those that a later call or a holder of
a result needs, and with collection off all that its commands made, but never data of the caller. -/
namespace TensorGraph

open Checked TensorGraph.Action

-- Where the product of blocks plays no part, any one serves for the lemmas that ask for it.
open scoped BlockRoutine

namespace Frame

variable {f : Frame}

theorem buffers_eq : f.slots.toList = (List.range f.slots.size).map f.buffer? := by
  refine List.ext_getElem (by simp) fun i inside _ => ?_
  have known : f.slots[i]? = some f.slots[i] := Array.getElem?_eq_getElem (by simpa using inside)
  simp [Frame.buffer?, known]

/-- Counting the bytes slot by slot adds those of the buffers, where all of them are owned. -/
theorem foldl_bytes (owned : ∀ {slot : SlotId} {b : Buffer}, f.buffer? slot = some b → b.isOwned)
    (xs : List SlotId) (total : Nat) : xs.foldl (fun total slot => match f.buffer? slot with
      | some (.owned r) => total + (Buffer.owned r).bytes
      | _ => total) total = total + ((xs.filterMap f.buffer?).map Buffer.bytes).sum := by
  induction xs generalizing total with
  | nil => simp
  | cons x xs ih =>
    rw [List.foldl_cons, ih]
    cases at_ : f.buffer? x with
    | none => simp [at_]
    | some b =>
      cases b with
      | owned r => simp [at_, Nat.add_assoc]
      | borrowed data => cases owned at_

/-- Where all buffers are owned, their bytes are in use. -/
theorem bytesInUse_eq (owned : ∀ {slot : SlotId} {b : Buffer}, f.buffer? slot = some b → b.isOwned) :
    f.bytesInUse = (((List.range f.slots.size).filterMap f.buffer?).map Buffer.bytes).sum := by
  unfold bytesInUse
  rw [← Array.foldl_toList, buffers_eq, List.foldl_map]
  exact (foldl_bytes owned _ 0).trans (Nat.zero_add _)

end Frame

namespace Executable

variable {p : Program} {c : Context} {f g : Executable} {inputs : List Tensor} {borrow : Bool}
  {result : Except Error (List Output)} {m m' : Machine}

theorem rest_of_create {s : Schedule} {collect : Bool} (ran : (create s c).start m = (.ok f, m')) :
    f.context = c ∧ f.schedule = s ∧ f.frame.ledger.AtRest s collect := by
  cases ran
  exact ⟨rfl, rfl, Ledger.atRest_of_empty (by simp [Frame.fresh, Frame.ledger]) (buffer?_fresh s)⟩

/-- What a call leaves in the slots of an executable, whatever comes of it. -/
theorem call_occupies {scope : Scope} {l : Layout} (laid : f.schedule.LaidOut f.context scope l)
    (rests : f.frame.ledger.AtRest f.schedule f.context.config.collect)
    (ran : f.call inputs borrow m = (result, g, m')) : g.context = f.context ∧ g.schedule = f.schedule ∧
      g.frame.ledger.AtRest f.schedule f.context.config.collect ∧
      match result with
      | .ok _ => g.frame.ledger.Occupied f.schedule f.context.config.collect
      | .error _ => f.Accepts inputs → ∀ slot, g.frame.buffer? slot = none := by
  obtain ⟨a, rfl, -, met⟩ := World.run_cases (Calling.invoke_occupies (a := ⟨f.frame, m⟩) laid rests) ran
  cases result with
  | ok os => exact ⟨rfl, rfl, met.toAtRest, met⟩
  | error e =>
    rcases met with ⟨same, refused⟩ | ⟨size, empty⟩
    · exact ⟨rfl, rfl, same ▸ rests, fun accepts => absurd refused (by simp [accepts.usable, accepts.inputs])⟩
    · exact ⟨rfl, rfl, Ledger.atRest_of_empty size empty, fun _ => empty⟩

/-- An executable of a program that was built keeps its schedule and its context, and its buffers are at rest. -/
theorem Lives.rests (built : p.graph.Built) (lives : f.Lives p c) :
    f.context = c ∧ p.schedule c = .ok f.schedule ∧ f.frame.ledger.AtRest f.schedule c.config.collect := by
  induction lives with
  | compiled ran =>
    unfold Program.compile at ran
    cases compiled : p.schedule c with
    | error e =>
      rw [compiled] at ran
      cases ran
    | ok s =>
      rw [compiled] at ran
      obtain ⟨context, rfl, rests⟩ := rest_of_create ran
      exact ⟨context, rfl, rests⟩
  | @forked f g m m' _ ran known =>
    obtain ⟨rfl, compiled, -⟩ := known
    obtain ⟨context, same, rests⟩ := rest_of_create ran
    exact ⟨context, same ▸ compiled, same ▸ rests⟩
  | @called f g inputs borrow m m' result _ ran known =>
    obtain ⟨rfl, compiled, rests⟩ := known
    obtain ⟨-, _, _, compiles⟩ := Program.compilesTo_of_schedule built.sound compiled
    obtain ⟨context, same, rests, -⟩ := call_occupies compiles.laid rests ran
    exact ⟨context, same ▸ compiled, same ▸ rests⟩
  | @synchronized f g m m' result _ ran known =>
    obtain ⟨rfl, compiled, rests⟩ := known
    obtain ⟨a, rfl, -, met⟩ := World.run_cases (Calling.synchronize_moves (a := ⟨f.frame, m⟩)) ran
    have same : a.frame.ledger = f.frame.ledger := by cases result <;> exact met
    exact ⟨rfl, compiled, same ▸ rests⟩

/-- What an executable `f` holds after a call, as `g`. -/
structure HoldsNeeded (f : Executable) (inputs : List Tensor) (result : Except Error (List Output)) (g : Executable) :
    Prop where
  /-- After a success, a slot has a buffer if a command wrote it and, with collection on, it is kept for later. -/
  succeeded : ∀ os, result = .ok os → ∀ slot, (g.frame.buffer? slot).isSome ↔
    f.schedule.Writes slot ∧ (f.context.config.collect = true → f.schedule.Retains slot)
  /-- After a failure, no slot has one. -/
  failed : ∀ e, result = .error e → f.Accepts inputs → ∀ slot, g.frame.buffer? slot = none
  /-- No slot refers to arguments, constants or persistent values. -/
  owned : ∀ {slot : SlotId} {b : Buffer}, g.frame.buffer? slot = some b → b.isOwned
  /-- The bytes in use are those of the buffers in the slots. -/
  bytes : g.frame.bytesInUse = (((List.range f.schedule.slotCount).filterMap g.frame.buffer?).map Buffer.bytes).sum

/-- After any history, on any machine, a call leaves in its slots exactly the buffers that are needed. -/
theorem buffers_are_needed (built : p.graph.Built) (lives : f.Lives p c)
    (ran : f.call inputs borrow m = (result, g, m')) : f.HoldsNeeded inputs result g := by
  obtain ⟨rfl, compiled, rests⟩ := lives.rests built
  obtain ⟨-, _, _, compiles⟩ := Program.compilesTo_of_schedule built.sound compiled
  have laid := compiles.laid
  obtain ⟨-, -, rests', holds⟩ := call_occupies laid rests ran
  have owned : ∀ {slot : SlotId} {b : Buffer}, g.frame.buffer? slot = some b → b.isOwned := fun at_ =>
    (rests'.kept at_).1
  have pinned {slot : SlotId} (writes : f.schedule.Writes slot) :
      f.schedule.pinned.getD slot false = true ↔ f.schedule.Retains slot :=
    laid.pinned_iff (laid.writes_inside writes)
  refine ⟨?_, ?_, owned, ?_⟩
  · rintro os rfl slot
    constructor
    · intro there
      obtain ⟨b, at_⟩ := Option.isSome_iff_exists.mp there
      obtain ⟨-, writes, keeps⟩ := rests'.kept at_
      exact ⟨writes, fun on => (pinned writes).mp (keeps on)⟩
    · rintro ⟨writes, keeps⟩
      exact holds.full slot writes fun on => (pinned writes).mpr (keeps on)
  · rintro e rfl accepts
    exact holds accepts
  · have size : g.frame.slots.size = f.schedule.slotCount := rests'.size
    rw [Frame.bytesInUse_eq owned, size]

section

open scoped BlockRoutine

/-- A call that succeeds. -/
theorem buffers_are_needed_negatedSum : ∃ (f g : Executable) (os : List Output),
    f.Lives .negatedSum .first ∧ f.HoldsNeeded [.vector ⟨.i32, #[1, 2, 3]⟩] (.ok os) g := by
  have succeeds : (Program.negatedSum.schedule .first).toOption.all (fun s =>
      ((⟨0, s, .first, .fresh s⟩ : Executable).call [.vector ⟨.i32, #[1, 2, 3]⟩] false {}).1.isOk) := by decide +kernel
  obtain ⟨s, compiled⟩ := exists_of_isOk (r := Program.negatedSum.schedule .first) (by decide +kernel)
  have started := Program.compile_start .negatedSum .first {}
  rw [compiled] at started
  have lives : (⟨0, s, .first, .fresh s⟩ : Executable).Lives .negatedSum .first := .compiled started
  rw [compiled] at succeeds
  obtain ⟨os, ok⟩ := exists_of_isOk (by simpa [Except.toOption] using succeeds)
  exact ⟨_, _, os, lives, buffers_are_needed Graph.built_negatedSum lives (Prod.ext ok rfl)⟩

end

end Executable

end TensorGraph
