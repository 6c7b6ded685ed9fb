import TensorGraph.Proofs.Executable.Invoke

/-! What the parts of a call do to the slots of an executable, to the reads that it counts, and to its counters of
buffers, whatever its devices do. What is given back depends on the ledger alone; whether a buffer is used again
depends on who else holds it. -/
namespace TensorGraph

open TensorGraph.Action

/-- A block that had no number yet. -/
def BlockRef.Beyond (r : BlockRef) (m : Machine) : Prop := (m.memory r.device).next ≤ r.id

namespace Machine

variable {m : Machine}

/-- What leaves the numbers given as they are on one device does so on all. -/
theorem next_onMemory {d e : Device} {f : Memory → Memory} (same : ∀ x, (f x).next = x.next) :
    ((m.onMemory d f).memory e).next = (m.memory e).next := by
  cases d with
  | host =>
    cases e with
    | host => exact same m.host
    | sim id ordinal => rfl
  | sim id ordinal =>
    cases e with
    | host => rfl
    | sim id' ordinal' =>
      simp only [onMemory, memory, accelerator, setAccelerator, Array.getD_eq_getD_getElem?,
        Array.getElem?_setIfInBounds]
      by_cases here : id = id'
      · subst here
        by_cases inside : id < m.accelerators.size
        · simp [inside, same]
        · simp [inside]
      · simp [here]

theorem next_retain (b : Buffer) (d : Device) : ((m.retain b).memory d).next = (m.memory d).next := by
  cases b with
  | owned r => exact next_onMemory fun _ => Memory.next_retain
  | borrowed data => rfl

theorem next_awaitUsers (r : BlockRef) (d : Device) :
    ((m.awaitUsers r).memory d).next = (m.memory d).next := by
  unfold awaitUsers
  split
  · rfl
  dsimp only
  split
  · cases d with
    | host => rfl
    | sim id ordinal =>
      simp only [memory, accelerator, setAccelerator, Array.getD_eq_getD_getElem?,
        Array.getElem?_setIfInBounds]
      split
      · rename_i same
        subst same
        split
        · exact (Accelerator.next_landAll _).trans (by simp [*])
        · simp [*]
      · rfl
  · rfl

theorem next_release (b : Buffer) (d : Device) : ((m.release b).memory d).next = (m.memory d).next := by
  cases b with
  | owned r => exact (next_onMemory fun _ => Memory.next_release).trans (next_awaitUsers r d)
  | borrowed data => rfl

end Machine

/-- What an executable keeps account of: its slots, the reads to come, and how often buffers were taken and given
back. -/
structure Ledger where
  slots : Array (Option Buffer)
  counts : Array Nat
  allocations : Nat
  reuses : Nat
  releases : Nat

def Frame.ledger (f : Frame) : Ledger :=
  ⟨f.slots, f.counts, f.stats.allocations, f.stats.reuses, f.stats.releases⟩

namespace Ledger

variable {l : Ledger} {s : Schedule} {collect : Bool} {slot x : SlotId} {b : Option Buffer}

/-- The buffer in a slot. -/
def buffer? (l : Ledger) (slot : SlotId) : Option Buffer := l.slots[slot]?.join

/-- Puts a buffer into a slot, or none. -/
def put (l : Ledger) (slot : SlotId) (b : Option Buffer) : Ledger :=
  { l with slots := l.slots.setIfInBounds slot b }

@[simp] theorem size_put : (l.put slot b).slots.size = l.slots.size := Array.size_setIfInBounds

theorem buffer?_put (inside : slot < l.slots.size) :
    (l.put slot b).buffer? x = if x = slot then b else l.buffer? x := by
  unfold buffer? put
  rw [Array.getElem?_setIfInBounds]
  by_cases same : x = slot
  · subst same
    simp [inside]
  · simp [same, Ne.symm same]

theorem inside_of_buffer {b : Buffer} (at_ : l.buffer? slot = some b) : slot < l.slots.size := by
  unfold buffer? at at_
  rw [Option.join_eq_some_iff] at at_
  exact (Array.getElem?_eq_some_iff.mp at_).1

/-- Empties a slot whose buffer nobody reads any more. -/
def returned (slot : SlotId) (l : Ledger) : Ledger := { l.put slot none with releases := l.releases + 1 }

/-- Gives back the buffer of a slot that nobody reads any more, unless the slot keeps it. -/
def freed (s : Schedule) (collect : Bool) (slot : SlotId) (l : Ledger) : Ledger :=
  if s.pinned.getD slot false then l
  else
    match l.buffer? slot with
    | none => l
    | some (.borrowed _) => l.put slot none
    | some (.owned _) => if collect then l.returned slot else l

/-- Counts one read of a slot. -/
def counted (slot : SlotId) (l : Ledger) : Ledger := { l with counts := l.counts.modify slot (· - 1) }

/-- Gives back the buffer of a slot if no read of it is to come. -/
def settled (s : Schedule) (collect : Bool) (slot : SlotId) (l : Ledger) : Ledger :=
  if l.counts.getD slot 0 = 0 then l.freed s collect slot else l

/-- Counts one read of a slot, and gives its buffer back after the last one. -/
def released (s : Schedule) (collect : Bool) (slot : SlotId) (l : Ledger) : Ledger :=
  (l.counted slot).settled s collect slot

/-- Counts the reads of a command, and gives back what nobody reads any more. -/
def finished (s : Schedule) (collect : Bool) (cmd : Command) (l : Ledger) : Ledger :=
  (cmd.inputs.foldl (fun l x => l.released s collect x.slot) l).settled s collect cmd.output.slot

theorem buffer?_returned : (l.returned slot).buffer? x = (l.put slot none).buffer? x := rfl

/-- A slot has a buffer for a value of `n` elements: the one there, if it may be used again, or one that the machine
never had before. -/
inductive Takes (l : Ledger) (m : Machine) (slot : SlotId) (kind : Kind) (n : Nat) (again : Prop) : Ledger → Prop where
  | reused {r : BlockRef} (held : again) (there : l.buffer? slot = some (.owned r)) :
    Takes l m slot kind n again { l with reuses := l.reuses + 1 }
  | allocated {r : BlockRef} (refused : ¬ again) (same : r.kind = kind) (room : r.capacity = max n 1)
    (new : r.Beyond m) :
    Takes l m slot kind n again { l.put slot (some (.owned r)) with allocations := l.allocations + 1 }

/-- Data of the caller went into some slots. -/
structure Lends (bound : List SlotId) (l l' : Ledger) : Prop where
  size : l'.slots.size = l.slots.size
  lent : ∀ x ∈ bound, x < l.slots.size → ∃ data, l'.buffer? x = some (.borrowed data)
  others : ∀ x, x ∉ bound → l'.buffer? x = l.buffer? x
  counts : l'.counts = l.counts
  tally : l'.allocations = l.allocations ∧ l'.reuses = l.reuses ∧ l'.releases = l.releases

/-- Some slots were emptied. -/
structure Sheds (s : Schedule) (p : Buffer → Bool) (l l' : Ledger) : Prop where
  size : l'.slots.size = l.slots.size
  buffers : ∀ x, l'.buffer? x = if x < s.slotCount ∧ (l.buffer? x).any p then none else l.buffer? x
  counts : l'.counts = l.counts
  tally : l'.allocations = l.allocations ∧ l'.reuses = l.reuses ∧ l'.releases = l.releases

/-- All slots were emptied, and the reads are counted anew. -/
structure Emptied (s : Schedule) (l l' : Ledger) : Prop where
  size : l'.slots.size = s.slotCount
  vacant : ∀ x, l'.buffer? x = none
  counts : l'.counts = s.reads
  tally : l'.allocations = l.allocations ∧ l'.reuses = l.reuses ∧ l'.releases = l.releases

@[simp] theorem size_freed : (l.freed s collect slot).slots.size = l.slots.size := by
  unfold freed
  split
  · rfl
  · split
    · rfl
    · exact size_put
    · split
      · exact size_put
      · rfl

@[simp] theorem counts_freed : (l.freed s collect slot).counts = l.counts := by
  unfold freed
  split
  · rfl
  · split
    · rfl
    · rfl
    · split <;> rfl

theorem counts_settled : (l.settled s collect slot).counts = l.counts := by
  unfold settled
  split
  · exact counts_freed
  · rfl

/-- Reads are counted where they happen. -/
theorem counts_released (x : SlotId) : (l.released s collect slot).counts.getD x 0 =
    if x = slot then l.counts.getD x 0 - 1 else l.counts.getD x 0 := by
  rw [released, counts_settled, counted]
  simp only [Array.getD_eq_getD_getElem?, Array.getElem?_modify]
  by_cases same : slot = x
  · subst same
    cases l.counts[slot]? <;> simp
  · simp [same, Ne.symm same]

/-- What is given back leaves the other slots as they are. -/
theorem freed_other (other : x ≠ slot) : (l.freed s collect slot).buffer? x = l.buffer? x := by
  have emptied {b : Buffer} (at_ : l.buffer? slot = some b) : (l.put slot none).buffer? x = l.buffer? x := by
    rw [buffer?_put (inside_of_buffer at_), if_neg other]
  unfold freed
  split
  · rfl
  · split
    · rfl
    · exact emptied ‹_›
    · split
      · exact emptied ‹_›
      · rfl

/-- A slot that keeps its buffer, because it is pinned or because nothing is collected. -/
theorem freed_kept (keeps : s.pinned.getD slot false = true ∨ collect = false) {r : BlockRef}
    (at_ : l.buffer? slot = some (.owned r)) : l.freed s collect slot = l := by
  unfold freed
  rcases keeps with pinned | off
  · rw [if_pos pinned]
  · simp [at_, off]

/-- What is in a slot afterwards was there before. -/
theorem of_freed {b : Buffer} (at_ : (l.freed s collect slot).buffer? x = some b) : l.buffer? x = some b := by
  by_cases same : x = slot
  · subst same
    unfold freed at at_
    split at at_
    · exact at_
    split at at_
    · exact at_
    · rw [buffer?_put (inside_of_buffer ‹_›), if_pos rfl] at at_
      cases at_
    · rename_i r here
      split at at_
      · rw [buffer?_returned, buffer?_put (inside_of_buffer here), if_pos rfl] at at_
        cases at_
      · exact at_
  · rwa [freed_other same] at at_

/-- With collection on, no buffer of its own is left in a slot that is not pinned. -/
theorem freed_vacant (unpinned : s.pinned.getD slot false = false) (r : BlockRef) :
    (l.freed s true slot).buffer? slot ≠ some (.owned r) := by
  intro at_
  have before := of_freed at_
  rw [freed, unpinned] at at_
  simp only [Bool.false_eq_true, ↓reduceIte, before] at at_
  rw [buffer?_returned, buffer?_put (inside_of_buffer before), if_pos rfl] at at_
  cases at_

theorem Lends.refl (l : Ledger) : Lends [] l l where
  size := rfl
  lent x member := by cases member
  others _ _ := rfl
  counts := rfl
  tally := ⟨rfl, rfl, rfl⟩

theorem Lends.trans {l' l'' : Ledger} {bound bound' : List SlotId} (first : Lends bound l l')
    (second : Lends bound' l' l'') : Lends (bound ++ bound') l l'' where
  size := second.size.trans first.size
  lent x member inside := by
    by_cases later : x ∈ bound'
    · exact second.lent x later (first.size ▸ inside)
    · rw [second.others x later]
      exact first.lent x ((List.mem_append.mp member).resolve_right later) inside
  others x outside := by
    rw [List.mem_append, not_or] at outside
    exact (second.others x outside.2).trans (first.others x outside.1)
  counts := second.counts.trans first.counts
  tally := by
    obtain ⟨allocations, reuses, releases⟩ := first.tally
    obtain ⟨allocations', reuses', releases'⟩ := second.tally
    exact ⟨allocations'.trans allocations, reuses'.trans reuses, releases'.trans releases⟩

theorem lends_put (slot : SlotId) (data : Data) : Lends [slot] l (l.put slot (some (.borrowed data))) where
  size := size_put
  lent x member inside := by
    rw [List.mem_singleton.mp member] at inside ⊢
    exact ⟨data, by rw [buffer?_put inside, if_pos rfl]⟩
  others x outside := by
    have other : x ≠ slot := by simpa using outside
    by_cases inside : slot < l.slots.size
    · rw [buffer?_put inside, if_neg other]
    · rw [put, Array.setIfInBounds, dif_neg inside]
  counts := rfl
  tally := ⟨rfl, rfl, rfl⟩

end Ledger

/-- The slots that the data of a call goes into. -/
def Schedule.boundSlots (s : Schedule) (inputs : List Tensor) : List SlotId :=
  ((s.inputs.map Prod.fst).zip inputs).map (fun e => e.1.slot) ++ s.constants.map (fun e => e.1.slot) ++
    s.cells.map fun e => e.1.slot

/-- Whether a command uses the buffer in its slot again for a value of `n` elements: nobody else holds it then but the
command itself, where it overwrites an operand. -/
def Activation.Reuses (a : Activation) (c : Context) (cmd : Command) (n : Nat) : Prop :=
  ∃ d b, c.device cmd.location = .ok d ∧ a.frame.buffer? cmd.output.slot = some b ∧
    match cmd.inPlace with
    | none => Calling.reusable a.machine b d cmd.kind n 1
    | some _ => Calling.reusable (a.machine.retain b) b d cmd.kind n 2

/-- What a command overwrites is in its own slot, and a transfer overwrites nothing. -/
structure Command.Marked (cmd : Command) : Prop where
  slot : ∀ i, cmd.inPlace = some i → ∃ x, cmd.inputs[i]? = some x ∧ x.slot = cmd.output.slot
  transfer : ∀ kept, cmd.work = .transfer kept → cmd.inPlace = none

/-- The output of a command has a buffer, or a kept upload was there already. -/
inductive Activation.Performs (a : Activation) (c : Context) (cmd : Command) (n : Nat) : Ledger → Prop where
  | present (kept : cmd.isKept) (there : (a.frame.buffer? cmd.output.slot).isSome) : Performs a c cmd n a.frame.ledger
  | takes {l : Ledger} (missing : ¬ (cmd.isKept ∧ (a.frame.buffer? cmd.output.slot).isSome))
    (takes : a.frame.ledger.Takes a.machine cmd.output.slot cmd.kind n (a.Reuses c cmd n) l) : Performs a c cmd n l

/-- A command has a buffer for its output, and what nobody reads any more was given back. -/
def Activation.Executes (a : Activation) (s : Schedule) (c : Context) (cmd : Command) (l : Ledger) : Prop :=
  ∃ shapes shape l', (cmd.inputs.mapM fun x => a.frame.shapes[x.var]?.join) = some shapes ∧
    cmd.op.resultShape shapes = .ok shape ∧ a.Performs c cmd shape.volume l' ∧ l = l'.finished s c.config.collect cmd

namespace Calling

variable {α β : Type} {a : Activation} {c : Context} {s : Schedule} {d : Device} {kind : Kind} {n : Nat} {slot : SlotId}
  {cmd : Command}

/-- A part of a call leaves a ledger with `post`. It never changes the number of slots, also when it fails. -/
def Moves (act : Calling α) (a : Activation) (post : Ledger → Prop) : Prop :=
  act.Meets a (fun _ a' => a'.frame.slots.size = a.frame.slots.size)
    fun _ a' => post a'.frame.ledger ∧ a'.frame.slots.size = a.frame.slots.size

/-- A part of a call that does not touch the ledger. -/
def Silent (act : Calling α) : Prop := ∀ a, act.Moves a (· = a.frame.ledger)

theorem Moves.mono {act : Calling α} {post post' : Ledger → Prop} (moves : act.Moves a post)
    (weaker : ∀ l, post l → post' l) : act.Moves a post' :=
  Meets.post moves fun _ _ held => ⟨weaker _ held.1, held.2⟩

theorem Moves.bind {act : Calling α} {next : α → Calling β} {mid post : Ledger → Prop} (first : act.Moves a mid)
    (rest : ∀ x a', mid a'.frame.ledger → a'.frame.slots.size = a.frame.slots.size → (next x).Moves a' post) :
    (act >>= next).Moves a post := by
  unfold Moves
  rw [meets_bind]
  refine Meets.post first fun x a' held => ?_
  obtain ⟨here, size⟩ := held
  exact Meets.mono (rest x a' here size) (fun _ a'' same => Eq.trans same size)
    fun _ a'' held' => ⟨held'.1, held'.2.trans size⟩

/-- What follows a part that does not touch the ledger. -/
theorem Silent.bind {act : Calling α} {next : α → Calling β} {post : Ledger → Prop} (first : act.Silent)
    (rest : ∀ x a', a'.frame.ledger = a.frame.ledger → (next x).Moves a' post) : (act >>= next).Moves a post :=
  Moves.bind (first a) fun x a' same _ => rest x a' same

/-- What is done with the machine is hidden from the ledger. -/
theorem Moves.silently {act : Calling α} {next : α → Calling β} {post : Ledger → Prop} (first : act.Moves a post)
    (rest : ∀ x, (next x).Silent) : (act >>= next).Moves a post :=
  first.bind fun x a' held _ => (rest x a').mono fun _ same => same ▸ held

theorem moves_pure (x : α) {post : Ledger → Prop} (held : post a.frame.ledger) : (pure x : Calling α).Moves a post :=
  ⟨held, rfl⟩

theorem silent_pure (x : α) : (pure x : Calling α).Silent := fun _ => moves_pure x rfl

theorem moves_throw (e : Error) {post : Ledger → Prop} : (throw e : Calling α).Moves a post := rfl

theorem silent_get : (get : Calling Activation).Silent := fun _ => ⟨rfl, rfl⟩

theorem silent_lift (x : Except Error α) : (liftM x : Calling α).Silent := fun a => by
  unfold Moves
  rw [meets_lift]
  cases x with
  | ok x => exact ⟨rfl, rfl⟩
  | error e => rfl

theorem silent_onMachine (act : Action Machine α) : (onMachine act).Silent := fun a => by
  unfold Moves onMachine
  rw [meets_onPart]
  unfold Meets
  split
  · exact ⟨rfl, rfl⟩
  · rfl

theorem moves_onFrame {f : Frame → Frame} {post : Ledger → Prop} (held : post (f a.frame).ledger)
    (size : (f a.frame).slots.size = a.frame.slots.size) : (onFrame f).Moves a post := ⟨held, size⟩

theorem silent_onFrame {f : Frame → Frame} (same : ∀ x, (f x).ledger = x.ledger) : (onFrame f).Silent := fun a =>
  moves_onFrame (same a.frame) (congrArg (fun l => l.slots.size) (same a.frame))

theorem silent_machine (f : Activation → Machine) :
    (modify fun a => { a with machine := f a } : Calling PUnit).Silent := fun _ => ⟨rfl, rfl⟩

theorem silent_bind {act : Calling α} {next : α → Calling β} (first : act.Silent) (rest : ∀ x, (next x).Silent) :
    (act >>= next).Silent := fun a => (first a).silently rest

theorem silent_ite {p : Prop} [Decidable p] {yes no : Calling α} (first : yes.Silent) (second : no.Silent) :
    (if p then yes else no).Silent := by
  split
  · exact first
  · exact second

theorem silent_mapM {f : α → Calling β} {xs : List α} (each : ∀ x, (f x).Silent) : (xs.mapM f).Silent := by
  induction xs with
  | nil => exact silent_pure []
  | cons x xs ih =>
    rw [List.mapM_cons]
    exact silent_bind (each x) fun y => silent_bind ih fun ys => silent_pure (y :: ys)

theorem silent_forM {f : α → Calling PUnit} {xs : List α} (each : ∀ x, (f x).Silent) : (xs.forM f).Silent := by
  induction xs with
  | nil => exact silent_pure PUnit.unit
  | cons x xs ih =>
    rw [List.forM_eq_forM, List.forM_cons]
    exact silent_bind (each x) fun _ => ih

theorem silent_count {f : Stats → Stats} (same : ∀ x, (f x).allocations = x.allocations ∧ (f x).reuses = x.reuses ∧
    (f x).releases = x.releases) : (count f).Silent := silent_onFrame fun x => by
  obtain ⟨allocations, reuses, releases⟩ := same x.stats
  simp only [Frame.ledger, allocations, reuses, releases]

theorem silent_countSync : countSync.Silent := silent_count fun _ => ⟨rfl, rfl, rfl⟩

theorem silent_enter (phase : Phase) : (enter phase).Silent := silent_onFrame fun _ => rfl

theorem silent_buffer (slot : SlotId) : (buffer slot).Silent := fun a => by
  refine Silent.bind silent_get fun b a' same => ?_
  cases b.frame.buffer? slot with
  | none => exact moves_throw _
  | some x => exact moves_pure x same

theorem silent_shape (v : VarId) : (shape v).Silent := fun a => by
  refine Silent.bind silent_get fun b a' same => ?_
  cases b.frame.shapes[v]?.join with
  | none => exact moves_throw _
  | some x => exact moves_pure x same

/-- The buffer of a slot, in a state that stays as it is. -/
theorem buffer_finds (slot : SlotId) : (buffer slot).Meets a (fun _ a' => a' = a)
    fun b a' => a' = a ∧ a.frame.buffer? slot = some b := by
  unfold buffer
  rw [meets_bind, meets_get]
  cases a.frame.buffer? slot with
  | none => rfl
  | some b => exact ⟨rfl, rfl⟩

theorem put_moves (slot : SlotId) (b : Option Buffer) : (put slot b).Moves a (· = a.frame.ledger.put slot b) :=
  ⟨rfl, Array.size_setIfInBounds⟩

section Buffers

theorem alloc_meets {m : Machine} : (d.alloc kind n).Meets m (fun _ _ => True) fun r _ =>
    r.kind = kind ∧ r.capacity = n ∧ r.Beyond m := by
  unfold Device.alloc
  cases d with
  | host =>
    rw [meets_bind, meets_get]
    split
    · exact ⟨rfl, rfl, Nat.le_refl _⟩
    · trivial
  | sim id ordinal =>
    rw [meets_bind]
    unfold Machine.onAccelerator
    rw [meets_onPart]
    refine (Accelerator.alloc_decides _ kind n).mono (fun _ _ _ => trivial) fun b _ granted => ?_
    exact ⟨rfl, rfl, Nat.le_of_eq granted.2.1.symm⟩

theorem allocate_moves : (allocate slot d kind n).Moves a fun l => ∃ r : BlockRef, r.kind = kind ∧
    r.capacity = max n 1 ∧ r.Beyond a.machine ∧
      l = { a.frame.ledger.put slot (some (.owned r)) with allocations := a.frame.ledger.allocations + 1 } := by
  unfold Moves allocate
  rw [meets_bind]
  unfold onMachine
  rw [meets_onPart]
  refine Meets.mono (alloc_meets (m := a.machine)) (fun _ _ _ => rfl) fun r m held => ?_
  exact ⟨⟨r, held.1, held.2.1, held.2.2, rfl⟩, Array.size_setIfInBounds⟩

/-- Without a buffer that may be used again, another one is allocated. -/
theorem acquire_moves : (acquire slot d kind n).Moves a (a.frame.ledger.Takes a.machine slot kind n
    (∃ b, a.frame.buffer? slot = some b ∧ reusable a.machine b d kind n 1)) := by
  have fresh (refused : ¬ ∃ b, a.frame.buffer? slot = some b ∧ reusable a.machine b d kind n 1) :
      (allocate slot d kind n).Moves a (a.frame.ledger.Takes a.machine slot kind n
        (∃ b, a.frame.buffer? slot = some b ∧ reusable a.machine b d kind n 1)) := by
    refine allocate_moves.mono fun l ⟨r, same, room, new, equal⟩ => ?_
    rw [equal]
    exact .allocated refused same room new
  unfold acquire
  unfold Moves
  rw [meets_bind, meets_get]
  cases at_ : a.frame.buffer? slot with
  | none =>
    rw [at_] at fresh
    exact fresh (by simp)
  | some b =>
    rw [at_] at fresh
    by_cases reuse : reusable a.machine b d kind n 1
    · obtain ⟨r, rfl, -⟩ := reusable_iff.mp reuse
      simp only [if_pos reuse]
      exact ⟨.reused ⟨_, rfl, reuse⟩ at_, rfl⟩
    · simp only [if_neg reuse]
      refine fresh ?_
      rintro ⟨b', same, reuse'⟩
      rw [Option.some.inj same] at reuse
      exact reuse reuse'

/-- A value that overwrites the one in its slot takes its buffer, if nobody else holds it. -/
theorem acquireOver_moves {input : Buffer} (at_ : a.frame.buffer? slot = some input) {m : Machine}
    (same : ∀ d, (a.machine.memory d).next = (m.memory d).next) :
    (acquireOver slot input d kind n).Moves a
      (a.frame.ledger.Takes m slot kind n (reusable a.machine input d kind n 2)) := by
  unfold acquireOver
  unfold Moves
  rw [meets_bind, meets_get]
  by_cases reuse : reusable a.machine input d kind n 2
  · obtain ⟨r, rfl, -⟩ := reusable_iff.mp reuse
    simp only [if_pos reuse]
    exact ⟨.reused reuse at_, rfl⟩
  · simp only [if_neg reuse]
    rw [meets_bind, put_eq, meets_modify]
    refine Meets.mono allocate_moves (fun _ _ size => Eq.trans size Array.size_setIfInBounds) ?_
    rintro _ a' ⟨⟨r, kindOf, room, new, equal⟩, size⟩
    have beyond : r.Beyond m := by
      unfold BlockRef.Beyond at new ⊢
      rwa [at_, Machine.dropped, Machine.next_release, same] at new
    have twice : (a.frame.ledger.put slot none).put slot (some (.owned r)) =
        a.frame.ledger.put slot (some (.owned r)) := by
      simp [Ledger.put]
    refine ⟨?_, size.trans Array.size_setIfInBounds⟩
    rw [equal]
    exact twice ▸ .allocated reuse kindOf room beyond

theorem holding_moves {b : Buffer} {act : Calling α} {post : Ledger → Prop}
    (moves : act.Moves { a with machine := a.machine.retain b } post) : (holding b act).Moves a post := by
  unfold holding
  unfold Moves
  rw [meets_bind, meets_modify, meets_bind, meets_attempt]
  refine Meets.mono moves ?_ ?_
  · intro e a' size
    exact size
  · intro x a' held
    exact held

end Buffers

/-- A kernel is launched on buffers that are there. -/
theorem silent_launch {kernel : Kernel} {shapes : List Shape} {shape : Shape} {held : Option (SlotId × Buffer)}
    {out : Buffer} : (launch d cmd kernel shapes shape held out).Silent := by
  refine silent_bind (silent_mapM fun x => ?_) fun buffers => ?_
  · cases held with
    | none => exact silent_buffer x.slot
    | some h => exact silent_ite (silent_pure h.2) (silent_buffer x.slot)
  · refine silent_bind (silent_onMachine _) fun _ => silent_count fun _ => ⟨rfl, rfl, rfl⟩

/-- A value is moved into a buffer for it. -/
theorem transfer_moves (marked : cmd.Marked) {kept : Bool} (work : cmd.work = .transfer kept) {shape : Shape} :
    (transfer c cmd shape).Moves a (a.frame.ledger.Takes a.machine cmd.output.slot cmd.kind shape.volume
      (a.Reuses c cmd shape.volume)) := by
  unfold transfer
  cases cmd.inputs with
  | nil => exact moves_throw _
  | cons input rest =>
    unfold Moves
    rw [meets_bind]
    refine (buffer_finds input.slot).mono (fun _ _ same => by rw [same]) ?_
    rintro src a' ⟨rfl, -⟩
    rw [meets_bind, meets_lift]
    cases device : c.device cmd.location with
    | error e => rfl
    | ok d =>
      have again : (∃ b, a'.frame.buffer? cmd.output.slot = some b ∧ reusable a'.machine b d cmd.kind shape.volume 1) ↔
          a'.Reuses c cmd shape.volume := by
        unfold Activation.Reuses
        simp [device, marked.transfer kept work]
      refine Moves.silently (propext again ▸ acquire_moves) fun out => ?_
      refine silent_bind (silent_lift _) fun e => silent_bind (silent_onMachine _) fun data => ?_
      exact silent_bind (silent_onMachine _) fun _ => silent_count fun _ => ⟨rfl, rfl, rfl⟩

/-- A kernel is run, over an operand if the command says so. -/
theorem compute_moves (marked : cmd.Marked) {kernel : Kernel} {shapes : List Shape} {shape : Shape} :
    (compute c cmd kernel shapes shape).Moves a (a.frame.ledger.Takes a.machine cmd.output.slot cmd.kind shape.volume
      (a.Reuses c cmd shape.volume)) := by
  unfold compute
  unfold Moves
  rw [meets_bind, meets_lift]
  cases device : c.device cmd.location with
  | error e => rfl
  | ok d =>
    cases mark : cmd.inPlace with
    | none =>
      have again : (∃ b, a.frame.buffer? cmd.output.slot = some b ∧ reusable a.machine b d cmd.kind shape.volume 1) ↔
          a.Reuses c cmd shape.volume := by
        unfold Activation.Reuses
        simp [device, mark]
      exact Moves.silently (propext again ▸ acquire_moves) fun out => silent_launch
    | some i =>
      obtain ⟨x, atI, same⟩ := marked.slot i mark
      simp only
      rw [meets_bind, meets_lift, Kernel.item_eq_ok.mpr atI]
      simp only
      rw [meets_bind]
      refine (buffer_finds x.slot).mono (fun _ _ same => by rw [same]) ?_
      rintro input a' ⟨rfl, at_⟩
      rw [same] at at_ ⊢
      have again : reusable (a'.machine.retain input) input d cmd.kind shape.volume 2 ↔
          a'.Reuses c cmd shape.volume := by
        unfold Activation.Reuses
        simp [device, mark, at_]
      refine holding_moves ?_
      have taken : (acquireOver cmd.output.slot input d cmd.kind shape.volume).Moves
          { a' with machine := a'.machine.retain input }
          (a'.frame.ledger.Takes a'.machine cmd.output.slot cmd.kind shape.volume (a'.Reuses c cmd shape.volume)) :=
        propext again ▸ acquireOver_moves (a := { a' with machine := a'.machine.retain input }) at_
          (Machine.next_retain input)
      exact Moves.silently taken fun out => silent_launch

/-- A command has a buffer for its output, and the rest of the ledger stays as it is. -/
theorem perform_moves (marked : cmd.Marked) {shapes : List Shape} {shape : Shape} :
    (perform c cmd shapes shape).Moves a (a.Performs c cmd shape.volume) := by
  unfold perform
  cases work : cmd.work with
  | launch kernel =>
    refine (compute_moves marked).mono fun l taken => .takes ?_ taken
    simp [Command.isKept, work]
  | transfer kept =>
    simp only
    unfold Moves
    rw [meets_bind, meets_get]
    have kind : cmd.isKept = kept := by simp [Command.isKept, work]
    by_cases present : kept && (a.frame.buffer? cmd.output.slot).isSome
    · simp only [present, Bool.not_true, Bool.false_eq_true, ↓reduceIte]
      obtain ⟨here, there⟩ := (Bool.and_eq_true _ _).mp present
      exact moves_pure _ (.present (kind.trans here) there)
    · simp only [present, Bool.not_false, ↓reduceIte]
      rw [Bool.and_eq_true, ← kind] at present
      exact (transfer_moves marked work).mono fun l taken => .takes present taken

section Release

variable {x : SlotId}

theorem free_moves (s : Schedule) : (free s c slot).Moves a (· = a.frame.ledger.freed s c.config.collect slot) := by
  unfold free
  have known : a.frame.ledger.buffer? slot = a.frame.buffer? slot := rfl
  by_cases pinned : s.pinned.getD slot false
  · rw [if_pos pinned]
    refine moves_pure _ ?_
    rw [Ledger.freed, if_pos pinned]
  rw [if_neg pinned]
  unfold Moves
  rw [meets_bind, meets_get]
  unfold Ledger.freed
  rw [if_neg pinned, known]
  cases at_ : a.frame.buffer? slot with
  | none => exact moves_pure PUnit.unit rfl
  | some b =>
    cases b with
    | borrowed data => exact put_moves slot none
    | owned r =>
      by_cases collect : c.config.collect
      swap
      · simp only [collect, Bool.not_false, Bool.false_eq_true, ↓reduceIte]
        exact moves_pure PUnit.unit rfl
      simp only [collect, Bool.not_true, Bool.false_eq_true, ↓reduceIte]
      have emptied {last : Calling Unit} (silent : last.Silent) (a' : Activation)
          (same : a'.frame.ledger = a.frame.ledger) : Moves (do
            put slot none
            count fun s => { s with releases := s.releases + 1 }
            last) a' (· = a.frame.ledger.returned slot) := by
        refine (put_moves slot none).bind fun _ a₁ put size => ?_
        refine Moves.silently (moves_onFrame ?_ rfl) fun _ => silent
        rw [same] at put
        exact congrArg (fun l : Ledger => { l with releases := l.releases + 1 }) put
      split
      · exact Silent.bind (silent_lift _) fun d a₁ same₁ => Silent.bind (silent_onMachine _) fun _ a₂ same₂ =>
          emptied silent_countSync a₂ (same₂.trans same₁)
      · exact emptied (silent_pure PUnit.unit) a rfl

theorem settle_moves (s : Schedule) : Moves (do if (← remaining slot) = 0 then free s c slot) a
    (· = a.frame.ledger.settled s c.config.collect slot) := by
  unfold remaining Ledger.settled
  unfold Moves
  rw [meets_bind, meets_bind, meets_get, meets_pure]
  have known : a.frame.counts.getD slot 0 = a.frame.ledger.counts.getD slot 0 := rfl
  rw [known]
  split
  · exact free_moves s
  · exact moves_pure PUnit.unit rfl

theorem release_moves (s : Schedule) :
    (release s c slot).Moves a (· = a.frame.ledger.released s c.config.collect slot) := by
  have counts : (onFrame fun x => { x with counts := x.counts.modify slot (· - 1) }).Moves a
      (· = a.frame.ledger.counted slot) := moves_onFrame rfl rfl
  unfold release
  refine counts.bind fun _ a' counted _ => ?_
  rw [Ledger.released, ← counted]
  exact settle_moves s

theorem releases_move (s : Schedule) (xs : List Site) : (xs.forM fun x => release s c x.slot).Moves a
    (· = xs.foldl (fun l x => l.released s c.config.collect x.slot) a.frame.ledger) := by
  induction xs generalizing a with
  | nil => exact moves_pure _ rfl
  | cons x xs ih =>
    rw [List.forM_eq_forM, List.forM_cons, List.foldl_cons]
    refine (release_moves s).bind fun _ a' released _ => ?_
    rw [← released]
    exact ih

end Release

/-- The shapes of the operands of a command, as far as they are known. -/
theorem shapes_meet {xs : List Site} : (xs.mapM fun x => Calling.shape x.var).Meets a (fun _ a' => a' = a)
    fun shapes a' => a' = a ∧ (xs.mapM fun x => a.frame.shapes[x.var]?.join) = some shapes := by
  induction xs with
  | nil => exact ⟨rfl, rfl⟩
  | cons x xs ih =>
    rw [List.mapM_cons, List.mapM_cons, meets_bind]
    unfold Calling.shape
    rw [meets_bind, meets_get]
    cases known : a.frame.shapes[x.var]?.join with
    | none => rfl
    | some shape =>
      rw [meets_pure, meets_bind]
      refine ih.post ?_
      rintro shapes a' ⟨rfl, rest⟩
      exact ⟨rfl, by simp [rest]⟩

/-- A command takes a buffer for its output and gives back what nobody reads any more. -/
theorem execute_moves (marked : cmd.Marked) (s : Schedule) : (execute s c cmd).Moves a (a.Executes s c cmd) := by
  rw [execute_eq]
  unfold partly
  simp only [bind_assoc]
  unfold Moves
  rw [meets_bind]
  refine shapes_meet.mono (fun _ _ same => by rw [same]) ?_
  rintro shapes a' ⟨rfl, known⟩
  rw [meets_bind, meets_lift]
  cases extents : cmd.op.resultShape shapes with
  | error e => rfl
  | ok shape =>
    simp only
    refine Moves.bind (perform_moves marked) fun _ a₁ performs _ => ?_
    refine Silent.bind (silent_onFrame fun _ => rfl) fun _ a₂ same₂ => ?_
    refine (releases_move s cmd.inputs).bind fun _ a₃ released _ => ?_
    refine (settle_moves s).mono fun l settled => ⟨shapes, shape, _, known, extents, performs, ?_⟩
    rw [settled, released, same₂, Ledger.finished]

section Begin

theorem bind_moves (x : Site) (t : Tensor) : (bind x t).Moves a (Ledger.Lends [x.slot] a.frame.ledger) := by
  unfold bind
  refine Moves.silently ((put_moves x.slot _).mono fun l put => ?_) fun _ => ?_
  · rw [put]
    exact Ledger.lends_put x.slot t.data
  · exact silent_onFrame fun _ => rfl

theorem binds_move {f : α → Calling PUnit} (slotOf : α → SlotId)
    (each : ∀ x a, (f x).Moves a (Ledger.Lends [slotOf x] a.frame.ledger)) (xs : List α) :
    (xs.forM f).Moves a (Ledger.Lends (xs.map slotOf) a.frame.ledger) := by
  induction xs generalizing a with
  | nil => exact moves_pure PUnit.unit (.refl _)
  | cons x xs ih =>
    rw [List.forM_eq_forM, List.forM_cons]
    refine (each x a).bind fun _ a' first _ => ?_
    exact ih.mono fun l rest => first.trans rest

/-- A call starts with the data of the caller in its slots, and all reads to come. -/
theorem begin_moves (s : Schedule) (inputs : List Tensor) : (begin s inputs).Moves a
    (Ledger.Lends (s.boundSlots inputs) { a.frame.ledger with counts := s.reads }) := by
  unfold begin Schedule.boundSlots
  refine (silent_enter _).bind fun _ a₁ same₁ => Silent.bind ?_ fun _ a₂ same₂ => ?_
  · exact silent_count fun _ => ⟨rfl, rfl, rfl⟩
  have opens : (onFrame fun x => { x with counts := s.reads, shapes := x.shapes.map fun _ => none }).Moves a₂
      (· = { a.frame.ledger with counts := s.reads }) := by
    refine moves_onFrame ?_ rfl
    rw [← same₁, ← same₂]
    rfl
  refine opens.bind fun _ a₃ same₃ _ => ?_
  refine (binds_move (fun e : Site × Tensor => e.1.slot) (fun e a => bind_moves e.1 e.2) _).bind
    fun _ a₄ first _ => ?_
  refine (binds_move (fun e : Site × Tensor => e.1.slot) (fun e a => bind_moves e.1 e.2) _).bind
    fun _ a₅ second _ => ?_
  refine (binds_move (fun e : Site × Cell => e.1.slot) (fun e a => ?_) _).mono fun l third => ?_
  · exact (silent_onMachine _).bind fun t a' same => same ▸ bind_moves e.1 t
  · rw [same₃] at first
    exact (first.trans second).trans third

end Begin

/-- Buffers are given up without fail. -/
theorem drop_sheds (s : Schedule) (p : Buffer → Bool) {fails : Error → Activation → Prop} :
    (drop s p).Meets a fails fun _ a' => Ledger.Sheds s p a.frame.ledger a'.frame.ledger := by
  -- The slots before the current one are done.
  unfold drop
  refine meets_forM (fun before _ a' => a'.frame.ledger.slots.size = a.frame.ledger.slots.size ∧
    (∀ x, a'.frame.ledger.buffer? x = if x ∈ before ∧ (a.frame.ledger.buffer? x).any p then none
      else a.frame.ledger.buffer? x) ∧
        { a'.frame.ledger with slots := a.frame.ledger.slots } = a.frame.ledger) _ ?_ ?_ ?_
  · exact ⟨rfl, fun x => by simp, rfl⟩
  · rintro before x after a₁ split ⟨size, buffers, rest⟩
    rw [meets_bind, meets_get]
    have fresh : x ∉ before := by
      have distinct : (List.range s.slotCount).Nodup := List.nodup_range
      rw [split] at distinct
      exact fun member => (List.nodup_append.mp distinct).2.2 x member x (by simp) rfl
    have here : a₁.frame.ledger.buffer? x = a.frame.ledger.buffer? x := by rw [buffers, if_neg fun held => fresh held.1]
    have known : a₁.frame.buffer? x = a₁.frame.ledger.buffer? x := rfl
    rw [known, here]
    by_cases goes : (a.frame.ledger.buffer? x).any p
    · rw [if_pos goes]
      have inside : x < a₁.frame.ledger.slots.size := by
        cases at_ : a.frame.ledger.buffer? x with
        | none => simp [at_] at goes
        | some b => exact Ledger.inside_of_buffer (here.trans at_)
      refine ⟨(Ledger.size_put (l := a₁.frame.ledger)).trans size, fun y => ?_, rest⟩
      have emptied : (a₁.frame.ledger.put x none).buffer? y = if y = x then none else a₁.frame.ledger.buffer? y :=
        Ledger.buffer?_put inside
      refine Eq.trans emptied ?_
      by_cases same : y = x
      · subst same
        simp [goes]
      · simp [same, buffers]
    · rw [if_neg goes]
      refine ⟨size, fun y => ?_, rest⟩
      by_cases same : y = x
      · subst same
        simp [goes, here]
      · simp [same, buffers]
  · rintro a' ⟨size, buffers, rest⟩
    have fields := Ledger.mk.inj rest
    exact ⟨size, by simpa using buffers, fields.2.1, fields.2.2.1, fields.2.2.2.1, fields.2.2.2.2⟩

section Results

theorem silent_toHost {b : Buffer} {shape : Shape} : (toHost c b shape).Silent := by
  have read : Silent (do onMachine ((← c.device b.location).materialize b shape) : Calling Tensor) :=
    silent_bind (silent_lift _) fun d => silent_onMachine _
  unfold toHost
  split
  · exact silent_bind silent_countSync fun _ => read
  · exact read

theorem silent_output {f : ExecutableId} {borrow : Bool} {call : Nat} (x : Site) :
    (output c f borrow call x).Silent := by
  refine silent_bind (silent_buffer x.slot) fun b => silent_bind (silent_shape x.var) fun shape => ?_
  refine silent_ite ?_ ?_
  · exact silent_bind (silent_lift _) fun d => silent_pure _
  · exact silent_bind silent_toHost fun t => silent_pure _

theorem silent_newValues (s : Schedule) : (newValues s c).Silent := by
  refine silent_mapM fun u => silent_bind (silent_buffer u.2.slot) fun _ => ?_
  exact silent_bind (silent_shape u.2.var) fun _ => silent_bind silent_toHost fun _ => silent_pure _

theorem silent_answer {f : ExecutableId} {borrow : Bool} {call : Nat} (s : Schedule) :
    (answer s c f borrow call).Silent := by
  have results : Silent (do
      let outputs ← s.outputs.mapM (output c f borrow call)
      let values ← newValues s c
      return (outputs, values)) :=
    silent_bind (silent_mapM silent_output) fun _ => silent_bind (silent_newValues s) fun _ => silent_pure _
  unfold answer
  split
  · exact silent_bind (silent_enter .syncing) fun _ => results
  · exact results

end Results

theorem dropBorrowed_moves (s : Schedule) : (dropBorrowed s).Moves a
    (a.frame.ledger.Sheds s fun b => !b.isOwned) :=
  (drop_sheds s _).post fun _ _ sheds => ⟨sheds, sheds.size⟩

/-- The data of the caller is given up last. -/
theorem commit_moves (s : Schedule) (results : List Output × List (Cell × Tensor)) : (commit s results).Moves a
    (a.frame.ledger.Sheds s fun b => !b.isOwned) := by
  unfold commit
  refine (silent_forM fun v => silent_onMachine _).bind fun _ a₁ same₁ => ?_
  refine (silent_machine _).bind fun _ a₂ same₂ => ?_
  refine Moves.silently ?_ fun _ => silent_bind (silent_enter _) fun _ => silent_pure _
  rw [← same₁, ← same₂]
  exact dropBorrowed_moves s

/-- Whatever comes of the devices, a call that failed leaves its slots empty. -/
theorem recover_empties (s : Schedule) (e : Error) {fails : Error → Activation → Prop}
    (size : a.frame.slots.size = s.slotCount) : (recover s c e).Meets a fails fun _ a' =>
      a.frame.ledger.Emptied s a'.frame.ledger := by
  unfold recover reset
  rw [meets_bind, meets_bind]
  refine (drop_sheds s _).post ?_
  rintro _ a₁ sheds
  have vacant : ∀ x, a₁.frame.ledger.buffer? x = none := by
    intro x
    rw [sheds.buffers x]
    cases at_ : a.frame.ledger.buffer? x with
    | none => simp
    | some b =>
      have inside : x < s.slotCount := size ▸ Ledger.inside_of_buffer at_
      simp [inside]
  have emptied : a.frame.ledger.Emptied s { a₁.frame.ledger with counts := s.reads } :=
    ⟨sheds.size.trans size, vacant, rfl, sheds.tally⟩
  unfold onFrame onMachine
  rw [meets_modify, meets_bind, meets_attempt, meets_onPart]
  refine (c.synchronize.meets_start a₁.machine).mono (fun d m _ => ?_) fun _ m _ => ?_
  all_goals
    simp only
    split
    · exact emptied
    · exact emptied

end Calling

end TensorGraph
