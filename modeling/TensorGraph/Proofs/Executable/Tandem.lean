import TensorGraph.Proofs.Executable.Occupancy

/-! Two ledgers of one schedule side by side, the first one with collection on and the second one with collection off.
Whatever the first one has in a slot, the second one has there too, with room for at least as much; so whenever the
first one uses a buffer again, so does the second one. -/
namespace TensorGraph

namespace Ledger

variable {l l' l₁ l₁' : Ledger} {s : Schedule} {slot x : SlotId} {pair : Key → Key → Prop} {cmd : Command}

/-- A block is in one slot at most. -/
def Apart (l : Ledger) : Prop :=
  ∀ x y k, Buffer.isIn k (l.buffer? x) = true → Buffer.isIn k (l.buffer? y) = true → x = y

/-- What is in a slot with collection on, and what is there with collection off. -/
inductive Beside (pinned : Prop) (pair : Key → Key → Prop) : Option Buffer → Option Buffer → Prop where
  | vacant : Beside pinned pair none none
  | left {r' : BlockRef} (unpinned : ¬ pinned) : Beside pinned pair none (some (.owned r'))
  | lent {data data' : Data} : Beside pinned pair (some (.borrowed data)) (some (.borrowed data'))
  | owned {r r' : BlockRef} (kind : r'.kind = r.kind) (room : r.capacity ≤ r'.capacity) (paired : pair r.key r'.key) :
    Beside pinned pair (some (.owned r)) (some (.owned r'))

/-- The ledgers of two executables to which the same was done, the first one with collection on and the second one with
collection off. -/
structure Tandem (l l' : Ledger) (s : Schedule) (pair : Key → Key → Prop) : Prop where
  size : l.slots.size = s.slotCount
  size' : l'.slots.size = s.slotCount
  counts : l.counts = l'.counts
  slots : ∀ x, Beside (s.pinned.getD x false = true) pair (l.buffer? x) (l'.buffer? x)
  roomy : ∀ {x : SlotId} {r : BlockRef}, l'.buffer? x = some (.owned r) → 1 ≤ r.capacity
  apart : l.Apart
  apart' : l'.Apart
  acquired : l.allocations + l.reuses = l'.allocations + l'.reuses
  fewer : l'.allocations ≤ l.allocations
  unreleased : l'.releases = 0

theorem Beside.mono {pinned : Prop} {pair' : Key → Key → Prop} {b b' : Option Buffer}
    (beside : Beside pinned pair b b')
    (weaker : ∀ r r', b = some (.owned r) → b' = some (.owned r') → pair r.key r'.key → pair' r.key r'.key) :
    Beside pinned pair' b b' := by
  cases beside with
  | vacant => exact .vacant
  | left unpinned => exact .left unpinned
  | lent => exact .lent
  | owned kind room paired => exact .owned kind room (weaker _ _ rfl rfl paired)

/-- Where fewer blocks are, none is in two slots. -/
theorem Apart.shrink (apart : l.Apart)
    (fewer : ∀ {x : SlotId} {r : BlockRef}, l₁.buffer? x = some (.owned r) → l.buffer? x = some (.owned r)) :
    l₁.Apart := by
  have old {x : SlotId} {k : Key} (isIn : Buffer.isIn k (l₁.buffer? x) = true) :
      Buffer.isIn k (l.buffer? x) = true := by
    cases at_ : l₁.buffer? x with
    | none =>
      rw [at_] at isIn
      cases isIn
    | some b =>
      cases b with
      | owned r => rwa [at_, ← fewer at_] at isIn
      | borrowed data =>
        rw [at_] at isIn
        cases isIn
  exact fun x y k isIn isIn' => apart x y k (old isIn) (old isIn')

/-- A new block is in the slot that it was made for. -/
theorem Apart.put (apart : l.Apart) (inside : slot < l.slots.size) {r : BlockRef}
    (absent : ∀ x, Buffer.isIn r.key (l.buffer? x) = false) : (l.put slot (some (.owned r))).Apart := by
  have known {x : SlotId} {k : Key} (isIn : Buffer.isIn k ((l.put slot (some (.owned r))).buffer? x) = true) :
      x = slot ∧ k = r.key ∨ x ≠ slot ∧ k ≠ r.key ∧ Buffer.isIn k (l.buffer? x) = true := by
    rw [buffer?_put inside] at isIn
    by_cases same : x = slot
    · rw [if_pos same] at isIn
      exact .inl ⟨same, (by simpa [Buffer.isIn] using isIn : r.key = k).symm⟩
    · rw [if_neg same] at isIn
      refine .inr ⟨same, ?_, isIn⟩
      rintro rfl
      cases (absent x).symm.trans isIn
  intro x y k isIn isIn'
  rcases known isIn with ⟨rfl, rfl⟩ | ⟨-, differs, old⟩
  · rcases known isIn' with ⟨rfl, -⟩ | ⟨-, differs, -⟩
    · rfl
    · exact absurd rfl differs
  · rcases known isIn' with ⟨-, same⟩ | ⟨-, -, old'⟩
    · exact absurd same differs
    · exact apart x y k old old'

theorem Apart.takes {m : Machine} {kind : Kind} {n : Nat} {again : Prop} (apart : l.Apart)
    (inside : slot < l.slots.size) (taken : l.Takes m slot kind n again l₁)
    (absent : ∀ r : BlockRef, r.Beyond m → ∀ x, Buffer.isIn r.key (l.buffer? x) = false) : l₁.Apart := by
  cases taken with
  | reused held there => exact apart
  | @allocated r refused kindOf room beyond => exact apart.put inside (absent r beyond)

/-- What is left in a slot that is not pinned and was given up. -/
theorem freed_at {collect : Bool} (unpinned : ¬ s.pinned.getD slot false = true) :
    (l.freed s collect slot).buffer? slot =
      match l.buffer? slot with
      | some (.owned r) => if collect then none else some (.owned r)
      | _ => none := by
  unfold freed
  rw [if_neg unpinned]
  cases at_ : l.buffer? slot with
  | none => exact at_
  | some b =>
    cases b with
    | borrowed data => exact (buffer?_put (inside_of_buffer at_)).trans (if_pos rfl)
    | owned r =>
      cases collect with
      | true => exact (buffer?_put (inside_of_buffer at_)).trans (if_pos rfl)
      | false => exact at_

theorem tally_freed {collect : Bool} : (l.freed s collect slot).allocations = l.allocations ∧
    (l.freed s collect slot).reuses = l.reuses := by
  unfold freed
  split
  · exact ⟨rfl, rfl⟩
  · split
    · exact ⟨rfl, rfl⟩
    · exact ⟨rfl, rfl⟩
    · split <;> exact ⟨rfl, rfl⟩

theorem unreleased_freed : (l.freed s false slot).releases = l.releases := by
  unfold freed
  split
  · rfl
  · split <;> rfl

theorem buffer?_outside (outside : ¬ x < l.slots.size) : l.buffer? x = none := by
  unfold buffer?
  rw [Array.getElem?_eq_none (Nat.le_of_not_lt outside)]
  rfl

/-- What is not data of the caller was there before. -/
theorem Lends.old {bound : List SlotId} (lends : Lends bound l l₁) {r : BlockRef}
    (at_ : l₁.buffer? x = some (.owned r)) : l.buffer? x = some (.owned r) := by
  by_cases member : x ∈ bound
  · obtain ⟨data, lent⟩ := lends.lent x member (lends.size ▸ inside_of_buffer at_)
    cases lent.symm.trans at_
  · exact (lends.others x member).symm.trans at_

theorem Sheds.old {p : Buffer → Bool} (sheds : l.Sheds s p l₁) {b : Buffer} (at_ : l₁.buffer? x = some b) :
    l.buffer? x = some b := by
  rw [sheds.buffers] at at_
  split at at_
  · cases at_
  · exact at_

namespace Tandem

/-- Something was done to one slot. -/
theorem slots_of (tandem : Tandem l l' s pair) (others : ∀ x, x ≠ slot → l₁.buffer? x = l.buffer? x)
    (others' : ∀ x, x ≠ slot → l₁'.buffer? x = l'.buffer? x)
    (here : Beside (s.pinned.getD slot false = true) pair (l₁.buffer? slot) (l₁'.buffer? slot)) (x : SlotId) :
    Beside (s.pinned.getD x false = true) pair (l₁.buffer? x) (l₁'.buffer? x) := by
  by_cases same : x = slot
  · exact same ▸ here
  · rw [others x same, others' x same]
    exact tandem.slots x

section Takes

variable {m m' : Machine} {kind : Kind} {n : Nat} {again again' : Prop} {ext ext' : Key → Nat}

/-- A command takes a buffer in both. If the first one is used again, so is the second one. -/
theorem takes (tandem : Tandem l l' s pair) (inside : slot < s.slotCount) (taken : l.Takes m slot kind n again l₁)
    (taken' : l'.Takes m' slot kind n again' l₁') (eager : again → again')
    (fits : again' → ∀ r, l'.buffer? slot = some (.owned r) → r.kind = kind ∧ n ≤ r.capacity ∧ ext' r.key = 0)
    (new : ∀ r : BlockRef, r.Beyond m → ext r.key = 0 ∧ ∀ x, Buffer.isIn r.key (l.buffer? x) = false)
    (new' : ∀ r : BlockRef, r.Beyond m' → ext' r.key = 0 ∧ ∀ x, Buffer.isIn r.key (l'.buffer? x) = false)
    (free : ∀ {k k' : Key}, ext k = 0 → ext' k' = 0 → pair k k') : Tandem l₁ l₁' s pair := by
  have inL : slot < l.slots.size := tandem.size ▸ inside
  have inL' : slot < l'.slots.size := tandem.size' ▸ inside
  -- The buffers in the slot afterwards, and how they were counted.
  obtain ⟨b, b', at_, at_', beside, least, acquired, fewer, unreleased⟩ : ∃ b b', l₁.buffer? slot = b ∧
      l₁'.buffer? slot = b' ∧ Beside (s.pinned.getD slot false = true) pair b b' ∧
      (∀ r, b' = some (.owned r) → 1 ≤ r.capacity) ∧
      l₁.allocations + l₁.reuses = l₁'.allocations + l₁'.reuses ∧ l₁'.allocations ≤ l₁.allocations ∧
      l₁'.releases = 0 := by
    have acquired := tandem.acquired
    have fewer := tandem.fewer
    cases taken with
    | @reused r held there =>
      cases taken' with
      | @reused r' held' there' =>
        refine ⟨_, _, rfl, rfl, tandem.slots slot, fun r => tandem.roomy, ?_, fewer, tandem.unreleased⟩
        simp only
        omega
      | allocated refused => exact absurd (eager held) refused
    | @allocated r refused kindOf room beyond =>
      obtain ⟨alone, -⟩ := new r beyond
      cases taken' with
      | @reused r' held' there' =>
        obtain ⟨kind', room', alone'⟩ := fits held' r' there'
        have least := tandem.roomy there'
        refine ⟨some (.owned r), some (.owned r'), (buffer?_put inL).trans (if_pos rfl), there',
          .owned (kind'.trans kindOf.symm) ?_ (free alone alone'), ?_, ?_, ?_, tandem.unreleased⟩
        · omega
        · rintro _ ⟨⟩
          exact least
        · simp only [Ledger.put]
          omega
        · simp only
          omega
      | @allocated r' refused' kindOf' room' beyond' =>
        obtain ⟨alone', -⟩ := new' r' beyond'
        refine ⟨some (.owned r), some (.owned r'), (buffer?_put inL).trans (if_pos rfl),
          (buffer?_put inL').trans (if_pos rfl), .owned (kindOf'.trans kindOf.symm) ?_ (free alone alone'), ?_, ?_, ?_,
          tandem.unreleased⟩
        · omega
        · rintro _ ⟨⟩
          omega
        · simp only [Ledger.put]
          omega
        · simp only
          omega
  obtain ⟨size, counts⟩ := taken.same
  obtain ⟨size', counts'⟩ := taken'.same
  refine ⟨size.trans tandem.size, size'.trans tandem.size', counts.trans (tandem.counts.trans counts'.symm),
    tandem.slots_of (fun _ => taken.other) (fun _ => taken'.other) (at_ ▸ at_' ▸ beside), fun {x r} atX => ?_,
    tandem.apart.takes inL taken fun r beyond => (new r beyond).2,
    tandem.apart'.takes inL' taken' fun r beyond => (new' r beyond).2, acquired, fewer, unreleased⟩
  by_cases same : x = slot
  · subst same
    exact least r (at_'.symm.trans atX)
  · exact tandem.roomy ((taken'.other same).symm.trans atX)

end Takes

/-- Buffers are given up in both, and none is counted that was taken. -/
theorem shrink (tandem : Tandem l l' s pair) (size : l₁.slots.size = l.slots.size)
    (size' : l₁'.slots.size = l'.slots.size) (counts : l₁.counts = l₁'.counts)
    (slots : ∀ x, Beside (s.pinned.getD x false = true) pair (l₁.buffer? x) (l₁'.buffer? x))
    (old : ∀ {x : SlotId} {r : BlockRef}, l₁.buffer? x = some (.owned r) → l.buffer? x = some (.owned r))
    (old' : ∀ {x : SlotId} {r : BlockRef}, l₁'.buffer? x = some (.owned r) → l'.buffer? x = some (.owned r))
    (tally : l₁.allocations = l.allocations ∧ l₁.reuses = l.reuses)
    (tally' : l₁'.allocations = l'.allocations ∧ l₁'.reuses = l'.reuses ∧ l₁'.releases = l'.releases) :
    Tandem l₁ l₁' s pair where
  size := size.trans tandem.size
  size' := size'.trans tandem.size'
  counts := counts
  slots := slots
  roomy at_ := tandem.roomy (old' at_)
  apart := tandem.apart.shrink old
  apart' := tandem.apart'.shrink old'
  acquired := by
    rw [tally.1, tally.2, tally'.1, tally'.2.1]
    exact tandem.acquired
  fewer := by
    rw [tally.1, tally'.1]
    exact tandem.fewer
  unreleased := tally'.2.2.trans tandem.unreleased

/-- With collection on a slot is given up, and with collection off it keeps its buffer. -/
theorem freed (tandem : Tandem l l' s pair) : Tandem (l.freed s true slot) (l'.freed s false slot) s pair := by
  refine tandem.shrink size_freed size_freed ?_ (tandem.slots_of (fun _ => freed_other) (fun _ => freed_other) ?_)
    of_freed of_freed tally_freed ⟨tally_freed.1, tally_freed.2, unreleased_freed⟩
  · rw [counts_freed, counts_freed]
    exact tandem.counts
  have here := tandem.slots slot
  by_cases pinned : s.pinned.getD slot false = true
  · rw [Ledger.freed, if_pos pinned, Ledger.freed, if_pos pinned]
    exact here
  rw [freed_at pinned, freed_at pinned]
  revert here
  generalize l.buffer? slot = b, l'.buffer? slot = b'
  intro here
  cases here with
  | vacant => exact .vacant
  | left => exact .left pinned
  | lent => exact .vacant
  | owned => exact .left pinned

theorem settled (tandem : Tandem l l' s pair) : Tandem (l.settled s true slot) (l'.settled s false slot) s pair := by
  unfold Ledger.settled
  rw [tandem.counts]
  split
  · exact tandem.freed
  · exact tandem

theorem released (tandem : Tandem l l' s pair) :
    Tandem (l.released s true slot) (l'.released s false slot) s pair := by
  have counted : Tandem (l.counted slot) (l'.counted slot) s pair :=
    { tandem with counts := congrArg (fun counts : Array Nat => counts.modify slot (· - 1)) tandem.counts }
  exact counted.settled

/-- A command is over in both. -/
theorem finished (tandem : Tandem l l' s pair) (cmd : Command) :
    Tandem (l.finished s true cmd) (l'.finished s false cmd) s pair := by
  have released : ∀ (xs : List Site) (l l' : Ledger), Tandem l l' s pair →
      Tandem (xs.foldl (fun l x => l.released s true x.slot) l) (xs.foldl (fun l x => l.released s false x.slot) l') s
        pair := by
    intro xs
    induction xs with
    | nil => exact fun _ _ held => held
    | cons x xs ih => exact fun l l' held => ih _ _ held.released
  exact (released _ _ _ tandem).settled

/-- Data of the caller goes into the same slots of both. -/
theorem lends (tandem : Tandem l l' s pair) {bound : List SlotId} (lent : Lends bound { l with counts := s.reads } l₁)
    (lent' : Lends bound { l' with counts := s.reads } l₁') : Tandem l₁ l₁' s pair := by
  refine tandem.shrink lent.size lent'.size (lent.counts.trans lent'.counts.symm) (fun x => ?_) lent.old lent'.old
    ⟨lent.tally.1, lent.tally.2.1⟩ lent'.tally
  by_cases member : x ∈ bound
  · by_cases inside : x < s.slotCount
    · obtain ⟨data, at_⟩ := lent.lent x member (tandem.size.symm ▸ inside)
      obtain ⟨data', at_'⟩ := lent'.lent x member (tandem.size'.symm ▸ inside)
      rw [at_, at_']
      exact .lent
    · rw [buffer?_outside (lent.size.trans tandem.size ▸ inside),
        buffer?_outside (lent'.size.trans tandem.size' ▸ inside)]
      exact .vacant
  · rw [lent.others x member, lent'.others x member]
    exact tandem.slots x

/-- The data of the caller is given up in both. -/
theorem sheds (tandem : Tandem l l' s pair) (sheds : l.Sheds s (fun b => !b.isOwned) l₁)
    (sheds' : l'.Sheds s (fun b => !b.isOwned) l₁') : Tandem l₁ l₁' s pair := by
  refine tandem.shrink sheds.size sheds'.size ?_ (fun x => ?_) sheds.old sheds'.old ⟨sheds.tally.1, sheds.tally.2.1⟩
    sheds'.tally
  · rw [sheds.counts, sheds'.counts]
    exact tandem.counts
  have here := tandem.slots x
  rw [sheds.buffers, sheds'.buffers]
  by_cases inside : x < s.slotCount
  · simp only [inside, true_and]
    revert here
    generalize l.buffer? x = b, l'.buffer? x = b'
    intro here
    cases here with
    | vacant => exact .vacant
    | left unpinned => exact .left unpinned
    | lent => exact .vacant
    | owned kind room paired => exact .owned kind room paired
  · simp only [inside, false_and, ↓reduceIte]
    exact here

/-- Whoever else holds the blocks in the slots does not matter for what was counted. -/
theorem repair (tandem : Tandem l l' s pair) {pair' : Key → Key → Prop}
    (weaker : ∀ {x : SlotId} {r r' : BlockRef}, l.buffer? x = some (.owned r) → l'.buffer? x = some (.owned r') →
      pair r.key r'.key → pair' r.key r'.key) : Tandem l l' s pair' :=
  { tandem with slots := fun x => (tandem.slots x).mono fun _ _ => weaker }

end Tandem

/-- Two ledgers without buffers. -/
theorem tandem_of_empty (size : l.slots.size = s.slotCount) (size' : l'.slots.size = s.slotCount)
    (counts : l.counts = l'.counts) (empty : ∀ x, l.buffer? x = none) (empty' : ∀ x, l'.buffer? x = none)
    (acquired : l.allocations + l.reuses = l'.allocations + l'.reuses) (fewer : l'.allocations ≤ l.allocations)
    (unreleased : l'.releases = 0) : Tandem l l' s pair := by
  have apart {l : Ledger} (empty : ∀ x, l.buffer? x = none) : l.Apart := fun x _ k isIn => by
    rw [empty x] at isIn
    cases isIn
  refine ⟨size, size', counts, fun x => ?_, fun {x r} at_ => ?_, apart empty, apart empty', acquired, fewer, unreleased⟩
  · rw [empty x, empty' x]
    exact .vacant
  · cases (empty' x).symm.trans at_

end Ledger

namespace Frame

variable {f : Frame} {slot : SlotId} {k : Key}

theorem refs_eq_zero_of (absent : ∀ x, Buffer.isIn k (f.buffer? x) = false) : f.refs k = 0 := by
  unfold refs
  rw [Array.countP_eq_zero]
  intro b member isIn
  obtain ⟨x, inside, rfl⟩ := Array.mem_iff_getElem.mp member
  have here := absent x
  rw [buffer?, Array.getElem?_eq_getElem inside, Option.join_some] at here
  cases here.symm.trans isIn

/-- A block that is in one slot at most is counted once where it is. -/
theorem refs_eq_one (apart : f.ledger.Apart) {r : BlockRef} (at_ : f.buffer? slot = some (.owned r)) :
    f.refs r.key = 1 := by
  have isIn : Buffer.isIn r.key (f.buffer? slot) = true := by simp [at_, Buffer.isIn]
  have inside := inside_of_buffer at_
  have emptied := refs_set (f := f) (b := none) (k := r.key) inside
  rw [refs_eq_zero_of fun x => ?_, Buffer.hold, if_pos isIn] at emptied
  · exact emptied.symm
  rw [buffer?_set inside]
  by_cases same : x = slot
  · rw [if_pos same]
    rfl
  · rw [if_neg same]
    exact Bool.eq_false_iff.mpr fun also => same (apart x slot r.key also isIn)

end Frame

namespace Activation

variable {a a' : Activation} {c c' : Context} {ext ext' : Key → Nat} {cmd : Command} {n : Nat}

/-- Nobody holds a block that has no number yet. -/
theorem Tidy.beyond (tidy : a.Tidy c ext) {r : BlockRef} (beyond : r.Beyond a.machine) :
    ext r.key = 0 ∧ ∀ x, Buffer.isIn r.key (a.frame.buffer? x) = false := by
  have unheld : a.machine.held r.key = 0 := by
    have none : (a.machine.memory r.device).get? r.id = none := by
      cases at_ : (a.machine.memory r.device).get? r.id with
      | none => rfl
      | some block => exact absurd (Memory.lt_of_get? at_) (Nat.not_lt.mpr beyond)
    rw [← Machine.holders_eq, Machine.holders, Memory.holders, none]
  have holders := tidy.held r.key
  refine ⟨by omega, fun x => Bool.eq_false_iff.mpr fun isIn => ?_⟩
  have positive := Frame.refs_pos isIn
  omega

/-- A command uses the buffer in its slot again exactly if that is where and as large as the new value needs it, and
nobody else holds it. -/
theorem reuses_iff (tidy : a.Tidy c ext) (apart : a.frame.ledger.Apart) : a.Reuses c cmd n ↔
    ∃ d r, c.device cmd.location = .ok d ∧ a.frame.buffer? cmd.output.slot = some (.owned r) ∧
      r.device.location = d.location ∧ r.kind = cmd.kind ∧ n ≤ r.capacity ∧ ext r.key = 0 := by
  have counted {r : BlockRef} (at_ : a.frame.buffer? cmd.output.slot = some (.owned r)) :
      a.machine.held r.key = 1 + ext r.key ∧ (a.machine.retain (.owned r)).held r.key = 2 + ext r.key := by
    have holders := tidy.held r.key
    rw [Frame.refs_eq_one apart at_] at holders
    obtain ⟨owns, backs⟩ := tidy.owned at_
    have retained := (Machine.retained_spec (m := a.machine) (b := .owned r) fun r' same => by
      cases same
      exact ⟨tidy.has _ owns, backs⟩).2.1 r.key
    have one : Buffer.hold (some (.owned r)) r.key = 1 := by simp [Buffer.hold, Buffer.isIn]
    omega
  unfold Reuses
  constructor
  · rintro ⟨d, b, device, at_, usable⟩
    cases mark : cmd.inPlace with
    | none =>
      rw [mark] at usable
      obtain ⟨r, rfl, location, kind, room, held⟩ := Calling.reusable_iff.mp usable
      obtain ⟨once, -⟩ := counted at_
      exact ⟨d, r, device, at_, location, kind, room, by omega⟩
    | some i =>
      rw [mark] at usable
      obtain ⟨r, rfl, location, kind, room, held⟩ := Calling.reusable_iff.mp usable
      obtain ⟨-, twice⟩ := counted at_
      exact ⟨d, r, device, at_, location, kind, room, by omega⟩
  · rintro ⟨d, r, device, at_, location, kind, room, alone⟩
    obtain ⟨once, twice⟩ := counted at_
    refine ⟨d, .owned r, device, at_, ?_⟩
    cases cmd.inPlace with
    | none => exact Calling.reusable_iff.mpr ⟨r, rfl, location, kind, room, by omega⟩
    | some i => exact Calling.reusable_iff.mpr ⟨r, rfl, location, kind, room, by omega⟩

end Activation

/-- On the host there is one device. -/
theorem Context.Owns.of_host {c : Context} (host : c.accelerator = none) {d : Device} (owns : c.Owns d) :
    d = .host := by
  rcases owns with rfl | found
  · rfl
  · cases host.symm.trans found

namespace Ledger.Tandem

variable {a a' : Activation} {c c' : Context} {ext ext' : Key → Nat} {cmd : Command} {s : Schedule} {l l' : Ledger}
  {pair : Key → Key → Prop} {n : Nat}

section Host

variable (tandem : Tandem a.frame.ledger a'.frame.ledger s pair) (tidy : a.Tidy c ext) (tidy' : a'.Tidy c' ext')
  (host : c.accelerator = none) (host' : c'.accelerator = none) (level : ∀ {k k' : Key}, pair k k' → ext k = ext' k')

include tandem tidy tidy' host host' level

/-- What is used again with collection on is used again with collection off. -/
theorem reuses (again : a.Reuses c cmd n) : a'.Reuses c' cmd n := by
  obtain ⟨d, r, device, at_, -, kind, room, alone⟩ := (Activation.reuses_iff tidy tandem.apart).mp again
  have here := tandem.slots cmd.output.slot
  rw [show a.frame.ledger.buffer? cmd.output.slot = _ from at_] at here
  revert here
  generalize found : a'.frame.ledger.buffer? cmd.output.slot = b'
  intro here
  cases here with
  | @owned _ r' kind' room' paired =>
    have same := level paired
    have home := (tidy'.owned found).1.of_host host'
    have onHost : cmd.location = .host := by
      obtain ⟨owns, location⟩ := Context.device_eq_ok device
      rw [owns.of_host host] at location
      exact location.symm
    refine (Activation.reuses_iff tidy' tandem.apart').mpr
      ⟨.host, r', ?_, found, by rw [home], kind'.trans kind, ?_, ?_⟩
    · rw [onHost]
      rfl
    · omega
    · omega

/-- The output of a command has a buffer in both. -/
theorem performs (inside : cmd.output.slot < s.slotCount)
    (kept : cmd.isKept → s.pinned.getD cmd.output.slot false = true)
    (free : ∀ {k k' : Key}, ext k = 0 → ext' k' = 0 → pair k k') (ran : a.Performs c cmd n l)
    (ran' : a'.Performs c' cmd n l') : Tandem l l' s pair := by
  have there : cmd.isKept → ((a.frame.buffer? cmd.output.slot).isSome ↔ (a'.frame.buffer? cmd.output.slot).isSome) := by
    intro isKept
    have here := tandem.slots cmd.output.slot
    have pinned := kept isKept
    have same : a.frame.ledger.buffer? = a.frame.buffer? ∧ a'.frame.ledger.buffer? = a'.frame.buffer? := ⟨rfl, rfl⟩
    rw [same.1, same.2] at here
    revert here
    generalize a.frame.buffer? cmd.output.slot = b, a'.frame.buffer? cmd.output.slot = b'
    intro here
    cases here with
    | left unpinned => exact absurd pinned unpinned
    | _ => simp
  cases ran with
  | present isKept found =>
    cases ran' with
    | present => exact tandem
    | takes missing' => exact absurd ⟨isKept, (there isKept).mp found⟩ missing'
  | takes missing taken =>
    cases ran' with
    | present isKept found' => exact absurd ⟨isKept, (there isKept).mpr found'⟩ missing
    | takes missing' taken' =>
      refine tandem.takes inside taken taken' (tandem.reuses tidy tidy' host host' level) (fun again r at_ => ?_)
        (fun r => tidy.beyond) (fun r => tidy'.beyond) free
      obtain ⟨d, r', -, at_', -, kind, room, alone⟩ := (Activation.reuses_iff tidy' tandem.apart').mp again
      obtain rfl : r = r' := Buffer.owned.inj (Option.some.inj (at_.symm.trans at_'))
      exact ⟨kind, room, alone⟩

/-- A command runs in both, on operands of the same shapes. -/
theorem executes (on : c.config.collect = true) (off : c'.config.collect = false)
    (inside : cmd.output.slot < s.slotCount) (kept : cmd.isKept → s.pinned.getD cmd.output.slot false = true)
    (free : ∀ {k k' : Key}, ext k = 0 → ext' k' = 0 → pair k k')
    (shapes : ∀ x ∈ cmd.inputs, a.frame.shapes[x.var]?.join = a'.frame.shapes[x.var]?.join)
    (ran : a.Executes s c cmd l) (ran' : a'.Executes s c' cmd l') : Tandem l l' s pair := by
  obtain ⟨known, shape, l₁, found, extents, performs, rfl⟩ := ran
  obtain ⟨known', shape', l₁', found', extents', performs', rfl⟩ := ran'
  rw [Checked.mapM_congr shapes] at found
  obtain rfl : known = known' := Option.some.inj (found.symm.trans found')
  obtain rfl : shape = shape' := Except.ok.inj (extents.symm.trans extents')
  rw [on, off]
  exact (tandem.performs tidy tidy' host host' level inside kept free performs performs').finished cmd

end Host

end Ledger.Tandem

end TensorGraph
