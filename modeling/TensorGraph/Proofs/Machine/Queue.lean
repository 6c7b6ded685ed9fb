import Mathlib.Logic.Relation
import TensorGraph.Proofs.Machine.Accelerator

/-! Launches that run some time after they were dispatched. A device may run them in any order in which every launch
comes after those that it was recorded to wait for. While none fails, what it forgets of a block is over: of two
launches that conflict, the later one waits for the earlier one, if that had not finished. A launch that fails ends
with the first failure that it waits for, when others may still be on their way, and what waited for it no longer
waits for those. -/
namespace TensorGraph

open Relation

namespace Launch

/-- The launch reads or writes the block. -/
def Touches (l : Launch BlockId) (b : BlockId) : Prop := b = l.output ∨ b ∈ l.inputs.map Prod.fst

/-- Both launches touch a block that one of them writes. -/
def Conflicts (l l' : Launch BlockId) : Prop := ∃ b, l.Touches b ∧ l'.Touches b ∧ (b = l.output ∨ b = l'.output)

end Launch

/-- How far a launch has come. -/
inductive Queue.Status where
  | waiting
  | succeeded
  | failed
  deriving DecidableEq

/-- A launch that was dispatched. -/
structure Queue.Entry where
  launch : Launch BlockId
  /-- The launches that it was recorded to wait for. -/
  deps : List LaunchId
  /-- The launches that had finished when it was dispatched. -/
  seen : LaunchId → Bool
  status : Queue.Status

/-- A device whose launches are on their way. -/
structure Queue where
  memory : Memory := {}
  hazards : Tracker := {}
  /-- The launches in the order in which they were dispatched. -/
  entries : List Queue.Entry := []

/-- What a device is asked to do. -/
inductive Event where
  | alloc (kind : Kind) (n : Nat)
  | upload (source : Data) (n : Nat) (b : BlockId)
  | launch (l : Launch BlockId)

/-- The new contents of the output of a launch, on this memory. -/
def Memory.compute (m : Memory) (l : Launch BlockId) : Except Error Data :=
  Accelerator.compute { ordinal := 0, memory := m } l

namespace Queue

/-- Whether a launch has finished, well or not. -/
def isDone (q : Queue) (l : LaunchId) : Bool := q.entries[l]?.any fun e => e.status ≠ .waiting

/-- How far a launch has come, if it was dispatched. -/
def status? (q : Queue) (l : LaunchId) : Option Status := q.entries[l]?.map Entry.status

/-- Dispatches a launch. It runs later. -/
def dispatch (q : Queue) (l : Launch BlockId) : Queue :=
  let (hazards, deps) := q.hazards.track q.isDone q.entries.length (l.inputs.map Prod.fst) l.output
  { q with hazards, entries := q.entries ++ [⟨l, deps, q.isDone, .waiting⟩] }

/-- An entry that may run now: all that it waits for has succeeded. -/
structure Ready (q : Queue) (front : List Entry) (e : Entry) (back : List Entry) : Prop where
  whole : q.entries = front ++ e :: back
  waiting : e.status = .waiting
  deps : ∀ d ∈ e.deps, q.status? d = some .succeeded

/-- An entry that ends without running: one that it waits for has failed, and those before that one have succeeded. -/
structure Quits (q : Queue) (front : List Entry) (e : Entry) (back : List Entry) : Prop where
  whole : q.entries = front ++ e :: back
  waiting : e.status = .waiting
  cause : ∃ before d after, e.deps = before ++ d :: after ∧ (∀ x ∈ before, q.status? x = some .succeeded) ∧
    q.status? d = some .failed

/-- What a device may have come to on some events. Launches run in any order that their dependencies allow and may fail
for any reason; an upload waits for all launches that are recorded for its block. -/
inductive Runs : List Event → Queue → Prop where
  | start : Runs [] {}
  | alloc {es : List Event} {q : Queue} (runs : Runs es q) (kind : Kind) {n : Nat} (room : n < Shape.capacity) :
      Runs (es ++ [.alloc kind n]) { q with memory := q.memory.alloc kind n }
  | upload {es : List Event} {q : Queue} {source data : Data} {n : Nat} {b : BlockId} {block : Block}
      (runs : Runs es q) (settled : ∀ l ∈ (q.hazards.get b).pending, q.isDone l)
      (at_ : q.memory.get? b = some block) (copied : block.data.copyFrom source n = .ok data) :
      Runs (es ++ [.upload source n b]) { q with memory := q.memory.write b data, hazards := q.hazards.clear b }
  | launch {es : List Event} {q : Queue} {l : Launch BlockId} (runs : Runs es q)
      (known : ∀ b, l.Touches b → (q.memory.get? b).isSome) : Runs (es ++ [.launch l]) (q.dispatch l)
  | succeed {es : List Event} {q : Queue} {front back : List Entry} {e : Entry} {data : Data} (runs : Runs es q)
      (ready : q.Ready front e back) (computed : q.memory.compute e.launch = .ok data) :
      Runs es { q with
        memory := q.memory.write e.launch.output data, entries := front ++ { e with status := .succeeded } :: back }
  | fail {es : List Event} {q : Queue} {front back : List Entry} {e : Entry} {memory : Memory} (runs : Runs es q)
      (ready : q.Ready front e back) (spared : ∀ b ≠ e.launch.output, memory.get? b = q.memory.get? b) :
      Runs es { q with memory, entries := front ++ { e with status := .failed } :: back }
  | quit {es : List Event} {q : Queue} {front back : List Entry} {e : Entry} (runs : Runs es q)
      (quits : q.Quits front e back) : Runs es { q with entries := front ++ { e with status := .failed } :: back }

/-- A launch was recorded to wait for another one. -/
def WaitsFor (q : Queue) (j i : LaunchId) : Prop := ∃ e, q.entries[j]? = some e ∧ i ∈ e.deps

/-- The last writer of a block is the launch, or waits for it. -/
def Behind (q : Queue) (b : BlockId) (i : LaunchId) : Prop :=
  ∃ w, (q.hazards.get b).writer = some w ∧ ReflTransGen q.WaitsFor w i

/-- Launches wait for earlier ones only. -/
structure Backward (q : Queue) : Prop where
  backward : ∀ {j d : LaunchId}, q.WaitsFor j d → d < j
  recorded : ∀ {b : BlockId} {l : LaunchId}, l ∈ (q.hazards.get b).pending → l < q.entries.length

/-- A launch that has not finished is behind the last writer of each block that it touches, or a reader since. Of
launches that conflict, the later one waits for the earlier one. -/
structure Tracked (q : Queue) : Prop extends q.Backward where
  closed : ∀ {j d : LaunchId}, q.WaitsFor j d → q.isDone j → q.isDone d
  seen : ∀ {i j : LaunchId} {e : Entry}, q.entries[j]? = some e → e.seen i → q.isDone i
  writes : ∀ {i : LaunchId} {e : Entry}, q.entries[i]? = some e → q.isDone i ∨ q.Behind e.launch.output i
  reads : ∀ {i : LaunchId} {e : Entry} {b : BlockId}, q.entries[i]? = some e → b ∈ e.launch.inputs.map Prod.fst →
    q.isDone i ∨ i ∈ (q.hazards.get b).readers ∨ q.Behind b i
  ordered : ∀ {i j : LaunchId} {x y : Entry}, i < j → q.entries[i]? = some x → q.entries[j]? = some y →
    x.launch.Conflicts y.launch → TransGen q.WaitsFor j i ∨ y.seen i

end Queue

namespace Tracker

variable {t : Tracker} {finished : LaunchId → Bool} {launch : LaunchId}

/-- Reads are recorded, and only readers that have finished are forgotten. -/
theorem trackReads_readers (new : finished launch = false) (bs : List BlockId) (b : BlockId) :
    (∀ l ∈ (t.get b).readers, finished l ∨ l ∈ ((trackReads finished launch t bs).1.get b).readers) ∧
    (b ∈ bs → launch ∈ ((trackReads finished launch t bs).1.get b).readers) ∧
    ∀ l ∈ ((trackReads finished launch t bs).1.get b).readers, l ∈ (t.get b).readers ∨ l = launch := by
  induction bs generalizing t with
  | nil => exact ⟨fun _ => .inr, nofun, fun _ => .inl⟩
  | cons a bs ih =>
    obtain ⟨kept, added, only⟩ := ih (t := t.set a { t.get a with
      readers := ((t.get a).readers.filter fun r => !finished r) ++ [launch] })
    simp only [trackReads]
    by_cases same : b = a
    · subst same
      simp only [get_set, if_pos, List.mem_append, List.mem_filter, List.mem_singleton] at kept only
      refine ⟨fun l reader => ?_, fun _ => ?_, fun l reader => ?_⟩
      · by_cases ended : finished l
        · exact .inl ended
        · exact kept l (.inl ⟨reader, by simpa using ended⟩)
      · exact (kept launch (.inr rfl)).resolve_left (by simp [new])
      · rcases only l reader with (⟨old, -⟩ | rfl) | rfl
        · exact .inl old
        · exact .inr rfl
        · exact .inr rfl
    · simp only [get_set, if_neg same] at kept only
      exact ⟨kept, fun member => added ((List.mem_cons.mp member).resolve_left same), only⟩

/-- A launch waits for the last writers of what it reads only. -/
theorem trackReads_deps (bs : List BlockId) : ∀ d ∈ (trackReads finished launch t bs).2,
    ∃ b, (t.get b).writer = some d := by
  induction bs generalizing t with
  | nil => exact nofun
  | cons a bs ih =>
    intro d member
    simp only [trackReads, List.mem_append, Option.mem_toList] at member
    rcases member with first | later
    · exact ⟨a, first⟩
    · obtain ⟨b, writer⟩ := ih d later
      rw [get_set] at writer
      split at writer
      · exact ⟨a, writer⟩
      · exact ⟨b, writer⟩

/-- What is known of the launches of each block after one more was recorded, and what that one waits for. -/
structure Tracks (t t' : Tracker) (finished : LaunchId → Bool) (launch : LaunchId) (inputs : List BlockId)
    (out : BlockId) (deps : List LaunchId) : Prop where
  output : t'.get out = { writer := some launch }
  writer : ∀ b, b ≠ out → (t'.get b).writer = (t.get b).writer
  kept : ∀ b, b ≠ out → ∀ l ∈ (t.get b).readers, finished l ∨ l ∈ (t'.get b).readers
  added : ∀ b ∈ inputs, b ≠ out → launch ∈ (t'.get b).readers
  only : ∀ b, b ≠ out → ∀ l ∈ (t'.get b).readers, l ∈ (t.get b).readers ∨ l = launch
  waits : ∀ b, b = out ∨ b ∈ inputs → ∀ l, (t.get b).writer = some l → l ∈ deps
  waitsReaders : ∀ l ∈ (t.get out).readers, l ∈ deps
  backward : ∀ d ∈ deps, ∃ b, d ∈ (t.get b).pending

theorem track_tracks (new : finished launch = false) (inputs : List BlockId) (out : BlockId) :
    t.Tracks (t.track finished launch inputs out).1 finished launch inputs out
      (t.track finished launch inputs out).2 := by
  have readers := trackReads_readers (t := t) new (inputs.filter fun b => b != out)
  obtain ⟨-, others, -⟩ := trackReads_spec (t := t) finished launch (inputs.filter fun b => b != out)
  obtain ⟨-, writer, -, waits⟩ := track_spec (t := t) finished launch inputs out
  have untouched := others out (by simp)
  refine ⟨?_, writer, fun b other => ?_, fun b reads other => ?_, fun b other => ?_, waits, fun l reader => ?_, ?_⟩
  · simp [track, get_set]
  · simp only [track, get_set, if_neg other]
    exact (readers b).1
  · simp only [track, get_set, if_neg other]
    exact (readers b).2.1 (List.mem_filter.mpr ⟨reads, by simpa using other⟩)
  · simp only [track, get_set, if_neg other]
    exact (readers b).2.2
  · simp only [track, untouched]
    exact List.mem_append_right _ (List.mem_append_right _ reader)
  · intro d member
    simp only [track, untouched, List.mem_append] at member
    rcases member with read | touched
    · obtain ⟨b, writer⟩ := trackReads_deps _ d read
      exact ⟨b, Hazards.writer_pending writer⟩
    · exact ⟨out, touched⟩

end Tracker

namespace Queue

variable {q : Queue} {es : List Event} {front back : List Entry} {e : Entry} {l : Launch BlockId}

/-- What a launch waits for. -/
def depsOf (q : Queue) (l : Launch BlockId) : List LaunchId :=
  (q.hazards.track q.isDone q.entries.length (l.inputs.map Prod.fst) l.output).2

theorem isDone_iff {i : LaunchId} : q.isDone i ↔ ∃ e, q.entries[i]? = some e ∧ e.status ≠ .waiting := by
  simp [isDone, Option.any_eq_true]

theorem isDone_of_status {i : LaunchId} {status : Status} (is : q.status? i = some status)
    (ended : status ≠ .waiting) : q.isDone i := by
  obtain ⟨e, at_, rfl⟩ := Option.map_eq_some_iff.mp is
  exact isDone_iff.mpr ⟨e, at_, ended⟩

section Entries

variable {status : Status}

/-- A launch that finishes changes its own entry only. -/
theorem finished_entries (whole : q.entries = front ++ e :: back) (j : LaunchId) :
    (front ++ { e with status } :: back)[j]? = if j = front.length then some { e with status } else q.entries[j]? := by
  rw [whole]
  rcases Nat.lt_trichotomy j front.length with before | rfl | after
  · rw [if_neg (Nat.ne_of_lt before), List.getElem?_append_left before, List.getElem?_append_left before]
  · simp
  · rw [if_neg (Nat.ne_of_gt after), List.getElem?_append_right (Nat.le_of_lt after),
      List.getElem?_append_right (Nat.le_of_lt after)]
    obtain ⟨k, rfl⟩ := Nat.exists_eq_add_of_lt after
    simp [Nat.add_assoc]

theorem entry_of_finished (whole : q.entries = front ++ e :: back) {j : LaunchId} {x : Entry}
    (at_ : (front ++ { e with status } :: back)[j]? = some x) :
    ∃ y, q.entries[j]? = some y ∧ y.launch = x.launch ∧ y.deps = x.deps ∧ y.seen = x.seen := by
  rw [finished_entries whole] at at_
  split at at_
  · rename_i here
    cases at_
    exact ⟨e, by simp [whole, here], rfl, rfl, rfl⟩
  · exact ⟨x, at_, rfl, rfl, rfl⟩

theorem waitsFor_finished (whole : q.entries = front ++ e :: back) (status : Status) :
    WaitsFor { q with entries := front ++ { e with status } :: back } = q.WaitsFor := by
  funext j i
  refine propext ⟨fun ⟨x, at_, member⟩ => ?_, fun ⟨x, at_, member⟩ => ?_⟩
  · obtain ⟨y, at_, -, deps, -⟩ := entry_of_finished whole at_
    exact ⟨y, at_, deps ▸ member⟩
  · by_cases here : j = front.length
    · obtain rfl : e = x := by simpa [whole, here] using at_
      exact ⟨{ e with status }, by simp [here], member⟩
    · exact ⟨x, by rw [finished_entries whole, if_neg here, at_], member⟩

theorem isDone_finished (whole : q.entries = front ++ e :: back) (ended : status ≠ .waiting) {i : LaunchId} :
    isDone { q with entries := front ++ { e with status } :: back } i ↔ i = front.length ∨ q.isDone i := by
  unfold isDone
  rw [finished_entries whole]
  by_cases here : i = front.length
  · simp [here, ended]
  · simp [here]

end Entries

section Dispatch

variable {b : BlockId} {i j : LaunchId}

theorem dispatched_entry {j : LaunchId} {x : Entry} : (q.dispatch l).entries[j]? = some x ↔
    q.entries[j]? = some x ∨ j = q.entries.length ∧ x = ⟨l, q.depsOf l, q.isDone, .waiting⟩ := by
  simp only [Queue.dispatch, depsOf]
  rcases Nat.lt_trichotomy j q.entries.length with before | rfl | after
  · simp [List.getElem?_append_left before, Nat.ne_of_lt before]
  · simp [eq_comm]
  · have past : q.entries.length ≤ j := Nat.le_of_lt after
    simp [List.getElem?_append_right past, Nat.ne_of_gt after, past, Nat.sub_ne_zero_of_lt after]

theorem isDone_dispatched {i : LaunchId} : (q.dispatch l).isDone i ↔ q.isDone i := by
  simp only [isDone_iff, dispatched_entry]
  constructor
  · rintro ⟨x, old | ⟨-, rfl⟩, ended⟩
    · exact ⟨x, old, ended⟩
    · exact absurd rfl ended
  · rintro ⟨x, old, ended⟩
    exact ⟨x, .inl old, ended⟩

theorem tracks (q : Queue) (l : Launch BlockId) : q.hazards.Tracks (q.dispatch l).hazards q.isDone q.entries.length
    (l.inputs.map Prod.fst) l.output (q.depsOf l) :=
  Tracker.track_tracks (by simp [isDone]) ..

theorem WaitsFor.dispatched (waits : q.WaitsFor j i) : (q.dispatch l).WaitsFor j i :=
  waits.imp fun _ ⟨at_, member⟩ => ⟨dispatched_entry.mpr (.inl at_), member⟩

theorem waitsFor_of_deps (member : i ∈ q.depsOf l) : (q.dispatch l).WaitsFor q.entries.length i :=
  ⟨_, dispatched_entry.mpr (.inr ⟨rfl, rfl⟩), member⟩

/-- What is behind the last writer of a block stays behind it, if the new launch does not write the block. -/
theorem Behind.dispatched (other : b ≠ l.output) (behind : q.Behind b i) : (q.dispatch l).Behind b i := by
  obtain ⟨w, writer, path⟩ := behind
  exact ⟨w, ((q.tracks l).writer b other).trans writer, ReflTransGen.mono (fun _ _ => WaitsFor.dispatched) _ _ path⟩

/-- The new launch waits for the last writer of a block that it touches, and for all behind that. -/
theorem Behind.reached (touches : l.Touches b) (behind : q.Behind b i) :
    TransGen (q.dispatch l).WaitsFor q.entries.length i := by
  obtain ⟨w, writer, path⟩ := behind
  exact .head' (waitsFor_of_deps ((q.tracks l).waits b touches w writer))
    (ReflTransGen.mono (fun _ _ => WaitsFor.dispatched) _ _ path)

/-- The new launch is the last writer of its output. -/
theorem behind_new (path : ReflTransGen (q.dispatch l).WaitsFor q.entries.length i) :
    (q.dispatch l).Behind l.output i :=
  ⟨_, congrArg Hazards.writer (q.tracks l).output, path⟩

/-- No other launch is recorded than the new one. -/
theorem pending_dispatched (member : i ∈ ((q.dispatch l).hazards.get b).pending) :
    i ∈ (q.hazards.get b).pending ∨ i = q.entries.length := by
  by_cases same : b = l.output
  · rw [same, (q.tracks l).output] at member
    exact .inr (by simpa [Hazards.pending] using member)
  · rcases List.mem_append.mp member with wrote | read
    · rw [(q.tracks l).writer b same] at wrote
      exact .inl (List.mem_append_left _ wrote)
    · exact ((q.tracks l).only b same i read).imp_left (List.mem_append_right _)

end Dispatch

theorem Ready.done (ready : q.Ready front e back) : ∀ d ∈ e.deps, q.isDone d := fun d member =>
  isDone_of_status (ready.deps d member) (by decide)

namespace Backward

theorem start : Backward {} where
  backward := by
    rintro j d ⟨e, at_, -⟩
    cases at_
  recorded member := by cases member

theorem memory (older : q.Backward) (m : Memory) : Backward { q with memory := m } := { older with }

theorem upload (older : q.Backward) (b : BlockId) : Backward { q with hazards := q.hazards.clear b } where
  backward := older.backward
  recorded {b' l} member := by
    simp only [Tracker.clear, Tracker.get_set] at member
    split at member
    · cases member
    · exact older.recorded member

theorem finish (older : q.Backward) (whole : q.entries = front ++ e :: back) (status : Status) :
    Backward { q with entries := front ++ { e with status } :: back } where
  backward waits := by
    rw [waitsFor_finished whole] at waits
    exact older.backward waits
  recorded member := by
    have inside := older.recorded member
    simpa [whole] using inside

theorem dispatch (older : q.Backward) (l : Launch BlockId) : (q.dispatch l).Backward where
  backward := by
    rintro j d ⟨e, at_, member⟩
    rcases dispatched_entry.mp at_ with at_ | ⟨rfl, rfl⟩
    · exact older.backward ⟨e, at_, member⟩
    · obtain ⟨b, pending⟩ := (q.tracks l).backward d member
      exact older.recorded pending
  recorded {b i} member := by
    have length : (q.dispatch l).entries.length = q.entries.length + 1 := by simp [Queue.dispatch]
    rw [length]
    rcases pending_dispatched member with old | rfl
    · exact Nat.lt_succ_of_lt (older.recorded old)
    · exact Nat.lt_succ_self _

end Backward

namespace Tracked

theorem start : Tracked {} where
  toBackward := .start
  closed := by
    rintro j d ⟨e, at_, -⟩
    cases at_
  seen at_ := by cases at_
  writes at_ := by cases at_
  reads at_ := by cases at_
  ordered _ at_ := by cases at_

/-- What happens to the memory does not matter. -/
theorem memory (tracked : q.Tracked) (m : Memory) : Tracked { q with memory := m } :=
  { tracked with }

/-- Whoever a launch that has finished waits for, on the way, has finished. -/
theorem done_of_behind (tracked : q.Tracked) {i j : LaunchId} (behind : ReflTransGen q.WaitsFor j i)
    (done : q.isDone j) : q.isDone i := by
  induction behind with
  | refl => exact done
  | tail _ waits ih => exact tracked.closed waits ih

/-- Once the launches that are recorded for a block have finished, all that touch it have. -/
theorem done_of_settled (tracked : q.Tracked) {b : BlockId} (settled : ∀ l ∈ (q.hazards.get b).pending, q.isDone l)
    {i : LaunchId} (at_ : q.entries[i]? = some e) (touches : e.launch.Touches b) : q.isDone i := by
  have behind : q.Behind b i → q.isDone i := fun ⟨w, writer, path⟩ =>
    tracked.done_of_behind path (settled w (Hazards.writer_pending writer))
  rcases touches with rfl | reads
  · exact (tracked.writes at_).elim id behind
  · rcases tracked.reads at_ reads with done | reader | later
    · exact done
    · exact settled i (List.mem_append_right _ reader)
    · exact behind later

theorem upload (tracked : q.Tracked) {b : BlockId} (settled : ∀ l ∈ (q.hazards.get b).pending, q.isDone l) :
    Tracked { q with hazards := q.hazards.clear b } := by
  have got : ∀ b', (q.hazards.clear b).get b' = if b' = b then {} else q.hazards.get b' := fun b' => Tracker.get_set {}
  have behind : ∀ {b' i}, b' ≠ b → q.Behind b' i → Behind { q with hazards := q.hazards.clear b } b' i :=
    fun other ⟨w, writer, path⟩ => ⟨w, by simp only [got, if_neg other, writer], path⟩
  refine ⟨tracked.toBackward.upload b, tracked.closed, tracked.seen, fun {i e} at_ => ?_,
    fun {i e b'} at_ reads => ?_, tracked.ordered⟩
  · by_cases same : e.launch.output = b
    · exact .inl (tracked.done_of_settled settled at_ (.inl same.symm))
    · exact (tracked.writes at_).imp_right (behind same)
  · by_cases same : b' = b
    · exact .inl (tracked.done_of_settled settled at_ (.inr (same ▸ reads)))
    · simp only [got, if_neg same]
      exact (tracked.reads at_ reads).imp_right fun rest => rest.imp_right (behind same)

/-- A launch that runs once all that it waits for has finished. -/
theorem finish {status : Status} (tracked : q.Tracked) (ready : q.Ready front e back) (ended : status ≠ .waiting) :
    Tracked { q with entries := front ++ { e with status } :: back } := by
  have whole := ready.whole
  have waits := waitsFor_finished whole status
  have done : ∀ {i}, q.isDone i → isDone { q with entries := front ++ { e with status } :: back } i := fun held =>
    (isDone_finished whole ended).mpr (.inr held)
  have behind : ∀ {b i}, q.Behind b i → Behind { q with entries := front ++ { e with status } :: back } b i :=
    fun ⟨w, writer, path⟩ => ⟨w, writer, by rwa [waits]⟩
  refine ⟨tracked.toBackward.finish whole status, fun {j d} held ended' => ?_, fun at_ held => ?_, fun at_ => ?_,
    fun at_ reads => ?_, fun less atX atY conflicts => ?_⟩
  · rw [waits] at held
    rcases (isDone_finished whole ended).mp ended' with rfl | old
    · obtain ⟨x, at_, member⟩ := held
      obtain rfl : e = x := by simpa [whole] using at_
      exact done (ready.done d member)
    · exact done (tracked.closed held old)
  · obtain ⟨y, atY, -, -, same⟩ := entry_of_finished whole at_
    exact done (tracked.seen atY (same ▸ held))
  · obtain ⟨y, atY, same, -, -⟩ := entry_of_finished whole at_
    exact same ▸ (tracked.writes atY).imp done behind
  · obtain ⟨y, atY, same, -, -⟩ := entry_of_finished whole at_
    exact (tracked.reads atY (same ▸ reads)).imp done fun rest => rest.imp_right behind
  · obtain ⟨x', atX', sameX, -, -⟩ := entry_of_finished whole atX
    obtain ⟨y', atY', sameY, -, seen⟩ := entry_of_finished whole atY
    rw [waits, ← seen]
    exact tracked.ordered less atX' atY' (sameX ▸ sameY ▸ conflicts)

/-- The new launch waits for all that touch its output, if they have not finished. -/
theorem reached (tracked : q.Tracked) {i : LaunchId} (at_ : q.entries[i]? = some e)
    (touches : e.launch.Touches l.output) : q.isDone i ∨ TransGen (q.dispatch l).WaitsFor q.entries.length i := by
  rcases touches with same | reads
  · exact (tracked.writes at_).imp_right fun behind => (same ▸ behind).reached (.inl rfl)
  · rcases tracked.reads at_ reads with done | reader | behind
    · exact .inl done
    · exact .inr (.single (waitsFor_of_deps ((q.tracks l).waitsReaders i reader)))
    · exact .inr (behind.reached (.inl rfl))

theorem dispatch (tracked : q.Tracked) (l : Launch BlockId) : (q.dispatch l).Tracked where
  toBackward := tracked.toBackward.dispatch l
  closed := by
    rintro j d ⟨e, at_, member⟩ done
    rw [isDone_dispatched] at done ⊢
    rcases dispatched_entry.mp at_ with at_ | ⟨rfl, -⟩
    · exact tracked.closed ⟨e, at_, member⟩ done
    · obtain ⟨x, atX, -⟩ := isDone_iff.mp done
      simp at atX
  seen {i j e} at_ held := by
    rw [isDone_dispatched]
    rcases dispatched_entry.mp at_ with at_ | ⟨-, rfl⟩
    · exact tracked.seen at_ held
    · exact held
  writes {i e} at_ := by
    rw [isDone_dispatched]
    rcases dispatched_entry.mp at_ with at_ | ⟨rfl, rfl⟩
    · by_cases same : e.launch.output = l.output
      · rw [same]
        exact (tracked.reached at_ (.inl same.symm)).imp_right fun path => behind_new path.to_reflTransGen
      · exact (tracked.writes at_).imp_right (·.dispatched same)
    · exact .inr (behind_new .refl)
  reads {i e b} at_ reads := by
    rw [isDone_dispatched]
    rcases dispatched_entry.mp at_ with at_ | ⟨rfl, rfl⟩
    · by_cases same : b = l.output
      · rw [same] at reads ⊢
        exact (tracked.reached at_ (.inr reads)).imp_right fun path => .inr (behind_new path.to_reflTransGen)
      · rcases tracked.reads at_ reads with done | reader | behind
        · exact .inl done
        · exact ((q.tracks l).kept b same i reader).imp_right .inl
        · exact .inr (.inr (behind.dispatched same))
    · by_cases same : b = l.output
      · exact .inr (.inr (same ▸ behind_new .refl))
      · exact .inr (.inl ((q.tracks l).added b reads same))
  ordered {i j x y} less atX atY conflicts := by
    rcases dispatched_entry.mp atY with atY | ⟨rfl, rfl⟩
    · have atX : q.entries[i]? = some x := (dispatched_entry.mp atX).resolve_right fun ⟨last, _⟩ =>
        Nat.lt_asymm less (last ▸ (List.getElem?_eq_some_iff.mp atY).1)
      exact (tracked.ordered less atX atY conflicts).imp_left
        (TransGen.mono (fun _ _ => WaitsFor.dispatched) _ _)
    · have atX : q.entries[i]? = some x := (dispatched_entry.mp atX).resolve_right fun ⟨last, _⟩ =>
        Nat.ne_of_lt less last
      obtain ⟨b, touchesX, touchesL, rfl | same⟩ := conflicts
      · exact ((tracked.writes atX).imp_right (·.reached touchesL)).symm
      · exact (tracked.reached atX (same ▸ touchesX)).symm

end Tracked

/-- However launches run, none waits for itself or for a later one. -/
theorem Runs.backward (runs : Runs es q) : q.Backward := by
  induction runs with
  | start => exact .start
  | alloc _ kind _ older => exact older.memory _
  | upload _ _ _ _ older => exact (older.upload _).memory _
  | launch _ _ older => exact older.dispatch _
  | succeed _ ready _ older => exact (older.finish ready.whole _).memory _
  | fail _ ready _ older => exact (older.finish ready.whole _).memory _
  | quit _ quits older => exact older.finish quits.whole _

/-- No launch has failed. -/
def Fine (q : Queue) : Prop := ∀ e ∈ q.entries, e.status ≠ .failed

/-- What has failed stays so: before a launch succeeded none had failed if none has now. -/
theorem Fine.before (fine : Fine { q with entries := front ++ { e with status := .succeeded } :: back })
    (ready : q.Ready front e back) : q.Fine := fun x member => by
  rw [ready.whole, List.mem_append, List.mem_cons] at member
  rcases member with before | rfl | after
  · exact fine x (by simp [before])
  · exact fun failed => nomatch ready.waiting.symm.trans failed
  · exact fine x (by simp [after])

/-- A launch that fails is one that has failed. -/
theorem not_fine {m : Memory} : ¬ Fine { q with
    memory := m, entries := front ++ { e with status := .failed } :: back } := fun fine =>
  fine { e with status := .failed } (by simp) rfl

/-- While none has failed, however launches run, conflicts are tracked. -/
theorem Runs.tracked (runs : Runs es q) (fine : q.Fine) : q.Tracked := by
  induction runs with
  | start => exact .start
  | alloc _ kind _ tracked => exact (tracked fine).memory _
  | upload _ settled _ _ tracked => exact ((tracked fine).upload settled).memory _
  | launch _ _ tracked => exact (tracked fun e member => fine e (List.mem_append_left _ member)).dispatch _
  | succeed _ ready _ tracked => exact ((tracked (Fine.before fine ready)).finish ready (by decide)).memory _
  | fail => exact absurd fine not_fine
  | quit => exact absurd fine not_fine

end Queue

end TensorGraph
