import TensorGraph.Proofs.Machine.Reorder

/-! The launches of a device at whatever pace its lanes have. A device stands for a queue: what it has not run waits
there, and whatever it runs, in whichever order, the queue may run next. Hence the pace of a device on which nothing
fails cannot be seen from outside: what is read of a block is what a device gives that is through with each launch
before the host goes on. -/
namespace TensorGraph

open Checked TensorGraph.Action

namespace Accelerator

variable {a a' : Accelerator} {q : Queue} {es : List Event} {d : Delayed} {late before after : List Delayed}
  {front back : List Queue.Entry} {e : Queue.Entry} {l : Launch BlockId} {b : BlockId}

/-- The device stands for the queue, if these launches have not run. -/
structure Follows (a : Accelerator) (late : List Delayed) (q : Queue) : Prop where
  memory : q.memory = a.memory
  hazards : q.hazards = a.hazards
  length : q.entries.length = a.launches
  entry : ∀ d ∈ late, ∃ e, q.entries[d.id]? = some e ∧ e.launch = d.launch ∧ e.deps = d.deps
  waiting : ∀ {i : LaunchId} {e : Queue.Entry}, q.entries[i]? = some e → (e.status = .waiting ↔ ∃ d ∈ late, d.id = i)
  failed : ∀ {i : LaunchId} {e : Queue.Entry}, q.entries[i]? = some e → (e.status = .failed ↔ (a.failure? i).isSome)
  inOrder : late.Pairwise fun d d' => d.id < d'.id
  /-- Nothing is freed. -/
  live : ∀ b < a.memory.next, (a.memory.get? b).isSome

theorem Follows.start {ordinal lanes : Nat} {patience limit : Option Nat} {fault : Option Fault} {alert : Bool} :
    Follows { ordinal, lanes, patience, limit, fault, alert } [] {} where
  memory := rfl
  hazards := rfl
  length := rfl
  entry := nofun
  waiting at_ := by cases at_
  failed at_ := by cases at_
  inOrder := .nil
  live := nofun

namespace Follows

/-- What is not said of the device does not matter. -/
theorem of_same (follows : a.Follows late q) (memory : a'.memory = a.memory) (hazards : a'.hazards = a.hazards)
    (log : a'.log = a.log) : a'.Follows late q where
  memory := follows.memory.trans memory.symm
  hazards := follows.hazards.trans hazards.symm
  length := by rw [follows.length, launches, launches, log]
  entry := follows.entry
  waiting := follows.waiting
  failed at_ := by rw [follows.failed at_, failure?, failure?, log]
  inOrder := follows.inOrder
  live := memory ▸ follows.live

theorem inside (follows : a.Follows late q) (member : d ∈ late) : d.id < a.launches := by
  obtain ⟨e, at_, -⟩ := follows.entry d member
  exact follows.length ▸ (List.getElem?_eq_some_iff.mp at_).1

theorem failed_iff (follows : a.Follows late q) {i : LaunchId} :
    q.status? i = some .failed ↔ (a.failure? i).isSome := by
  cases at_ : q.entries[i]? with
  | some e => simp [Queue.status?, at_, follows.failed at_]
  | none =>
    have beyond : a.log.size ≤ i := Nat.le_trans (Nat.le_of_eq follows.length.symm) (List.getElem?_eq_none_iff.mp at_)
    simp [Queue.status?, at_, failure?, beyond]

theorem isDone_iff (follows : a.Follows late q) {i : LaunchId} :
    q.isDone i ↔ i < a.launches ∧ ∀ d ∈ late, d.id ≠ i := by
  rw [Queue.isDone_iff]
  constructor
  · rintro ⟨e, at_, ended⟩
    refine ⟨follows.length ▸ (List.getElem?_eq_some_iff.mp at_).1, fun d member same => ?_⟩
    exact ended ((follows.waiting at_).mpr ⟨d, member, same⟩)
  · rintro ⟨inside, none⟩
    have at_ := List.getElem?_eq_getElem (follows.length ▸ inside)
    refine ⟨_, at_, fun waiting => ?_⟩
    obtain ⟨d, member, same⟩ := (follows.waiting at_).mp waiting
    exact none d member same

/-- What the device tells of launches that are over is what the queue tells. -/
theorem isDone_eq (follows : a.Follows a.delayed q) :
    q.isDone = fun i => decide (i < a.launches) && !a.isDelayed i := by
  funext i
  refine Bool.eq_iff_iff.mpr (follows.isDone_iff.trans ?_)
  simp [isDelayed]

/-- The place in the queue of a launch that has not run. -/
theorem split (follows : a.Follows late q) (member : d ∈ late) : ∃ front e back, q.entries = front ++ e :: back ∧
    front.length = d.id ∧ e.launch = d.launch ∧ e.deps = d.deps ∧ e.status = .waiting := by
  obtain ⟨e, at_, launch, deps⟩ := follows.entry d member
  obtain ⟨inside, here⟩ := List.getElem?_eq_some_iff.mp at_
  refine ⟨q.entries.take d.id, e, q.entries.drop (d.id + 1), ?_, by simp [Nat.le_of_lt inside], launch, deps,
    (follows.waiting at_).mpr ⟨d, member, rfl⟩⟩
  rw [← here, ← List.drop_eq_getElem_cons, List.take_append_drop]

end Follows

/-- How the queue notes the end of a launch. -/
def ending (failure : Option Failure) : Queue.Status := if failure.isSome then .failed else .succeeded

theorem ending_ne_waiting (failure : Option Failure) : ending failure ≠ .waiting := by
  cases failure <;> simp [ending]

theorem ending_eq_failed (failure : Option Failure) : ending failure = .failed ↔ failure.isSome := by
  cases failure <;> simp [ending]

theorem failure?_land (inside : d.id < a.launches) {i : LaunchId} :
    (a.land d).failure? i = if i = d.id then (a.run d.id d.launch d.deps).1 else a.failure? i := by
  obtain ⟨-, log, -⟩ := run_spec a d.id d.launch d.deps
  simp only [failure?, land, log, Array.getElem?_setIfInBounds]
  by_cases same : d.id = i
  · subst same
    simp [show d.id < a.log.size from inside]
  · simp [same, Ne.symm same]

theorem isSome_run {id : LaunchId} {deps : List LaunchId} :
    ((a.run id l deps).2.memory.get? b).isSome = (a.memory.get? b).isSome := by
  obtain ⟨-, -, -, ⟨data, -, -, -, ran⟩ | ⟨-, same | damaged, -⟩⟩ := run_spec a id l deps
  · rw [ran]
    exact Memory.isSome_write
  · rw [same]
  · rw [damaged]
    exact Memory.isSome_damage

/-- Once a launch has run, the device stands for the queue that has noted it. -/
theorem Follows.land (follows : a.Follows (before ++ d :: after) q) (whole : q.entries = front ++ e :: back)
    (here : front.length = d.id) : (a.land d).Follows (before ++ after) { q with
      memory := (a.land d).memory,
      entries := front ++ { e with status := ending (a.run d.id d.launch d.deps).1 } :: back } := by
  obtain ⟨hazards, log, -⟩ := run_spec a d.id d.launch d.deps
  have inside : d.id < a.launches := follows.inside (by simp)
  have kept : ∀ x ∈ before ++ after, x ∈ before ++ d :: after := fun x member => by
    rw [List.mem_append, List.mem_cons]
    exact (List.mem_append.mp member).imp_right .inr
  have finished : ∀ j, (front ++ { e with status := ending (a.run d.id d.launch d.deps).1 } :: back)[j]? = _ :=
    Queue.finished_entries whole
  have others : ∀ x ∈ before ++ after, x.id ≠ d.id := fun x member => by
    obtain ⟨-, inOrder, apart⟩ := List.pairwise_append.mp follows.inOrder
    rcases List.mem_append.mp member with earlier | later
    · exact Nat.ne_of_lt (apart x earlier d (by simp))
    · exact Nat.ne_of_gt (List.rel_of_pairwise_cons inOrder later)
  refine ⟨rfl, follows.hazards.trans hazards.symm, ?_, fun x member => ?_, fun {i x} at_ => ?_, fun {i x} at_ => ?_,
    ?_, ?_⟩
  · have length := follows.length
    rw [whole] at length
    simpa [Accelerator.land, launches, log] using length
  · obtain ⟨y, at_, rest⟩ := follows.entry x (kept x member)
    exact ⟨y, by rw [finished, here, if_neg (others x member), at_], rest⟩
  · rw [finished, here] at at_
    split at at_
    · rename_i same
      cases at_
      refine iff_of_false (ending_ne_waiting _) ?_
      rintro ⟨x, member, rfl⟩
      exact others x member same
    · rename_i other
      rw [follows.waiting at_]
      constructor
      · rintro ⟨y, member, rfl⟩
        refine ⟨y, ?_, rfl⟩
        rcases List.mem_append.mp member with earlier | later
        · exact List.mem_append_left _ earlier
        · rcases List.mem_cons.mp later with rfl | later
          · exact absurd rfl other
          · exact List.mem_append_right _ later
      · rintro ⟨y, member, rfl⟩
        exact ⟨y, kept y member, rfl⟩
  · rw [failure?_land inside]
    rw [finished, here] at at_
    split at at_
    · cases at_
      rw [if_pos ‹_›]
      exact ending_eq_failed _
    · simp [*, follows.failed at_]
  · refine follows.inOrder.sublist ?_
    exact (List.Sublist.refl _).append (List.sublist_cons_self _ _)
  · intro b inside
    have inside : b < (a.run d.id d.launch d.deps).2.memory.next := inside
    rw [next_run] at inside
    exact isSome_run.trans (follows.live b inside)

/-- A launch that may go on does so in the queue as on the device. -/
theorem Follows.step (runs : Queue.Runs es q) (follows : a.Follows (before ++ d :: after) q)
    (here : front.length = d.id) (launch : e.launch = d.launch) (deps : e.deps = d.deps)
    (moves : q.Ready front e back ∨ q.Quits front e back) :
    ∃ q', Queue.Runs es q' ∧ (a.land d).Follows (before ++ after) q' := by
  rcases moves with ready | quits
  · refine ⟨_, ?_, follows.land ready.whole here⟩
    obtain ⟨-, -, -, ⟨data, computed, -, -, ran⟩ | ⟨failed, memory, -⟩⟩ := run_spec a d.id d.launch d.deps
    · have computed : q.memory.compute e.launch = .ok data := by
        rw [follows.memory, launch]
        exact computed
      have landed : (a.land d).memory = q.memory.write e.launch.output data := by
        rw [follows.memory, launch]
        simp only [Accelerator.land, ran]
      rw [landed, ran]
      exact runs.succeed ready computed
    · rw [ending, if_pos failed]
      refine runs.fail ready fun b other => ?_
      rw [follows.memory]
      rcases memory with same | damaged
      · exact congrArg (Memory.get? · b) same
      · refine (congrArg (Memory.get? · b) damaged).trans ?_
        rw [Memory.get?_damage, if_neg (launch ▸ other)]
  · obtain ⟨earlier, k, later, split, -, failed⟩ := quits.cause
    obtain ⟨f, first⟩ : ∃ f, a.firstFailure? d.deps = some f := by
      refine Option.isSome_iff_exists.mp (List.findSome?_isSome_iff.mpr ⟨k, ?_, follows.failed_iff.mp failed⟩)
      simp [← deps, split]
    have ran : a.run d.id d.launch d.deps = (some f, a) := by
      unfold run
      simp only [first]
    have noted := follows.land quits.whole here
    have landed : (a.land d).memory = q.memory := by
      rw [follows.memory]
      simp only [Accelerator.land, ran]
    rw [landed, ran] at noted
    exact ⟨_, runs.quit quits, noted⟩

theorem Follows.fine (follows : a.Follows late q) (healthy : a.Healthy) : q.Fine := fun e member failed => by
  obtain ⟨i, at_⟩ := List.mem_iff_getElem?.mp member
  have held := (follows.failed at_).mp failed
  rw [healthy.clean] at held
  cases held

end Accelerator

namespace Queue

variable {q : Queue} {es : List Event} {front back : List Entry} {e : Entry} {m : Memory}

/-- Where all can be done one after the other, a launch that may run computes its output. -/
theorem Ready.computes (ready : q.Ready front e back) (runs : Runs es q) (fine : q.Fine)
    (replayed : Memory.replay es = .ok m) : ∃ data, q.memory.compute e.launch = .ok data := by
  have drained := ((runs.drains fine).replays m).mpr replayed
  have whole : waitingOf q.entries = waitingOf front ++ e.launch :: waitingOf back := by
    simp [waitingOf, ready.whole, ready.waiting]
  rw [whole, Memory.executeAll, List.foldlM_append, bind_eq_ok] at drained
  obtain ⟨n, first, rest⟩ := drained
  rw [List.foldlM_cons, bind_eq_ok] at rest
  obtain ⟨_, executed, -⟩ := rest
  obtain ⟨data, computed, -⟩ := Memory.execute_eq_ok.mp executed
  refine ⟨data, (Memory.compute_congr fun b touches => ?_).trans computed⟩
  refine (Memory.get?_executeAll (fun w member out => ?_) first).symm
  obtain ⟨x, inFront, rfl⟩ := List.mem_map.mp member
  obtain ⟨inFront, waiting⟩ := List.mem_filter.mp inFront
  exact ready.apart (runs.tracked fine) inFront (by simpa using waiting) ⟨b, .inl out, touches, .inl out⟩

/-- Once the last writer of a block is over, the block is as if all had been done one after the other. -/
theorem Runs.settled (runs : Runs es q) (fine : q.Fine) (replayed : Memory.replay es = .ok m) {b : BlockId}
    (ended : ∀ w, (q.hazards.get b).writer = some w → q.isDone w) : m.get? b = q.memory.get? b := by
  refine Memory.get?_executeAll (fun l member out => ?_) (((runs.drains fine).replays m).mpr replayed)
  obtain ⟨i, e, at_, waiting, rfl⟩ := exists_of_waiting member
  refine not_done at_ waiting ?_
  rcases (runs.tracked fine).writes at_ with done | ⟨w, writer, path⟩
  · exact done
  · exact (runs.tracked fine).done_of_behind path (ended w (out ▸ writer))

end Queue

namespace Accelerator

variable {a a' : Accelerator} {q : Queue} {es : List Event} {d : Delayed} {late before after : List Delayed}
  {front back : List Queue.Entry} {e : Queue.Entry} {l : Launch BlockId} {b : BlockId} {m : Memory} {fine : Prop}

/-- Where all can be done one after the other, no launch fails on a device on which nothing has failed. -/
theorem Follows.healthy (runs : Queue.Runs es q) (follows : a.Follows (before ++ d :: after) q)
    (launch : e.launch = d.launch) (moves : q.Ready front e back ∨ q.Quits front e back) (healthy : a.Healthy)
    (replayed : Memory.replay es = .ok m) : (a.land d).Healthy := by
  rcases moves with ready | quits
  · obtain ⟨data, computed⟩ := ready.computes runs (follows.fine healthy) replayed
    have computed : a.compute d.launch = .ok data := by
      rw [follows.memory, launch] at computed
      exact computed
    have inside : d.id < a.launches := follows.inside (by simp)
    obtain ⟨-, -, -, ⟨data', -, -, -, ran⟩ | ⟨-, -, wrong⟩⟩ := run_spec a d.id d.launch d.deps
    · refine ⟨?_, ?_, ?_, ?_, fun i => ?_, fun at_ => ?_⟩
      · simpa only [Accelerator.land, ran] using healthy.limit
      · simpa only [Accelerator.land, ran] using healthy.fault
      · simpa only [Accelerator.land, ran] using healthy.alive
      · simpa only [Accelerator.land, ran] using healthy.unheard
      · rw [failure?_land inside, ran, healthy.clean, ite_self]
      · simp only [Accelerator.land, ran] at at_
        exact unbroken_write healthy.whole at_
    · obtain ⟨error, failed⟩ := wrong healthy
      cases computed.symm.trans failed
  · obtain ⟨-, k, -, -, -, failed⟩ := quits.cause
    have held := follows.failed_iff.mp failed
    rw [healthy.clean] at held
    cases held

/-- A device that stands for a queue after some events, and has not run these launches. If `fine`, the events can be
done one after the other, and nothing has failed. -/
def Course (es : List Event) (fine : Prop) (late : List Delayed) (a : Accelerator) : Prop :=
  ∃ q, Queue.Runs es q ∧ a.Follows late q ∧ (fine → a.Healthy ∧ ∃ m, Memory.replay es = .ok m)

namespace Course

theorem of_same (course : Course es fine late a) (memory : a'.memory = a.memory) (hazards : a'.hazards = a.hazards)
    (log : a'.log = a.log) (healthy : a.Healthy → a'.Healthy) : Course es fine late a' :=
  course.imp fun _ ⟨runs, follows, fares⟩ =>
    ⟨runs, follows.of_same memory hazards log, fun held => (fares held).imp_left healthy⟩

theorem land (runs : Queue.Runs es q) (follows : a.Follows (before ++ d :: after) q)
    (fares : fine → a.Healthy ∧ ∃ m, Memory.replay es = .ok m) (here : front.length = d.id)
    (launch : e.launch = d.launch) (deps : e.deps = d.deps) (moves : q.Ready front e back ∨ q.Quits front e back) :
    Course es fine (before ++ after) (a.land d) := by
  obtain ⟨q', runs', follows'⟩ := follows.step runs here launch deps moves
  refine ⟨q', runs', follows', fun held => ?_⟩
  obtain ⟨healthy, m, replayed⟩ := fares held
  exact ⟨follows.healthy runs launch moves healthy replayed, m, replayed⟩

/-- The first launch that has not run waits for none that has not. -/
theorem lands (course : Course es fine late a) : Course es fine [] (late.foldl Accelerator.land a) := by
  induction late generalizing a with
  | nil => exact course
  | cons d late ih =>
    obtain ⟨q, runs, follows, fares⟩ := course
    obtain ⟨front, e, back, whole, here, launch, deps, waiting⟩ := follows.split (List.mem_cons_self ..)
    suffices done : ∀ k ∈ e.deps, q.isDone k by
      have landed : Course es fine ([] ++ late) (a.land d) :=
        land runs follows fares here launch deps (Queue.ready_or_quits whole waiting done)
      exact ih landed
    intro k member
    have earlier : k < d.id := here ▸ runs.backward.backward ⟨e, by simp [whole], member⟩
    refine follows.isDone_iff.mpr ⟨?_, fun x there same => ?_⟩
    · exact Nat.lt_trans earlier (follows.inside (List.mem_cons_self ..))
    · rcases List.mem_cons.mp there with rfl | later
      · exact absurd same (Nat.ne_of_gt earlier)
      · exact Nat.lt_asymm earlier (same ▸ List.rel_of_pairwise_cons follows.inOrder later)

theorem landAll (course : Course es fine a.delayed a) : Course es fine [] a.landAll :=
  course.lands.of_same rfl rfl rfl fun healthy => { healthy with clean := healthy.clean, whole := healthy.whole }

end Course

theorem hazards_landAll (a : Accelerator) : a.landAll.hazards = a.hazards :=
  List.foldlRecOn a.delayed land (motive := fun a' => a'.hazards = a.hazards) rfl
    fun a' same d _ => (run_spec a' d.id d.launch d.deps).1.trans same

theorem await_cases (a : Accelerator) (ls : List LaunchId) :
    a.await ls = a.landAll ∨ a.await ls = a ∧ ∀ l ∈ ls, a.isDelayed l = false := by
  unfold await
  split
  · exact .inl rfl
  · rename_i none
    exact .inr ⟨rfl, fun l member => by simpa using fun held => none (List.any_eq_true.mpr ⟨l, member, held⟩)⟩

theorem Course.settle (course : Course es fine a.delayed a) (ls : List LaunchId) : (settle ls).Meets a
    (fun _ _ => False) fun _ a' => Course es fine a'.delayed a' ∧ (∀ l ∈ ls, a'.isDelayed l = false) ∧
      a'.hazards = a.hazards ∧ a'.memory.next = a.memory.next := by
  have awaited : Course es fine (a.await ls).delayed (a.await ls) ∧ (∀ l ∈ ls, (a.await ls).isDelayed l = false) ∧
      (a.await ls).hazards = a.hazards ∧ (a.await ls).memory.next = a.memory.next := by
    rcases a.await_cases ls with landed | ⟨same, ended⟩
    · rw [landed]
      exact ⟨course.landAll, fun l _ => rfl, hazards_landAll a, next_landAll a⟩
    · rw [same]
      exact ⟨course, ended, rfl, rfl⟩
  unfold Accelerator.settle
  rw [meets_modify]
  dsimp only
  split
  · rename_i fatal
    obtain ⟨course, rest⟩ := awaited
    refine ⟨course.of_same rfl rfl rfl fun healthy => ?_, rest⟩
    obtain ⟨l, -, failed⟩ := List.any_eq_true.mp fatal
    rw [healthy.clean l] at failed
    cases failed
  · exact awaited

/-- A launch that was recorded waits in the queue. -/
theorem Follows.record (follows : a.Follows a.delayed q) (l : Launch BlockId) :
    (a.record l).Follows (a.delayed ++ [⟨a.launches, l, (a.track l).2⟩]) (q.dispatch l) := by
  have tracked : q.hazards.track q.isDone q.entries.length (l.inputs.map Prod.fst) l.output = a.track l := by
    rw [follows.hazards, follows.isDone_eq, follows.length]
    rfl
  refine ⟨follows.memory, ?_, ?_, fun d member => ?_, fun {i e} at_ => ?_, fun {i e} at_ => ?_, ?_, follows.live⟩
  · simp only [Queue.dispatch, tracked, Accelerator.record]
  · simp [Queue.dispatch, Accelerator.record, launches, follows.length]
  · rcases List.mem_append.mp member with old | new
    · obtain ⟨e, at_, rest⟩ := follows.entry d old
      exact ⟨e, Queue.dispatched_entry.mpr (.inl at_), rest⟩
    · cases List.mem_singleton.mp new
      exact ⟨_, Queue.dispatched_entry.mpr (.inr ⟨follows.length.symm, rfl⟩), rfl, congrArg Prod.snd tracked⟩
  · rcases Queue.dispatched_entry.mp at_ with old | ⟨rfl, rfl⟩
    · rw [follows.waiting old]
      have inside : i < a.launches := follows.length ▸ (List.getElem?_eq_some_iff.mp old).1
      simp [or_and_right, exists_or, Nat.ne_of_gt inside]
    · simp [follows.length]
  · rw [failure?_record]
    rcases Queue.dispatched_entry.mp at_ with old | ⟨rfl, rfl⟩
    · exact follows.failed old
    · simp [follows.length, failure?, launches]
  · refine List.pairwise_append.mpr ⟨follows.inOrder, List.pairwise_singleton _ _, fun d member d' new => ?_⟩
    cases List.mem_singleton.mp new
    exact follows.inside member

theorem Follows.succeeded (follows : a.Follows late q) {i : LaunchId} (dispatched : i < a.launches)
    (ended : ∀ d ∈ late, d.id ≠ i) (clean : a.failure? i = none) : q.status? i = some .succeeded := by
  obtain ⟨e, at_⟩ : ∃ e, q.entries[i]? = some e :=
    ⟨_, List.getElem?_eq_getElem (Nat.lt_of_lt_of_eq dispatched follows.length.symm)⟩
  rw [Queue.status?, at_, Option.map_some]
  cases status : e.status with
  | waiting =>
    obtain ⟨d, member, same⟩ := (follows.waiting at_).mp status
    exact absurd same (ended d member)
  | succeeded => rfl
  | failed =>
    have held := (follows.failed at_).mp status
    rw [clean] at held
    cases held

/-- A launch that does not lag may go on. -/
theorem Follows.moves (recorded : (a.record l).Follows (a.delayed ++ [d]) q) (backward : q.Backward)
    (whole : q.entries = front ++ e :: back) (here : front.length = d.id) (deps : e.deps = d.deps)
    (waiting : e.status = .waiting) (new : d.id = a.launches) (prompt : (a.record l).lags d = false) :
    q.Ready front e back ∨ q.Quits front e back := by
  have succeeded : ∀ x ∈ e.deps, a.isDelayed x = false → (a.record l).failure? x = none →
      q.status? x = some .succeeded := fun x member ended clean => by
    have earlier : x < a.launches := new ▸ here ▸ backward.backward ⟨e, by simp [whole], member⟩
    refine recorded.succeeded ?_ (fun d' there same => ?_) clean
    · simp only [launches, Accelerator.record, Array.size_push] at earlier ⊢
      exact Nat.lt_succ_of_lt earlier
    · rcases List.mem_append.mp there with old | last
      · exact absurd ended (by simpa [isDelayed] using ⟨d', old, same⟩)
      · cases List.mem_singleton.mp last
        exact Nat.ne_of_gt earlier (new.symm.trans same)
  simp only [lags, Bool.or_eq_false_iff, ← deps] at prompt
  cases found : e.deps.find? fun x => (a.record l).isDelayed x || ((a.record l).failure? x).isSome with
  | none =>
    refine .inl ⟨whole, waiting, fun x member => ?_⟩
    have ended := List.find?_eq_none.mp found x member
    simp only [Bool.or_eq_true, not_or, Bool.not_eq_true, Option.isSome_eq_false_iff,
      Option.isNone_iff_eq_none] at ended
    exact succeeded x member ended.1 ended.2
  | some x =>
    obtain ⟨stops, earlier, later, split, ended⟩ := List.find?_eq_some_iff_append.mp found
    simp only [found] at prompt
    refine .inr ⟨whole, waiting, earlier, x, later, split, fun y member => ?_, recorded.failed_iff.mpr ?_⟩
    · have ended := ended y member
      simp only [Bool.not_eq_true', Bool.or_eq_false_iff, Option.isSome_eq_false_iff,
        Option.isNone_iff_eq_none] at ended
      exact succeeded y (by simp [split, member]) ended.1 ended.2
    · simpa only [prompt.2, Bool.false_or] using stops

theorem Course.push (course : Course es fine a.delayed a) (known : ∀ b, l.Touches b → b < a.memory.next)
    (sound : fine → ∃ m, Memory.replay (es ++ [.launch l]) = .ok m) :
    Course (es ++ [.launch l]) fine (a.push l).delayed (a.push l) := by
  obtain ⟨q, runs, follows, fares⟩ := course
  have recorded := follows.record l
  have runs := runs.launch (l := l) fun b touches => by
    rw [follows.memory]
    exact follows.live b (known b touches)
  have fares : fine → (a.record l).Healthy ∧ ∃ m, Memory.replay (es ++ [.launch l]) = .ok m := fun held =>
    ⟨{ (fares held).1 with clean := by rw [failure?_record]; exact (fares held).1.clean,
                           whole := (fares held).1.whole }, sound held⟩
  unfold Accelerator.push
  dsimp only
  split
  · exact ⟨_, runs, recorded.of_same rfl rfl rfl,
      fun held => (fares held).imp_left fun healthy => { healthy with clean := healthy.clean, whole := healthy.whole }⟩
  · rename_i prompt
    obtain ⟨front, e, back, whole, here, launch, deps, waiting⟩ := recorded.split (List.mem_append_right _ (.head _))
    have moves := recorded.moves runs.backward whole here deps waiting rfl (Bool.eq_false_iff.mpr prompt)
    have landed := Course.land runs recorded fares here launch deps moves
    rw [List.append_nil] at landed
    rwa [show ((a.record l).land ⟨a.launches, l, (a.track l).2⟩).delayed = a.delayed from
      (run_spec (a.record l) a.launches l (a.track l).2).2.2.1.1]

theorem Course.alloc (course : Course es fine a.delayed a) {kind : Kind} {n : Nat}
    (sound : fine → ∃ m, Memory.replay (es ++ [.alloc kind n]) = .ok m) : (alloc kind n).Meets a (fun _ _ => ¬ fine)
    fun _ a' => Course (es ++ [.alloc kind n]) fine a'.delayed a' ∧ a'.memory.next = a.memory.next + 1 := by
  obtain ⟨q, runs, follows, fares⟩ := course
  have room : fine → n < Shape.capacity := fun held => by
    obtain ⟨m, replayed⟩ := sound held
    rw [Memory.replay_concat] at replayed
    obtain ⟨_, -, applied⟩ := bind_eq_ok.mp replayed
    exact (Memory.apply_alloc.mp applied).1
  refine (alloc_decides a kind n).mono (fun _ _ refused held => ?_) ?_
  · exact refused.1 ((fares held).1.grants kind (room held))
  rintro b _ ⟨grants, -, rfl⟩
  refine ⟨⟨_, runs.alloc kind grants.room, ?_, fun held => ⟨?_, sound held⟩⟩, Memory.next_alloc kind n⟩
  · exact { follows with
      memory := congrArg (Memory.alloc · kind n) follows.memory
      live := fun b inside => by
        rw [Memory.get?_alloc]
        split
        · rfl
        · rename_i old
          refine follows.live b (Nat.lt_of_le_of_ne (Nat.le_of_lt_succ ?_) old)
          exact Nat.lt_of_lt_of_eq inside (Memory.next_alloc kind n) }
  · have healthy := (fares held).1
    refine { healthy with clean := healthy.clean, whole := fun {b block} at_ => ?_ }
    rw [Memory.get?_alloc] at at_
    split at at_
    · cases at_
      rfl
    · exact healthy.whole at_

theorem Course.upload (course : Course es fine a.delayed a) {source : Data} {n : Nat} {b : BlockId}
    (sound : fine → ∃ m, Memory.replay (es ++ [.upload source n b]) = .ok m) :
    (upload source n b).Meets a (fun _ _ => ¬ fine) fun _ a' =>
      Course (es ++ [.upload source n b]) fine a'.delayed a' ∧ a'.memory.next = a.memory.next := by
  unfold Accelerator.upload
  rw [meets_bind, meets_get, meets_bind]
  refine (course.settle _).mono (fun _ _ => False.elim) ?_
  rintro _ a₁ ⟨⟨q, runs, follows, fares⟩, ended, hazards, next⟩
  rw [← hazards] at ended
  have settled : ∀ l ∈ (q.hazards.get b).pending, q.isDone l := fun l member => by
    have inside : l < a₁.launches := follows.length ▸ runs.backward.recorded member
    rw [follows.isDone_eq]
    rw [follows.hazards] at member
    simp [inside, ended l member]
  have ready : fine → ∃ block data, a₁.memory.get? b = some block ∧ block.data.copyFrom source n = .ok data :=
    fun held => by
      obtain ⟨healthy, m, replayed⟩ := fares held
      obtain ⟨m', whole⟩ := sound held
      rw [Memory.replay_concat, replayed, ok_bind] at whole
      rw [← follows.memory, ← runs.settled (follows.fine healthy) replayed fun w writer =>
        settled w (Hazards.writer_pending writer)]
      obtain ⟨block, data, at_, copied, -⟩ := Memory.apply_upload.mp whole
      exact ⟨block, data, at_, copied⟩
  rw [meets_bind]
  unfold contents
  rw [meets_bind, meets_get]
  cases at_ : a₁.memory.get? b with
  | none =>
    intro held
    obtain ⟨_, _, here, -⟩ := ready held
    cases at_.symm.trans here
  | some block =>
    by_cases broken : block.broken
    · simp only [if_pos broken]
      exact fun held => Bool.noConfusion (((fares held).1.whole at_).symm.trans broken)
    simp only [if_neg broken]
    rw [meets_pure, meets_bind, meets_lift]
    cases copied : block.data.copyFrom source n with
    | error e =>
      intro held
      obtain ⟨_, data, here, done⟩ := ready held
      cases at_.symm.trans here
      cases copied.symm.trans done
    | ok data =>
      have at' := follows.memory ▸ at_
      refine ⟨⟨_, runs.upload settled at' copied, ?_, fun held => ⟨?_, sound held⟩⟩,
        (Memory.next_write data).trans next⟩
      · exact { follows with
          memory := congrArg (Memory.write · b data) follows.memory
          hazards := congrArg (Tracker.clear · b) follows.hazards
          live := fun b' inside => by
            rw [Memory.isSome_write]
            exact follows.live b' (by simpa using inside) }
      · have healthy := (fares held).1
        exact { healthy with clean := healthy.clean, whole := unbroken_write healthy.whole }

end Accelerator

namespace Event

/-- Number of blocks after an event. -/
def next (k : Nat) : Event → Nat
  | .alloc _ _ => k + 1
  | _ => k

/-- Launches touch blocks only that were allocated before, if there are `k` of them at the start. -/
def Known : Nat → List Event → Prop
  | _, [] => True
  | k, e :: es => (∀ l, e = .launch l → ∀ b, l.Touches b → b < k) ∧ Known (e.next k) es

/-- What can be done one after the other touches no block before it was allocated. -/
theorem known_of_replayed {es : List Event} {m m' : Memory} (replayed : es.foldlM Memory.apply m = .ok m') :
    Known m.next es := by
  induction es generalizing m with
  | nil => exact trivial
  | cons e es ih =>
    rw [List.foldlM_cons] at replayed
    obtain ⟨n, applied, rest⟩ := bind_eq_ok.mp replayed
    have next : n.next = e.next m.next := by
      cases e with
      | alloc kind n =>
        obtain ⟨-, rfl⟩ := Memory.apply_alloc.mp applied
        exact Memory.next_alloc kind n
      | upload source n b =>
        obtain ⟨_, data, -, -, rfl⟩ := Memory.apply_upload.mp applied
        exact Memory.next_write data
      | launch l =>
        obtain ⟨data, -, rfl⟩ := Memory.execute_eq_ok.mp applied
        exact Memory.next_write data
    refine ⟨fun l same b touches => ?_, next ▸ ih rest⟩
    subst same
    obtain ⟨data, computed, -⟩ := Memory.execute_eq_ok.mp applied
    obtain ⟨block, at_⟩ := Option.isSome_iff_exists.mp (Memory.known_of_compute computed touches)
    exact Memory.lt_of_get? at_

end Event

/-- The first `n` elements of a block. -/
def Memory.read (m : Memory) (b : BlockId) (n : Nat) : Except Error Data :=
  match m.get? b with
  | some block => block.data.take n
  | none => .error .crash

namespace Accelerator

variable {a : Accelerator} {es todo : List Event} {fine : Prop} {m : Memory}

theorem next_push (a : Accelerator) (l : Launch BlockId) : (a.push l).memory.next = a.memory.next := by
  unfold push
  dsimp only
  split
  · rfl
  · exact next_run (a.record l) a.launches l (a.track l).2

/-- What the device is asked to do, the queue may do. -/
theorem Course.act (course : Course es fine a.delayed a) {e : Event}
    (known : ∀ l, e = .launch l → ∀ b, l.Touches b → b < a.memory.next)
    (sound : fine → ∃ m, Memory.replay (es ++ [e]) = .ok m) : e.act.Meets a (fun _ _ => ¬ fine)
    fun _ a' => Course (es ++ [e]) fine a'.delayed a' ∧ a'.memory.next = e.next a.memory.next := by
  cases e with
  | alloc kind n =>
    unfold Event.act
    rw [meets_bind]
    exact course.alloc sound
  | upload source n b => exact course.upload sound
  | launch l =>
    unfold Event.act dispatch checkAlive
    rw [meets_bind, meets_bind, meets_get]
    by_cases seen : a.knowsLoss
    · rw [if_pos seen, meets_throw]
      obtain ⟨q, -, -, fares⟩ := course
      exact fun held => Bool.noConfusion ((fares held).1.knowsLoss.symm.trans seen)
    · rw [if_neg seen, meets_pure, meets_modify]
      exact ⟨course.push (known l rfl) sound, next_push a l⟩

theorem Course.acts (course : Course es fine a.delayed a) (known : Event.Known a.memory.next todo)
    (sound : fine → ∃ m, Memory.replay (es ++ todo) = .ok m) :
    (todo.forM Event.act).Meets a (fun _ _ => ¬ fine) fun _ a' => Course (es ++ todo) fine a'.delayed a' := by
  induction todo generalizing a es with
  | nil =>
    rw [List.append_nil]
    exact course
  | cons e todo ih =>
    obtain ⟨first, rest⟩ := known
    rw [List.append_cons] at sound ⊢
    rw [List.forM_eq_forM, List.forM_cons, meets_bind]
    refine (course.act first fun held => ?_).post fun _ a' ⟨course', next⟩ => ih course' (next ▸ rest) sound
    obtain ⟨m, replayed⟩ := sound held
    rw [Memory.replay, List.foldlM_append] at replayed
    obtain ⟨m', replayed, -⟩ := bind_eq_ok.mp replayed
    exact ⟨m', replayed⟩

/-- Whatever the lanes, the pace, the limit and the fault of a device, its course is one of a queue. -/
theorem course_of_acts {ordinal lanes : Nat} {patience limit : Option Nat} {fault : Option Fault} {alert : Bool}
    (known : Event.Known 0 es)
    (ran : (es.forM Event.act).start { ordinal, lanes, patience, limit, fault, alert } = (.ok (), a)) :
    ∃ q, Queue.Runs es q ∧ a.Follows a.delayed q := by
  have course : Course [] False [] { ordinal, lanes, patience, limit, fault, alert } := ⟨{}, .start, .start, False.elim⟩
  obtain ⟨q, runs, follows, -⟩ := (course.acts known False.elim).of_ok ran
  exact ⟨q, runs, follows⟩

theorem Course.download (course : Course es True a.delayed a) (replayed : Memory.replay es = .ok m) (b : BlockId)
    (n : Nat) : (download b n).Meets a (fun e _ => m.read b n = .error e) fun data _ => m.read b n = .ok data := by
  unfold Accelerator.download Accelerator.wait
  rw [meets_bind, meets_get, meets_bind, meets_bind]
  refine (course.settle _).mono (fun _ _ => False.elim) ?_
  rintro _ a₁ ⟨⟨q, runs, follows, fares⟩, ended, hazards, -⟩
  obtain ⟨healthy, -⟩ := fares trivial
  have same : m.get? b = a₁.memory.get? b := by
    rw [← follows.memory]
    refine runs.settled (follows.fine healthy) replayed fun w writer => ?_
    have inside : w < a₁.launches := follows.length ▸ runs.backward.recorded (Hazards.writer_pending writer)
    rw [follows.hazards, hazards] at writer
    rw [follows.isDone_eq]
    simp [inside, ended w (by simp [writer])]
  rw [meets_bind, meets_get]
  have none : a₁.firstFailure? (a.hazards.get b).writer.toList = none :=
    List.findSome?_eq_none_iff.mpr fun l _ => healthy.clean l
  rw [none, meets_pure]
  unfold contents Memory.read
  rw [meets_bind, meets_bind, meets_get, same]
  cases at_ : a₁.memory.get? b with
  | none => rfl
  | some block =>
    simp only [healthy.whole at_, Bool.false_eq_true, ↓reduceIte, meets_pure, meets_lift]
    cases block.data.take n <;> rfl

theorem Course.landed (course : Course es True a.delayed a) (replayed : Memory.replay es = .ok m) :
    a.landAll.memory = m ∧ ∀ l, a.landAll.failure? l = none := by
  obtain ⟨q, runs, follows, fares⟩ := course.landAll
  obtain ⟨healthy, -⟩ := fares trivial
  have ended : Queue.waitingOf q.entries = [] := by
    refine List.map_eq_nil_iff.mpr (List.filter_eq_nil_iff.mpr fun e member => ?_)
    obtain ⟨i, at_⟩ := List.mem_iff_getElem?.mp member
    simpa using (follows.waiting at_).not.mpr (by simp)
  have drained := ((runs.drains (follows.fine healthy)).replays m).mpr replayed
  rw [ended] at drained
  cases drained
  exact ⟨follows.memory.symm, healthy.clean⟩

/-- What can be done one after the other succeeds at any pace of any number of lanes, and neither what is read of a
block nor what is there once all has run tells the pace. -/
theorem pace_is_hidden (replayed : Memory.replay es = .ok m) (ordinal lanes : Nat) (patience : Option Nat) :
    ∃ a a', (es.forM Event.act).start { ordinal, lanes, patience } = (.ok (), a) ∧
      (es.forM Event.act).start { ordinal } = (.ok (), a') ∧ a.landAll.memory = a'.memory ∧
      (∀ l, a.landAll.failure? l = none) ∧
      ∀ b n, ((download b n).start a).1 = ((download b n).start a').1 := by
  have one : ∀ lanes patience, ∃ a, (es.forM Event.act).start { ordinal, lanes, patience } = (.ok (), a) ∧
      Course es True a.delayed a := fun lanes patience => by
    have course : Course [] True [] { ordinal, lanes, patience } := ⟨{}, .start, .start, fun _ => ⟨.new .., {}, rfl⟩⟩
    have acted := course.acts (Event.known_of_replayed replayed) fun _ => ⟨m, replayed⟩
    rcases ran : (es.forM Event.act).start { ordinal, lanes, patience } with ⟨_ | ⟨⟩, a⟩
    · exact absurd trivial (acted.of_error ran)
    · exact ⟨a, rfl, acted.of_ok ran⟩
  have reads : ∀ {a : Accelerator}, Course es True a.delayed a → ∀ b n, ((download b n).start a).1 = m.read b n :=
    fun course b n => by
      have read := course.download replayed b n
      rcases ran : (download b n).start _ with ⟨_ | data, _⟩
      · exact (read.of_error ran).symm
      · exact (read.of_ok ran).symm
  obtain ⟨a, ran, course⟩ := one lanes patience
  obtain ⟨a', ran', course'⟩ := one 1 none
  obtain ⟨memory, clean⟩ := course.landed replayed
  have prompt := ((acts_meet (.new ordinal) replayed).of_ok ran').2
  exact ⟨a, a', ran, ran', memory.trans prompt.symm, clean, fun b n =>
    (reads course b n).trans (reads course' b n).symm⟩

end Accelerator

/-- Copies a block to another one. -/
def Launch.copy (source target : BlockId) (shape : Shape) : Launch BlockId where
  label := "copy"
  op := .unary .neg
  kernel _ args := match args.inputs with
    | [.buffer data] => .ok data
    | _ => .ok args.out
  inputs := [(source, shape)]
  output := target
  shape
  math := {}

/-- The second launch is large, the third one waits for it. The fourth one ends with the first. -/
def Event.overtaking : List Event :=
  [.alloc .i32 1, .alloc .i32 1, .alloc .i32 1, .alloc .i32 1, .launch (.copy 3 1 [1]), .launch (.copy 3 2 [9]),
    .launch (.copy 2 0 [1]), .launch (.copy 1 0 [1]), .upload ⟨.i32, #[7]⟩ 1 0]

/-- A device on which the first launch fails, after these events. -/
def Accelerator.overtaken : Except Error Unit × Accelerator := (Event.overtaking.forM Event.act).start
  { ordinal := 0, lanes := 3, patience := some 4, fault := some ⟨false, 1⟩ }

/-- An upload waits for the last users of its block only. An earlier one may still write there, if a later one ended
with another failure. -/
theorem Accelerator.upload_is_overtaken : overtaken.1.isOk ∧
    (overtaken.2.memory.read 0 1).toOption.any (Data.same ⟨.i32, #[7]⟩) ∧
    (overtaken.2.landAll.memory.read 0 1).toOption.any (Data.same ⟨.i32, #[0]⟩) := by decide +kernel

end TensorGraph
