import TensorGraph.Proofs.Logic.Checked
import TensorGraph.Proofs.Machine.Queue

/-! The order in which launches run does not show. Launches without a conflict may change places, so the launches
that are still waiting may as well run last, in the order of dispatch: what they would leave is what the device leaves
that runs every launch at once. -/
namespace TensorGraph

open Checked TensorGraph.Action Relation

namespace Memory

variable {m m' n : Memory} {l l' : Launch BlockId} {b : BlockId} {data : Data}

/-- Runs a launch that does not fail. -/
def execute (m : Memory) (l : Launch BlockId) : Except Error Memory := do
  let data ← m.compute l
  return m.write l.output data

theorem execute_eq_ok : m.execute l = .ok n ↔ ∃ data, m.compute l = .ok data ∧ n = m.write l.output data := by
  unfold execute
  rw [bind_eq_ok]
  simp [eq_comm]

/-- A launch sees the blocks only that it touches. -/
theorem compute_congr (same : ∀ b, l.Touches b → m.get? b = m'.get? b) : m.compute l = m'.compute l := by
  unfold compute Accelerator.compute
  simp only
  rw [same l.output (.inl rfl)]
  congr 1
  refine mapM_congr fun e reads => ?_
  rw [same e.1 (.inr (List.mem_map_of_mem reads))]

theorem write_here {block : Block} (at_ : m.get? b = some block) :
    m.write b data = m.set b (some { block with data }) := by simp only [write, at_]

theorem write_gone (gone : m.get? b = none) : m.write b data = m := by simp only [write, gone]

theorem write_comm {b' : BlockId} {data' : Data} (other : b ≠ b') :
    (m.write b data).write b' data' = (m.write b' data').write b data := by
  have left : (m.write b data).get? b' = m.get? b' := by rw [get?_write, if_neg (Ne.symm other)]
  have right : (m.write b' data').get? b = m.get? b := by rw [get?_write, if_neg other]
  cases here : m.get? b with
  | none => rw [write_gone here, write_gone (right.trans here)]
  | some block =>
    cases there : m.get? b' with
    | none => rw [write_gone there, write_gone (left.trans there)]
    | some block' =>
      rw [write_here (left.trans there), write_here (right.trans here), write_here here, write_here there]
      simp only [set]
      rw [Array.setIfInBounds_comm _ _ other]

theorem write_alloc (there : (m.get? b).isSome) (kind : Kind) (n : Nat) :
    (m.alloc kind n).write b data = (m.write b data).alloc kind n := by
  obtain ⟨block, at_⟩ := Option.isSome_iff_exists.mp there
  have inside : b < m.blocks.size := lt_of_get? at_
  have at' : (m.alloc kind n).get? b = some block := by rw [get?_alloc, if_neg (Nat.ne_of_lt (lt_of_get? at_)), at_]
  rw [write_here at_, write_here at']
  simp only [set, alloc, Memory.mk.injEq, and_true]
  rw [Array.setIfInBounds, dif_pos (by simpa using Nat.lt_succ_of_lt inside), Array.set_push, dif_pos inside,
    Array.setIfInBounds, dif_pos inside]

/-- A launch that computes touches blocks only that are there. -/
theorem known_of_compute (computed : m.compute l = .ok data) (touches : l.Touches b) : (m.get? b).isSome := by
  unfold compute Accelerator.compute at computed
  obtain ⟨inputs, each, rest⟩ := bind_eq_ok.mp computed
  have out : (m.get? l.output).isSome := by
    cases at_ : m.get? l.output with
    | some block => rfl
    | none =>
      simp only [at_] at rest
      cases rest
  rcases touches with rfl | reads
  · exact out
  obtain ⟨e, member, rfl⟩ := List.mem_map.mp reads
  by_cases same : e.1 = l.output
  · exact same ▸ out
  obtain ⟨operand, -, found⟩ := partner (mapM_eq_ok.mp each) member
  cases at_ : m.get? e.1 with
  | some block => rfl
  | none =>
    simp only [if_neg same, at_] at found
    cases found

/-- A launch does not see what is written to a block that it does not touch. -/
theorem compute_write (untouched : ¬ l.Touches b) : (m.write b data).compute l = m.compute l :=
  compute_congr fun b' touches => by
    rw [get?_write, if_neg]
    rintro rfl
    exact untouched touches

theorem compute_alloc (live : ∀ b, l.Touches b → (m.get? b).isSome) (kind : Kind) (n : Nat) :
    (m.alloc kind n).compute l = m.compute l :=
  compute_congr fun b touches => by
    obtain ⟨block, at_⟩ := Option.isSome_iff_exists.mp (live b touches)
    rw [get?_alloc, if_neg (Nat.ne_of_lt (lt_of_get? at_))]

theorem isSome_write {b' : BlockId} : ((m.write b data).get? b').isSome = (m.get? b').isSome := by
  rw [get?_write]
  split
  · rename_i same
    rw [same, Option.isSome_map]
  · rfl

theorem isSome_damage {b' : BlockId} : ((m.damage b).get? b').isSome = (m.get? b').isSome := by
  rw [get?_damage]
  split
  · rename_i same
    rw [same, Option.isSome_map]
  · rfl

/-- Runs launches one after the other. None of them fails. -/
def executeAll (m : Memory) (ls : List (Launch BlockId)) : Except Error Memory := ls.foldlM execute m

theorem executeAll_cons {ls : List (Launch BlockId)} :
    m.executeAll (l :: ls) = m.execute l >>= fun n => n.executeAll ls := List.foldlM_cons

/-- What no launch sees may be written before them or after them. -/
theorem executeAll_write {ls : List (Launch BlockId)} (untouched : ∀ l ∈ ls, ¬ l.Touches b) :
    (m.write b data).executeAll ls = (·.write b data) <$> m.executeAll ls := by
  induction ls generalizing m with
  | nil => rfl
  | cons l ls ih =>
    rw [executeAll_cons, executeAll_cons, execute, execute, compute_write (untouched l (by simp))]
    cases m.compute l with
    | error e => rfl
    | ok computed =>
      have other : b ≠ l.output := fun same => untouched l (by simp) (.inl same)
      simp only [ok_bind, pure_eq, write_comm other]
      exact ih fun l' member => untouched l' (List.mem_cons_of_mem _ member)

/-- A block may be allocated before launches that do not know it, or after them. -/
theorem executeAll_alloc {ls : List (Launch BlockId)} (live : ∀ l ∈ ls, ∀ b, l.Touches b → (m.get? b).isSome)
    (kind : Kind) (n : Nat) : (m.alloc kind n).executeAll ls = (·.alloc kind n) <$> m.executeAll ls := by
  induction ls generalizing m with
  | nil => rfl
  | cons l ls ih =>
    rw [executeAll_cons, executeAll_cons, execute, execute, compute_alloc (live l (by simp))]
    cases m.compute l with
    | error e => rfl
    | ok computed =>
      simp only [ok_bind, pure_eq, write_alloc (live l (by simp) l.output (.inl rfl))]
      refine ih fun l' member b touches => ?_
      rw [isSome_write]
      exact live l' (List.mem_cons_of_mem _ member) b touches

/-- A launch may run before others that it does not conflict with. -/
theorem executeAll_front {before after : List (Launch BlockId)} (apart : ∀ w ∈ before, ¬ w.Conflicts l)
    (computed : m.compute l = .ok data) :
    m.executeAll (before ++ l :: after) = (m.write l.output data).executeAll (before ++ after) := by
  induction before generalizing m with
  | nil => simp only [List.nil_append, executeAll_cons, execute, computed, ok_bind, pure_eq]
  | cons w before ih =>
    have apartW := apart w (by simp)
    have first : ¬ l.Touches w.output := fun touches => apartW ⟨_, .inl rfl, touches, .inl rfl⟩
    have second : ¬ w.Touches l.output := fun touches => apartW ⟨_, touches, .inl rfl, .inr rfl⟩
    simp only [List.cons_append, executeAll_cons, execute, compute_write second]
    cases m.compute w with
    | error e => rfl
    | ok made =>
      simp only [ok_bind, pure_eq]
      rw [ih (fun w' member => apart w' (List.mem_cons_of_mem _ member)) (by rw [compute_write first, computed]),
        write_comm fun same => second (.inl same.symm)]

/-- A block that no launch writes stays as it is. -/
theorem get?_executeAll {ls : List (Launch BlockId)} (spared : ∀ l ∈ ls, b ≠ l.output)
    (ran : m.executeAll ls = .ok m') : m'.get? b = m.get? b := by
  induction ls generalizing m with
  | nil =>
    cases ran
    rfl
  | cons l ls ih =>
    rw [executeAll_cons] at ran
    obtain ⟨next, first, rest⟩ := bind_eq_ok.mp ran
    obtain ⟨computed, -, whole⟩ := bind_eq_ok.mp first
    cases whole
    rw [ih (fun l' member => spared l' (List.mem_cons_of_mem _ member)) rest, get?_write, if_neg (spared l (by simp))]

/-- Does at once what a device is asked to do. -/
def apply (m : Memory) : Event → Except Error Memory
  | .alloc kind n => if n < Shape.capacity then .ok (m.alloc kind n) else .error .crash
  | .upload source n b =>
    match m.get? b with
    | some block => do return m.write b (← block.data.copyFrom source n)
    | none => .error .crash
  | .launch l => m.execute l

theorem apply_alloc {kind : Kind} {k : Nat} :
    m.apply (.alloc kind k) = .ok n ↔ k < Shape.capacity ∧ n = m.alloc kind k := by
  unfold apply
  by_cases room : k < Shape.capacity <;> simp [room, eq_comm]

theorem apply_upload {source : Data} {k : Nat} : m.apply (.upload source k b) = .ok n ↔
    ∃ block data, m.get? b = some block ∧ block.data.copyFrom source k = .ok data ∧ n = m.write b data := by
  unfold apply
  cases at_ : m.get? b with
  | none => simp [at_]
  | some block => simp [at_, bind_eq_ok, @eq_comm _ _ n]

/-- Does all at once, one after the other. -/
def replay (es : List Event) : Except Error Memory := es.foldlM apply {}

theorem replay_concat {es : List Event} {e : Event} :
    replay (es ++ [e]) = replay es >>= fun m => m.apply e := by
  simp only [replay, List.foldlM_append, List.foldlM_cons, List.foldlM_nil, bind_pure]

end Memory

namespace Queue

variable {q : Queue} {es : List Event} {front back : List Entry} {e : Entry}

/-- The launches among some entries that have not finished, in the order of dispatch. -/
def waitingOf (entries : List Entry) : List (Launch BlockId) :=
  (entries.filter fun e => e.status = .waiting).map fun e => e.launch

theorem exists_of_waiting {l : Launch BlockId} (member : l ∈ waitingOf q.entries) :
    ∃ (i : LaunchId) (e : Entry), q.entries[i]? = some e ∧ e.status = .waiting ∧ e.launch = l := by
  obtain ⟨e, inEntries, rfl⟩ := List.mem_map.mp member
  obtain ⟨inEntries, waiting⟩ := List.mem_filter.mp inEntries
  obtain ⟨i, at_⟩ := List.mem_iff_getElem?.mp inEntries
  exact ⟨i, e, at_, by simpa using waiting, rfl⟩

theorem not_done {i : LaunchId} (at_ : q.entries[i]? = some e) (waiting : e.status = .waiting) : ¬ q.isDone i := by
  simp [isDone, at_, waiting]

/-- The launches before one that may run do not conflict with it, if they have not finished. -/
theorem Ready.apart (ready : q.Ready front e back) (tracked : q.Tracked) {w : Entry} (member : w ∈ front)
    (waiting : w.status = .waiting) : ¬ w.launch.Conflicts e.launch := by
  intro conflicts
  obtain ⟨i, at_⟩ := List.mem_iff_getElem?.mp member
  have inside : i < front.length := (List.getElem?_eq_some_iff.mp at_).1
  have atI : q.entries[i]? = some w := by rw [ready.whole, List.getElem?_append_left inside, at_]
  have atE : q.entries[front.length]? = some e := by simp [ready.whole]
  refine not_done atI waiting ?_
  rcases tracked.ordered inside atI atE conflicts with path | seen
  · obtain ⟨d, ⟨e', at', dep⟩, rest⟩ := TransGen.head'_iff.mp path
    obtain rfl : e = e' := Option.some.inj (atE.symm.trans at')
    exact tracked.done_of_behind rest (ready.done d dep)
  · exact tracked.seen atE seen

/-- Run one after the other, the launches that have not finished leave what the device leaves that does everything at
once. -/
structure Drains (es : List Event) (q : Queue) : Prop where
  live : ∀ l ∈ waitingOf q.entries, ∀ b, l.Touches b → (q.memory.get? b).isSome
  replays : ∀ m, q.memory.executeAll (waitingOf q.entries) = .ok m ↔ Memory.replay es = .ok m

namespace Drains

theorem alloc (drains : Drains es q) (kind : Kind) {n : Nat} (room : n < Shape.capacity) :
    Drains (es ++ [.alloc kind n]) { q with memory := q.memory.alloc kind n } where
  live l member b touches := by
    obtain ⟨block, at_⟩ := Option.isSome_iff_exists.mp (drains.live l member b touches)
    rw [Memory.get?_alloc, if_neg (Nat.ne_of_lt (Memory.lt_of_get? at_)), at_]
    rfl
  replays m := by
    rw [Memory.replay_concat, bind_eq_ok]
    simp only [Memory.executeAll_alloc drains.live, map_eq_ok, drains.replays, Memory.apply, if_pos room, Except.ok.injEq]

theorem upload (drains : Drains es q) {source data : Data} {n : Nat} {b : BlockId} {block : Block}
    (untouched : ∀ l ∈ waitingOf q.entries, ¬ l.Touches b) (at_ : q.memory.get? b = some block)
    (copied : block.data.copyFrom source n = .ok data) :
    Drains (es ++ [.upload source n b]) { q with memory := q.memory.write b data, hazards := q.hazards.clear b } where
  live l member b touches := by
    rw [Memory.isSome_write]
    exact drains.live l member b touches
  replays m := by
    rw [Memory.replay_concat, bind_eq_ok]
    simp only [Memory.executeAll_write untouched, map_eq_ok]
    refine exists_congr fun k => ?_
    rw [← drains.replays]
    refine and_congr_right fun ran => ?_
    have same : k.get? b = some block :=
      (Memory.get?_executeAll (fun l member out => untouched l member (.inl out)) ran).trans at_
    simp only [Memory.apply, same, copied, ok_bind, pure_eq, Except.ok.injEq]

theorem dispatch (drains : Drains es q) {l : Launch BlockId} (known : ∀ b, l.Touches b → (q.memory.get? b).isSome) :
    Drains (es ++ [.launch l]) (q.dispatch l) := by
  have whole : waitingOf (q.dispatch l).entries = waitingOf q.entries ++ [l] := by
    simp [Queue.dispatch, waitingOf]
  refine ⟨fun l' member => ?_, fun m => ?_⟩
  · rw [whole, List.mem_append, List.mem_singleton] at member
    rcases member with old | rfl
    · exact drains.live l' old
    · exact known
  · rw [whole, Memory.replay_concat, bind_eq_ok, Memory.executeAll, List.foldlM_append, bind_eq_ok]
    refine exists_congr fun k => and_congr (drains.replays k) ?_
    simp only [List.foldlM_cons, List.foldlM_nil, bind_pure, Memory.apply]

theorem succeed (drains : Drains es q) (tracked : q.Tracked) (ready : q.Ready front e back) {data : Data}
    (computed : q.memory.compute e.launch = .ok data) : Drains es { q with
      memory := q.memory.write e.launch.output data, entries := front ++ { e with status := .succeeded } :: back } := by
  have before : waitingOf q.entries = waitingOf front ++ e.launch :: waitingOf back := by
    simp [waitingOf, ready.whole, ready.waiting]
  have after : waitingOf (front ++ { e with status := .succeeded } :: back) = waitingOf front ++ waitingOf back := by
    simp [waitingOf]
  have apart : ∀ w ∈ waitingOf front, ¬ w.Conflicts e.launch := fun w member => by
    obtain ⟨x, inFront, rfl⟩ := List.mem_map.mp member
    obtain ⟨inFront, waiting⟩ := List.mem_filter.mp inFront
    exact ready.apart tracked inFront (by simpa using waiting)
  refine ⟨fun l member b touches => ?_, fun m => ?_⟩
  · rw [Memory.isSome_write]
    refine drains.live l ?_ b touches
    rw [after, List.mem_append] at member
    rw [before, List.mem_append, List.mem_cons]
    exact member.imp_right .inr
  · rw [← drains.replays, after, before, Memory.executeAll_front apart computed]

end Drains

/-- While no launch has failed, the launches that have not finished may as well run in the order of dispatch. -/
theorem Runs.drains (runs : Runs es q) (fine : q.Fine) : Drains es q := by
  induction runs with
  | start => exact ⟨nofun, fun m => .rfl⟩
  | alloc _ kind room ih => exact (ih fine).alloc kind room
  | upload runs settled at_ copied ih =>
    refine (ih fine).upload (fun l member touches => ?_) at_ copied
    obtain ⟨i, e, atI, waiting, rfl⟩ := exists_of_waiting member
    exact not_done atI waiting ((runs.tracked fine).done_of_settled settled atI touches)
  | launch _ known ih => exact (ih fun e member => fine e (List.mem_append_left _ member)).dispatch known
  | succeed runs ready computed ih =>
    have before := Fine.before fine ready
    exact (ih before).succeed (runs.tracked before) ready computed
  | fail => exact absurd fine not_fine
  | quit => exact absurd fine not_fine

end Queue

/-- A device does what it is asked to do. -/
def Event.act : Event → Action Accelerator Unit
  | .alloc kind n => do let _ ← Accelerator.alloc kind n
  | .upload source n b => Accelerator.upload source n b
  | .launch l => Accelerator.dispatch l

namespace Accelerator

variable {a : Accelerator} {m : Memory}

theorem unbroken_write (whole : ∀ {b block}, m.get? b = some block → block.broken = false) {b b' : BlockId}
    {data : Data} {block : Block} (at_ : (m.write b data).get? b' = some block) : block.broken = false := by
  rw [Memory.get?_write] at at_
  split at at_
  · obtain ⟨old, here, rfl⟩ := Option.map_eq_some_iff.mp at_
    have sound : old.broken = false := whole here
    exact sound
  · exact whole at_

/-- A device on which nothing fails, and that is through with each launch before the host goes on. -/
structure Ideal (a : Accelerator) : Prop where
  healthy : a.Healthy
  prompt : a.Prompt

theorem Healthy.new (ordinal lanes : Nat) (patience : Option Nat) : Healthy { ordinal, lanes, patience } :=
  ⟨rfl, rfl, rfl, rfl, fun l => by simp [failure?], fun at_ => by simp [Memory.get?] at at_⟩

theorem Ideal.new (ordinal : Nat) : Ideal { ordinal } where
  healthy := .new ordinal 1 none
  prompt := ⟨rfl, rfl⟩

/-- A launch that computes leaves an ideal device as it is but for the output. -/
theorem push_ideal (ideal : a.Ideal) {l : Launch BlockId} {data : Data} (computed : a.compute l = .ok data) :
    (a.push l).Ideal ∧ (a.push l).memory = a.memory.write l.output data := by
  have healthy := ideal.healthy
  obtain ⟨failure, notes, ⟨data', rfl, computed', -, memory, limit, fault, lost, lossSeen⟩ | ⟨-, -, ill⟩⟩ :=
    push_cases ideal.prompt l
  · obtain rfl : data = data' := Except.ok.inj (computed.symm.trans computed')
    refine ⟨⟨⟨limit.trans healthy.limit, fault.trans healthy.fault, lost.trans healthy.alive,
      lossSeen.trans healthy.unheard, fun k => ?_, fun at_ => ?_⟩, notes.prompt⟩, memory⟩
    · by_cases new : k = a.launches
      · rw [new, notes.failure_new]
      · rw [notes.failure_old new, healthy.clean]
    · rw [memory] at at_
      exact unbroken_write healthy.whole at_
  · obtain ⟨e, failed⟩ := ill healthy
    cases computed.symm.trans failed

theorem alloc_ideal (ideal : a.Ideal) (kind : Kind) {n : Nat} (room : n < Shape.capacity) :
    (alloc kind n).Meets a (fun _ _ => False) fun _ a' => a'.Ideal ∧ a'.memory = a.memory.alloc kind n := by
  have healthy := ideal.healthy
  refine (alloc_decides a kind n).mono (fun _ _ refused => refused.1 (healthy.grants kind room)) ?_
  rintro _ _ ⟨-, -, rfl⟩
  refine ⟨⟨⟨healthy.limit, healthy.fault, healthy.alive, healthy.unheard, healthy.clean, fun at_ => ?_⟩,
    ideal.prompt.patience, ideal.prompt.delayed⟩, rfl⟩
  rw [Memory.get?_alloc] at at_
  split at at_
  · cases at_
    rfl
  · exact healthy.whole at_

theorem upload_ideal (ideal : a.Ideal) {source data : Data} {n : Nat} {b : BlockId} {block : Block}
    (at_ : a.memory.get? b = some block) (copied : block.data.copyFrom source n = .ok data) :
    (upload source n b).Meets a (fun _ _ => False) fun _ a' => a'.Ideal ∧ a'.memory = a.memory.write b data := by
  unfold upload
  rw [meets_bind, meets_get, meets_bind]
  refine (settle_meets ideal.prompt _).post fun _ a₁ ⟨alters, _, memory, _, _, prompt⟩ => ?_
  have healthy₁ : a₁.Healthy := (alters.healthy ideal.healthy).resolve_right id
  rw [meets_bind]
  refine (contents_meets (memory ▸ at_)).mono (fun _ _ refused => refused.2.2 healthy₁) ?_
  rintro _ a₂ ⟨rfl, rfl, -⟩
  rw [meets_bind, meets_lift, copied]
  exact ⟨⟨{ healthy₁ with clean := healthy₁.clean, whole := unbroken_write healthy₁.whole },
    prompt.patience, prompt.delayed⟩, congrArg (Memory.write · b data) memory⟩

theorem dispatch_ideal (ideal : a.Ideal) {l : Launch BlockId} {data : Data} (computed : a.compute l = .ok data) :
    (dispatch l).Meets a (fun _ _ => False) fun _ a' => a'.Ideal ∧ a'.memory = a.memory.write l.output data := by
  unfold dispatch
  rw [meets_bind]
  refine (checkAlive_meets l.label).mono (fun _ _ refused => refused.2.2 ideal.healthy) ?_
  rintro _ a' rfl
  rw [meets_modify]
  exact push_ideal ideal computed

/-- An ideal device does what it is asked to do, as its memory allows. -/
theorem act_meets (ideal : a.Ideal) {e : Event} (applied : a.memory.apply e = .ok m) :
    e.act.Meets a (fun _ _ => False) fun _ a' => a'.Ideal ∧ a'.memory = m := by
  cases e with
  | alloc kind n =>
    obtain ⟨room, rfl⟩ := Memory.apply_alloc.mp applied
    unfold Event.act
    rw [meets_bind]
    exact alloc_ideal ideal kind room
  | upload source n b =>
    obtain ⟨block, data, at_, copied, rfl⟩ := Memory.apply_upload.mp applied
    exact upload_ideal ideal at_ copied
  | launch l =>
    obtain ⟨data, computed, rfl⟩ := Memory.execute_eq_ok.mp applied
    exact dispatch_ideal ideal computed

theorem acts_meet (ideal : a.Ideal) {es : List Event} (replayed : es.foldlM Memory.apply a.memory = .ok m) :
    (es.forM Event.act).Meets a (fun _ _ => False) fun _ a' => a'.Ideal ∧ a'.memory = m := by
  induction es generalizing a with
  | nil =>
    cases replayed
    exact ⟨ideal, rfl⟩
  | cons e es ih =>
    rw [List.foldlM_cons] at replayed
    obtain ⟨next, first, rest⟩ := bind_eq_ok.mp replayed
    rw [List.forM_eq_forM, List.forM_cons, meets_bind]
    refine (act_meets ideal first).post fun _ a' ⟨ideal', memory⟩ => ?_
    exact ih ideal' (memory ▸ rest)

end Accelerator

/-- The launch of an event. -/
def Event.launch? : Event → Option (Launch BlockId)
  | .launch l => some l
  | _ => none

namespace Queue

variable {q : Queue} {es : List Event}

/-- The launches that were dispatched are in order. -/
structure Orderly (es : List Event) (q : Queue) : Prop where
  launches : q.entries.map Entry.launch = es.filterMap Event.launch?
  /-- No launch waits for itself or a later one. -/
  backward : ∀ {j d : LaunchId}, q.WaitsFor j d → d < j
  /-- While no launch has failed, of two that conflict the later one waits for the earlier one on some way, if that had
  not finished when the later one was dispatched. -/
  ordered : q.Fine → ∀ {i j : LaunchId} {x y : Entry}, i < j → q.entries[i]? = some x → q.entries[j]? = some y →
    x.launch.Conflicts y.launch → TransGen q.WaitsFor j i ∨ y.seen i
  /-- While some launch has not finished, the first of these may run, or ends with a failure that it waits for. -/
  moves : ∀ e ∈ q.entries, e.status = .waiting → ∃ front e back, (q.Ready front e back ∨ q.Quits front e back) ∧
    ∀ x ∈ front, x.status ≠ .waiting
  /-- If all launches have succeeded, every allocation is as it is when they run at once as they are dispatched. -/
  contents : (∀ e ∈ q.entries, e.status = .succeeded) → ∀ ordinal : Nat, ∃ a : Accelerator,
    (es.forM Event.act).start { ordinal } = (.ok (), a) ∧ (∀ l, a.failure? l = none) ∧ a.memory = q.memory

theorem Runs.launches (runs : Runs es q) : q.entries.map Entry.launch = es.filterMap Event.launch? := by
  induction runs with
  | start => rfl
  | alloc _ kind _ ih => simp [ih, Event.launch?]
  | upload _ _ _ _ ih => simp [ih, Event.launch?]
  | launch _ _ ih => simp [Queue.dispatch, ih, Event.launch?]
  | succeed _ ready _ ih => simpa [ready.whole] using ih
  | fail _ ready _ ih => simpa [ready.whole] using ih
  | quit _ quits ih => simpa [quits.whole] using ih

/-- A launch all of whose dependencies have finished may run, or ends with the first of them that has failed. -/
theorem ready_or_quits (whole : q.entries = front ++ e :: back) (waiting : e.status = .waiting)
    (done : ∀ d ∈ e.deps, q.isDone d) : q.Ready front e back ∨ q.Quits front e back := by
  cases found : e.deps.find? fun d => q.status? d ≠ some .succeeded with
  | none => exact .inl ⟨whole, waiting, fun d member => by simpa using List.find?_eq_none.mp found d member⟩
  | some d =>
    obtain ⟨differs, before, after, split, fine⟩ := List.find?_eq_some_iff_append.mp found
    refine .inr ⟨whole, waiting, before, d, after, split, fun x member => by simpa using fine x member, ?_⟩
    obtain ⟨x, at_, ended⟩ := isDone_iff.mp (done d (by simp [split]))
    have is : q.status? d = some x.status := by simp [status?, at_]
    cases status : x.status with
    | waiting => exact absurd status ended
    | succeeded => simp [is, status] at differs
    | failed => rw [is, status]

/-- The first launch that has not finished waits for none that has not. -/
theorem Backward.first_moves (older : q.Backward) {e : Entry} (member : e ∈ q.entries)
    (waiting : e.status = .waiting) :
    ∃ front e back, (q.Ready front e back ∨ q.Quits front e back) ∧ ∀ x ∈ front, x.status ≠ .waiting := by
  have found : (q.entries.find? fun x => x.status = .waiting).isSome :=
    List.find?_isSome.mpr ⟨e, member, by simpa using waiting⟩
  obtain ⟨first, found⟩ := Option.isSome_iff_exists.mp found
  obtain ⟨waiting', front, back, whole, ended⟩ := List.find?_eq_some_iff_append.mp found
  have ended : ∀ x ∈ front, x.status ≠ .waiting := fun x before => by simpa using ended x before
  refine ⟨front, first, back, ready_or_quits whole (by simpa using waiting') fun d dep => ?_, ended⟩
  have before : d < front.length := older.backward ⟨first, by simp [whole], dep⟩
  refine isDone_iff.mpr ⟨front[d], ?_, ended _ (List.getElem_mem before)⟩
  rw [whole, List.getElem?_append_left before, List.getElem?_eq_getElem before]

/-- In whatever order the recorded dependencies let the launches of a device run, none waits for itself or for a later
one, and there is always one that can go on. While none has failed, those that conflict are in order, and once all have
succeeded the allocations are as if each had run when it was dispatched. -/
theorem launches_are_orderly (runs : Runs es q) : Orderly es q where
  launches := runs.launches
  backward := runs.backward.backward
  ordered fine := (runs.tracked fine).ordered
  moves _ := runs.backward.first_moves
  contents succeeded ordinal := by
    have ended : waitingOf q.entries = [] := by
      refine List.map_eq_nil_iff.mpr (List.filter_eq_nil_iff.mpr fun e member => ?_)
      simp [succeeded e member]
    have fine : q.Fine := fun e member => by simp [succeeded e member]
    have replayed := ((runs.drains fine).replays q.memory).mp (by rw [ended]; rfl)
    have met := Accelerator.acts_meet (.new ordinal) replayed
    rcases ran : (es.forM Event.act).start { ordinal } with ⟨_ | ⟨⟩, a⟩
    · exact absurd (met.of_error ran) id
    · obtain ⟨ideal, memory⟩ := met.of_ok ran
      exact ⟨a, rfl, ideal.healthy.clean, memory⟩

/-- A launch that leaves its output as it is, from one block to another. -/
def relay (source target : BlockId) : Launch BlockId where
  label := "relay"
  op := .unary .neg
  kernel _ args := .ok args.out
  inputs := [(source, [1])]
  output := target
  shape := [1]
  math := {}

theorem relay_touches {source target b : BlockId} :
    (relay source target).Touches b ↔ b = target ∨ b = source := by
  simp [Launch.Touches, relay]

/-- Of two launches on the same blocks, the second one waits for the first one, which has run. -/
theorem launches_are_orderly_relay : ∃ q : Queue, q.entries.map Entry.status = [.succeeded, .waiting] ∧
    Orderly [.alloc .i32 1, .alloc .i32 1, .launch (relay 0 1), .launch (relay 1 0)] q := by
  have allocated := (Runs.start.alloc .i32 (n := 1) (by decide)).alloc .i32 (n := 1) (by decide)
  have dispatched := (allocated.launch (l := relay 0 1) fun b touches => by
    rcases relay_touches.mp touches with rfl | rfl <;> rfl).launch (l := relay 1 0) fun b touches => by
    rcases relay_touches.mp touches with rfl | rfl <;> rfl
  have ran := @Runs.succeed _ _ [] _ _ (.zeros .i32 1) dispatched ⟨rfl, rfl, nofun⟩ rfl
  exact ⟨_, rfl, launches_are_orderly ran⟩

/-- A reader is forgotten once a writer after it has failed for another reason: the block is replaced, and the next
launch that writes it does not wait for the reader. -/
theorem conflict_forgotten : ∃ (es : List Event) (q : Queue) (i j : LaunchId) (x y : Entry), Runs es q ∧ i < j ∧
    q.entries[i]? = some x ∧ q.entries[j]? = some y ∧ x.launch.Conflicts y.launch ∧
    ¬ TransGen q.WaitsFor j i ∧ ¬ y.seen i := by
  have two := (Runs.start.alloc .i32 (n := 1) (by decide)).alloc .i32 (n := 1) (by decide)
  have four := (two.alloc .i32 (n := 1) (by decide)).alloc .i32 (n := 1) (by decide)
  have writes := four.launch (l := relay 3 1) fun b touches => by
    rcases relay_touches.mp touches with rfl | rfl <;> rfl
  have reads := writes.launch (l := relay 0 2) fun b touches => by
    rcases relay_touches.mp touches with rfl | rfl <;> rfl
  have overwrites := reads.launch (l := relay 1 0) fun b touches => by
    rcases relay_touches.mp touches with rfl | rfl <;> rfl
  have failed := @Runs.fail _ _ [] _ _ _ overwrites ⟨rfl, rfl, nofun⟩ fun _ _ => rfl
  -- The third launch ends with the first one, while the second one still reads.
  have quits := @Runs.quit _ _ [_, _] [] _ failed ⟨rfl, rfl, [], 0, [1], rfl, nofun, rfl⟩
  have uploaded := @Runs.upload _ _ (.zeros .i32 1) _ 1 0 _ quits (by decide) rfl rfl
  have last := uploaded.launch (l := relay 3 0) fun b touches => by
    rcases relay_touches.mp touches with rfl | rfl <;> rfl
  refine ⟨_, _, 1, 3, _, _, last, by decide, rfl, rfl, ⟨0, .inr (by simp [relay]), .inl rfl, .inr rfl⟩, ?_, nofun⟩
  intro path
  obtain ⟨d, ⟨e, at_, dep⟩, -⟩ := TransGen.head'_iff.mp path
  cases at_
  exact absurd dep (List.not_mem_nil)

end Queue

end TensorGraph
