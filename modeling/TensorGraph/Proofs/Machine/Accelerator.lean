import TensorGraph.Device.Accelerator
import TensorGraph.Proofs.Logic.Action
import TensorGraph.Proofs.Machine.Memory

/-! What accelerators do to their blocks. A block is tainted while its last writer is a launch that failed:
then nobody can read it without hearing of the failure, and whatever is computed from it is tainted too. -/
namespace TensorGraph

open TensorGraph.Action

/-- The answer that a slot has no buffer. -/
def Error.Vacant (e : Error) : Prop := ∃ slot : Nat, e = .message s!"slot {slot} is empty"

theorem Error.not_vacant {text : String} (other : text.toList.head? ≠ some 's') :
    ¬ (Error.message text).Vacant := by
  rintro ⟨slot, same⟩
  rw [Error.message.inj same] at other
  exact other (by simp [toString])

namespace Hazards

/-- The first launch to wait for is the last writer. -/
theorem writer_pending {h : Hazards} {l : LaunchId} (writer : h.writer = some l) : l ∈ h.pending := by
  simp [pending, writer]

end Hazards

namespace Tracker

variable {t : Tracker} {b b' : BlockId}

theorem get_set (h : Hazards) : (t.set b h).get b' = if b' = b then h else t.get b' := by
  unfold set get
  by_cases same : b' = b
  · subst same
    simp
  · have other : (b == b') = false := by simp [Ne.symm same]
    simp only [List.find?_cons, other, if_neg same, List.find?_filter]
    congr 2
    funext e
    by_cases here : e.1 = b'
    · simp [here, same]
    · simp [here]

/-- Reads leave the last writers as they are, and wait for them. -/
theorem trackReads_spec (finished : LaunchId → Bool) (launch : LaunchId) (bs : List BlockId) :
    (∀ b, ((trackReads finished launch t bs).1.get b).writer = (t.get b).writer) ∧
      (∀ b, b ∉ bs → (trackReads finished launch t bs).1.get b = t.get b) ∧
      ∀ b ∈ bs, ∀ l, (t.get b).writer = some l → l ∈ (trackReads finished launch t bs).2 := by
  induction bs generalizing t with
  | nil => exact ⟨fun _ => rfl, fun _ _ => rfl, fun _ wrong => by cases wrong⟩
  | cons a bs ih =>
    obtain ⟨writers, others, deps⟩ := ih (t := t.set a { t.get a with
      readers := ((t.get a).readers.filter fun r => !finished r) ++ [launch] })
    have same : ∀ b, ((t.set a { t.get a with
        readers := ((t.get a).readers.filter fun r => !finished r) ++ [launch] }).get b).writer =
        (t.get b).writer := by
      intro b
      rw [get_set]
      split
      · rename_i here
        rw [here]
      · rfl
    refine ⟨fun b => (writers b).trans (same b), fun b outside => ?_, fun b member l writer => ?_⟩
    · rw [List.mem_cons, not_or] at outside
      refine (others b outside.2).trans ?_
      rw [get_set, if_neg outside.1]
    · rcases List.mem_cons.mp member with rfl | later
      · simp [trackReads, writer]
      · simp only [trackReads]
        exact List.mem_append_right _ (deps b later l ((same b).trans writer))

/-- A launch becomes the last writer of its output, and waits for the last writers of all that it
touches. -/
theorem track_spec (finished : LaunchId → Bool) (launch : LaunchId) (inputs : List BlockId)
    (out : BlockId) :
    ((t.track finished launch inputs out).1.get out).writer = some launch ∧
      (∀ b, b ≠ out → ((t.track finished launch inputs out).1.get b).writer = (t.get b).writer) ∧
      (∀ b, b ≠ out → b ∉ inputs → (t.track finished launch inputs out).1.get b = t.get b) ∧
      ∀ b, b = out ∨ b ∈ inputs → ∀ l, (t.get b).writer = some l →
        l ∈ (t.track finished launch inputs out).2 := by
  obtain ⟨writers, others, deps⟩ := trackReads_spec (t := t) finished launch
    (inputs.filter fun b => b != out)
  unfold track
  refine ⟨by simp [get_set], fun b other => ?_, fun b other outside => ?_, fun b touched l writer => ?_⟩
  · simp only [get_set, if_neg other]
    exact writers b
  · simp only [get_set, if_neg other]
    exact others b fun inside => outside (List.mem_filter.mp inside).1
  · simp only
    by_cases isOut : b = out
    · subst isOut
      exact List.mem_append_right _ (Hazards.writer_pending ((writers b).trans writer))
    · refine List.mem_append_left _ (deps b (List.mem_filter.mpr ⟨touched.resolve_left isOut, ?_⟩) l writer)
      simpa using isOut

end Tracker

/-- What a device knows of a block: its contents, and whether they are the trace of a failure. -/
@[ext]
structure View where
  block : Option Block
  tainted : Bool

namespace Accelerator

variable {a a' : Accelerator} {b : BlockId}

/-- Whether a kernel broke off in a block, or the last launch that was to write it failed. -/
def tainted (a : Accelerator) (b : BlockId) : Bool :=
  (a.memory.get? b).any Block.broken || ((a.hazards.get b).writer.bind a.failure?).isSome

def view (a : Accelerator) (b : BlockId) : View := ⟨a.memory.get? b, a.tainted b⟩

/-- A device that is through with each launch before the host goes on. -/
structure Prompt (a : Accelerator) : Prop where
  patience : a.patience = none
  delayed : a.delayed = []

namespace Prompt

variable (prompt : a.Prompt)

include prompt

theorem isDelayed : a.isDelayed = fun _ => false := by
  funext l
  simp [Accelerator.isDelayed, prompt.delayed]

theorem lags (d : Delayed) : a.lags d = false := by
  unfold Accelerator.lags
  rw [prompt.isDelayed, prompt.delayed, prompt.patience]
  cases d.deps.find? fun e => false || (a.failure? e).isSome <;> rfl

theorem await (ls : List LaunchId) : a.await ls = a := by
  simp [Accelerator.await, prompt.isDelayed]

end Prompt

/-- A launch from number `first` on has failed. -/
def Blamed (a : Accelerator) (first : LaunchId) : Prop := ∃ l, first ≤ l ∧ (a.failure? l).isSome

theorem blamed_iff {first : LaunchId} :
    a.Blamed first ↔ ∃ l < a.launches, first ≤ l ∧ (a.failure? l).isSome := by
  refine exists_congr fun l => ⟨fun ⟨later, failed⟩ => ⟨Nat.lt_of_not_le fun beyond => ?_, later, failed⟩, And.right⟩
  simp [failure?, Array.getElem?_eq_none beyond] at failed

instance (a : Accelerator) (first : LaunchId) : Decidable (a.Blamed first) := decidable_of_iff _ blamed_iff.symm

/-- Launches are known once they were dispatched, touch blocks that were allocated, and are not left behind. -/
structure Sane (a : Accelerator) : Prop where
  prompt : a.Prompt
  writer : ∀ {b : BlockId} {l : LaunchId}, (a.hazards.get b).writer = some l → l < a.launches
  fresh : ∀ {b : BlockId}, a.memory.next ≤ b → a.hazards.get b = {}

/-- Nothing has failed, and nothing is bound to fail. -/
structure Healthy (a : Accelerator) : Prop where
  limit : a.limit = none
  fault : a.fault = none
  alive : a.lost = false
  unheard : a.lossSeen = false
  clean : ∀ l, a.failure? l = none
  whole : ∀ {b : BlockId} {block : Block}, a.memory.get? b = some block → block.broken = false

theorem Healthy.knowsLoss (healthy : a.Healthy) : a.knowsLoss = false := by
  simp [Accelerator.knowsLoss, healthy.alive, healthy.unheard]

/-- Only some blocks were altered. If that was loud, a launch failed. -/
structure Alters (a a' : Accelerator) (touched : BlockId → Prop) (loud : Prop) : Prop where
  view : ∀ b, ¬ touched b → a'.view b = a.view b
  sane : a.Sane → a'.Sane
  healthy : a.Healthy → a'.Healthy ∨ loud
  blamed : ∀ first, a'.Blamed first → a.Blamed first ∨ loud
  recorded : ∀ first, a.Blamed first → a'.Blamed first
  launches : a.launches ≤ a'.launches

theorem Alters.refl (a : Accelerator) : a.Alters a (fun _ => False) False :=
  ⟨fun _ _ => rfl, id, .inl, fun _ => .inl, fun _ => id, Nat.le_refl _⟩

/-- What was heard of launches changes no block. -/
theorem alters_of_same (memory : a'.memory = a.memory) (hazards : a'.hazards = a.hazards)
    (log : a'.log = a.log) (prompt : a.Prompt → a'.Prompt) (healthy : a.Healthy → a'.Healthy) :
    a.Alters a' (fun _ => False) False := by
  have failures : a'.failure? = a.failure? := by
    funext l
    simp only [failure?, log]
  have count : a'.launches = a.launches := by simp only [launches, log]
  refine ⟨fun b _ => ?_, fun sane => ⟨prompt sane.prompt, ?_, ?_⟩, fun held => .inl (healthy held), ?_, ?_,
    Nat.le_of_eq count.symm⟩
  · simp only [view, tainted, memory, hazards, failures]
  · rw [hazards, count]
    exact sane.writer
  · rw [hazards, memory]
    exact sane.fresh
  · intro first blamed
    simp only [Blamed, failures] at blamed
    exact .inl blamed
  · intro first blamed
    simpa only [Blamed, failures] using blamed

section Specs

variable {fails : Error → Accelerator → Prop}

theorem checkAlive_meets (op : String) : (checkAlive op).Meets a
    (fun e a' => a' = a ∧ ¬ e.Vacant ∧ ¬ a.Healthy) fun _ a' => a' = a := by
  unfold checkAlive
  rw [meets_bind, meets_get]
  by_cases seen : a.knowsLoss
  · rw [if_pos seen, meets_throw]
    refine ⟨rfl, ?_, fun healthy => ?_⟩
    · rintro ⟨slot, wrong⟩
      cases wrong
    · exact Bool.noConfusion (healthy.knowsLoss.symm.trans seen)
  · rw [if_neg seen, meets_pure]

theorem settle_meets (prompt : a.Prompt) (ls : List LaunchId) : (settle ls).Meets a fails
    fun _ a' => a.Alters a' (fun _ => False) False ∧ a'.failure? = a.failure? ∧
      a'.memory = a.memory ∧ a'.hazards = a.hazards ∧ a'.log = a.log ∧ a'.Prompt := by
  unfold settle
  rw [meets_modify]
  simp only [prompt.await]
  split
  · rename_i fatal
    refine ⟨alters_of_same rfl rfl rfl (fun prompt => ⟨prompt.patience, prompt.delayed⟩) fun healthy => ?_,
      rfl, rfl, rfl, rfl, prompt.patience, prompt.delayed⟩
    obtain ⟨l, -, failed⟩ := List.any_eq_true.mp fatal
    rw [healthy.clean l] at failed
    cases failed
  · exact ⟨.refl a, rfl, rfl, rfl, rfl, prompt⟩

theorem wait_meets (prompt : a.Prompt) (ls : List LaunchId) : (wait ls).Meets a
    (fun e a' => a.Alters a' (fun _ => False) False ∧ ¬ e.Vacant ∧ ¬ a.Healthy)
    fun _ a' => a.Alters a' (fun _ => False) False ∧ (∀ l ∈ ls, a.failure? l = none) ∧
      a'.memory = a.memory := by
  unfold wait
  rw [meets_bind]
  refine (settle_meets prompt ls).post ?_
  rintro _ a₁ ⟨alters, failures, memory, -, -, -⟩
  rw [meets_bind, meets_get]
  have same : a₁.firstFailure? ls = ls.findSome? a.failure? := by rw [firstFailure?, failures]
  rw [same]
  cases found : ls.findSome? a.failure? with
  | some f =>
    simp only [meets_throw]
    refine ⟨alters, ?_, fun healthy => ?_⟩
    · rintro ⟨slot, wrong⟩
      cases wrong
    · obtain ⟨l, -, failed⟩ := List.exists_of_findSome?_eq_some found
      rw [healthy.clean l] at failed
      cases failed
  | none =>
    simp only [meets_pure]
    exact ⟨alters, List.findSome?_eq_none_iff.mp found, memory⟩

/-- A request for a block is not refused. -/
structure Grants (a : Accelerator) (kind : Kind) (n : Nat) : Prop where
  alive : a.knowsLoss = false
  admits : a.refusal? (n * kind.bytes) = none
  room : n < Shape.capacity

/-- The bytes of a block that there may be memory for are a machine word. -/
theorem bytes_lt_word {n : Nat} (room : n < Shape.capacity) (kind : Kind) : n * kind.bytes < Shape.word := by
  unfold Shape.capacity at room
  unfold Shape.word
  cases kind <;> simp only [Kind.bytes] <;> omega

theorem max_one_lt_capacity {n : Nat} (room : n < Shape.capacity) : max n 1 < Shape.capacity := by
  unfold Shape.capacity at room ⊢
  omega

/-- Without a limit only what no machine word counts is refused. -/
theorem refusal?_eq_some {bytes : Nat} {e : Error} (refused : a.refusal? bytes = some e) :
    ¬ e.Vacant ∧ (bytes < Shape.word → a.limit ≠ none) := by
  unfold refusal? at refused
  split at refused
  · cases refused
    exact ⟨nofun, fun counted => absurd counted (Nat.not_lt.mpr ‹_›)⟩
  · obtain ⟨limit, limited, refused⟩ := Option.bind_eq_some_iff.mp refused
    refine ⟨?_, fun _ unlimited => nomatch limited.symm.trans unlimited⟩
    split at refused
    · cases refused
      exact nofun
    · split at refused <;> cases refused
      exact nofun

/-- An allocation is granted as a whole, or refused and nothing is changed. What no memory has room for is counted
before it fails. -/
theorem alloc_decides (a : Accelerator) (kind : Kind) (n : Nat) : (alloc kind n).Meets a
    (fun e a' => ¬ a.Grants kind n ∧ (a' = a ∧ (a.knowsLoss ∧ ¬ e.Vacant ∨ a.refusal? (n * kind.bytes) = some e) ∨
      e = .crash ∧ Shape.capacity ≤ n ∧
        a' = { a with memory := { a.memory with inUse := a.memory.inUse + n * kind.bytes } }))
    fun b a' => a.Grants kind n ∧ b = a.memory.next ∧ a' = { a with memory := a.memory.alloc kind n } := by
  unfold alloc checkAlive
  rw [meets_bind, meets_bind, meets_get]
  by_cases seen : a.knowsLoss
  · rw [if_pos seen, meets_throw]
    exact ⟨fun grants => Bool.noConfusion (grants.alive.symm.trans seen), .inl ⟨rfl, .inl ⟨seen, nofun⟩⟩⟩
  rw [if_neg seen, meets_pure, meets_bind, meets_get]
  have alive : a.knowsLoss = false := Bool.eq_false_iff.mpr seen
  cases refused : a.refusal? (n * kind.bytes) with
  | some e => exact ⟨fun grants => (nomatch refused.symm.trans grants.admits), .inl ⟨rfl, .inr rfl⟩⟩
  | none =>
    by_cases room : n < Shape.capacity
    · simp only [if_pos room]
      exact ⟨⟨alive, refused, room⟩, rfl, rfl⟩
    · simp only [if_neg room]
      exact ⟨fun grants => room grants.room, .inr ⟨rfl, Nat.not_lt.mp room, rfl⟩⟩

/-- A request that is refused changes nothing, unless it is a crash for want of any memory that has room. -/
theorem alloc_refused {a a' : Accelerator} {kind : Kind} {n : Nat} {e : Error}
    (ran : (alloc kind n).start a = (.error e, a')) : a' = a ∨ e = .crash ∧ Shape.capacity ≤ n := by
  obtain ⟨-, ⟨same, -⟩ | ⟨crash, beyond, -⟩⟩ := (alloc_decides a kind n).of_error ran
  · exact .inl same
  · exact .inr ⟨crash, beyond⟩

/-- Where nothing is wrong, every request for a block that there may be memory for is granted. -/
theorem Healthy.grants (healthy : a.Healthy) (kind : Kind) {n : Nat} (room : n < Shape.capacity) : a.Grants kind n where
  alive := healthy.knowsLoss
  room := room
  admits := by
    rw [Option.eq_none_iff_forall_ne_some]
    intro e refused
    exact (refusal?_eq_some refused).2 (bytes_lt_word room kind) healthy.limit

/-- A new block is of zeros, and nobody has touched it. -/
theorem alloc_meets (sane : a.Sane) (kind : Kind) (n : Nat) : (alloc kind n).Meets a
    (fun e a' => n < Shape.capacity → a' = a ∧ ¬ e.Vacant ∧ ¬ a.Healthy)
    fun b a' => a.memory.get? b = none ∧ a.Alters a' (· = b) False ∧ a'.view b =
      ⟨some { data := .zeros kind n, bytes := n * kind.bytes, holders := 1 }, false⟩ := by
  refine (alloc_decides a kind n).mono ?_ ?_
  · rintro e a' ⟨denied, ⟨rfl, why⟩ | ⟨-, beyond, -⟩⟩ room
    · exact ⟨rfl, why.elim And.right fun refused => (refusal?_eq_some refused).1,
        fun healthy => denied (healthy.grants kind room)⟩
    · exact absurd room (Nat.not_lt.mpr beyond)
  rintro _ _ ⟨-, rfl, rfl⟩
  refine ⟨Memory.get?_next, ?_, ?_⟩
  -- A block that is new has no writer.
  · refine ⟨fun b other => ?_, fun sane => ⟨⟨sane.prompt.patience, sane.prompt.delayed⟩, sane.writer, ?_⟩,
      fun healthy => .inl ?_, fun _ => .inl,
      fun _ => id, Nat.le_refl _⟩
    · simp only [view, tainted, Memory.get?_alloc, if_neg other]
      rfl
    · intro b beyond
      rw [Memory.next_alloc] at beyond
      exact sane.fresh (Nat.le_of_succ_le beyond)
    · refine { healthy with clean := healthy.clean, whole := fun {b block} at_ => ?_ }
      rw [Memory.get?_alloc] at at_
      split at at_
      · cases at_
        rfl
      · exact healthy.whole at_
  · simp only [view, tainted, Memory.get?_alloc, ↓reduceIte]
    rw [sane.fresh (Nat.le_refl _)]
    rfl

theorem contents_meets {block : Block} (at_ : a.memory.get? b = some block) : (contents b).Meets a
    (fun e a' => a' = a ∧ ¬ e.Vacant ∧ ¬ a.Healthy)
    fun data a' => a' = a ∧ data = block.data ∧ block.broken = false := by
  unfold contents
  rw [meets_bind, meets_get, at_]
  by_cases broken : block.broken
  · simp only [if_pos broken]
    rw [meets_bind, meets_throw]
    refine ⟨rfl, Error.not_vacant (by decide), fun healthy => ?_⟩
    rw [healthy.whole at_] at broken
    cases broken
  · simp only [if_neg broken]
    exact ⟨rfl, rfl, by simpa using broken⟩

/-- An upload replaces the contents of a block, whatever its earlier writers came to. -/
theorem upload_meets (prompt : a.Prompt) {block : Block} (at_ : a.memory.get? b = some block) {source : Data} {n : Nat}
    {data : Data} (copied : block.data.copyFrom source n = .ok data) : (upload source n b).Meets a
    (fun e a' => a.Alters a' (fun _ => False) False ∧ ¬ e.Vacant ∧ ¬ a.Healthy)
    fun _ a' => a.Alters a' (· = b) False ∧ a'.view b = ⟨some { block with data }, false⟩ := by
  unfold upload
  rw [meets_bind, meets_get, meets_bind]
  refine (settle_meets prompt _).post fun _ a₁ ⟨alters, failures, memory, hazards, log, prompt₁⟩ => ?_
  have at₁ : a₁.memory.get? b = some block := by rw [memory]; exact at_
  rw [meets_bind]
  refine (contents_meets at₁).mono ?_ ?_
  · rintro e a₂ ⟨rfl, notVacant, ill⟩
    exact ⟨alters, notVacant, fun healthy => ill ((alters.healthy healthy).resolve_right id)⟩
  rintro _ a₂ ⟨rfl, rfl, unbroken⟩
  rw [meets_bind, meets_lift, copied]
  simp only
  rw [meets_modify]
  have got : ∀ b', (a₂.memory.write b data).get? b' =
      if b' = b then some { block with data } else a₂.memory.get? b' := by
    intro b'
    rw [Memory.get?_write, at₁]
    rfl
  refine ⟨⟨fun b' other => ?_, fun sane => ⟨⟨prompt₁.patience, prompt₁.delayed⟩, ?_, ?_⟩,
    fun healthy => .inl ?_, ?_, ?_, ?_⟩, ?_⟩
  · rw [← alters.view b' id]
    simp only [view, tainted, got, if_neg other, Tracker.clear, Tracker.get_set]
    rfl
  · intro b' l writer
    simp only [Tracker.clear, Tracker.get_set] at writer
    split at writer
    · cases writer
    · exact (alters.sane sane).writer writer
  · intro b' beyond
    rw [Memory.next_write] at beyond
    simp only [Tracker.clear, Tracker.get_set]
    split
    · rfl
    · exact (alters.sane sane).fresh beyond
  · have healthy₂ := (alters.healthy healthy).resolve_right id
    refine { healthy₂ with clean := healthy₂.clean, whole := fun {b' block'} here => ?_ }
    rw [got] at here
    split at here
    · cases here
      exact unbroken
    · exact healthy₂.whole here
  · exact alters.blamed
  · exact alters.recorded
  · exact alters.launches
  · simp only [view, tainted, got, ↓reduceIte, Tracker.clear, Tracker.get_set, Option.any_some, unbroken]
    rfl

/-- Whoever reads a block hears of the failure of its last writer. -/
theorem download_meets (prompt : a.Prompt) {block : Block} (at_ : a.memory.get? b = some block) {n : Nat} {data : Data}
    (taken : a.tainted b = false → block.data.take n = .ok data) : (download b n).Meets a
    (fun e a' => a.Alters a' (fun _ => False) False ∧ ¬ e.Vacant ∧ ¬ a.Healthy)
    fun d a' => a.Alters a' (fun _ => False) False ∧ d = data ∧ a.tainted b = false := by
  unfold download
  rw [meets_bind, meets_get, meets_bind]
  refine (wait_meets prompt _).post fun _ a₁ ⟨alters, fine, memory⟩ => ?_
  have at₁ : a₁.memory.get? b = some block := by rw [memory]; exact at_
  rw [meets_bind]
  refine (contents_meets at₁).mono ?_ ?_
  · rintro e a₂ ⟨rfl, notVacant, ill⟩
    exact ⟨alters, notVacant, fun healthy => ill ((alters.healthy healthy).resolve_right id)⟩
  rintro _ a₂ ⟨rfl, rfl, unbroken⟩
  have clean : a.tainted b = false := by
    unfold tainted
    rw [at_, Option.any_some, unbroken]
    cases writer : (a.hazards.get b).writer with
    | none => rfl
    | some l =>
      have succeeded := fine l (by simp [writer])
      simp [succeeded]
  rw [meets_lift, taken clean]
  exact ⟨alters, rfl, clean⟩

theorem settleBlock_meets (prompt : a.Prompt) (b : BlockId) : (settleBlock b).Meets a
    (fun e a' => a.Alters a' (fun _ => False) False ∧ ¬ e.Vacant ∧ ¬ a.Healthy)
    fun _ a' => a.Alters a' (fun _ => False) False := by
  unfold settleBlock
  rw [meets_bind, meets_get]
  exact (wait_meets prompt _).post fun _ _ held => held.1

theorem synchronize_meets (prompt : a.Prompt) : synchronize.Meets a
    (fun _ a' => a.Alters a' (fun _ => False) False ∧ ¬ a.Healthy)
    fun _ a' => a.Alters a' (fun _ => False) False := by
  unfold synchronize
  rw [meets_bind, meets_get, meets_bind, meets_modify, meets_bind]
  have first : a.Alters { a with unseen := [] } (fun _ => False) False :=
    alters_of_same rfl rfl rfl (fun prompt => ⟨prompt.patience, prompt.delayed⟩) fun healthy =>
      { healthy with whole := healthy.whole, clean := healthy.clean }
  have whole : ∀ {a'}, Accelerator.Alters { a with unseen := [] } a' (fun _ => False) False →
      a.Alters a' (fun _ => False) False := fun second =>
    ⟨fun b other => (second.view b other).trans (first.view b other), fun sane => second.sane (first.sane sane),
      fun healthy => second.healthy ((first.healthy healthy).resolve_right id),
      fun from_ blamed => (second.blamed from_ blamed).imp_left fun old => (first.blamed from_ old).resolve_right id,
      fun from_ blamed => second.recorded from_ (first.recorded from_ blamed),
      Nat.le_trans first.launches second.launches⟩
  refine (wait_meets (a := { a with unseen := [] }) ⟨prompt.patience, prompt.delayed⟩ _).mono ?_ ?_
  · rintro e a₁ ⟨second, -, ill⟩
    exact ⟨whole second, fun healthy => ill ((first.healthy healthy).resolve_right id)⟩
  · rintro _ a₁ ⟨second, -, -⟩
    refine (checkAlive_meets "synchronize").mono ?_ ?_
    · rintro e a₂ ⟨rfl, -, ill⟩
      exact ⟨whole second, fun healthy => ill (((whole second).healthy healthy).resolve_right id)⟩
    · rintro _ a₂ rfl
      exact whole second

end Specs

section Launches

variable {l : Launch BlockId} {deps : List LaunchId}

/-- What a launch comes to: it computes its output, or fails and leaves the data as they are. -/
theorem run_spec (a : Accelerator) (id : LaunchId) (l : Launch BlockId) (deps : List LaunchId) :
    (a.run id l deps).2.hazards = a.hazards ∧ (a.run id l deps).2.log = a.log ∧
      ((a.run id l deps).2.delayed = a.delayed ∧ (a.run id l deps).2.patience = a.patience) ∧
      ((∃ data, a.compute l = .ok data ∧ (∀ d ∈ deps, a.failure? d = none) ∧
          a.touchesBroken l = false ∧
          a.run id l deps = (none, { a with memory := a.memory.write l.output data })) ∨
        ((a.run id l deps).1.isSome ∧ ((a.run id l deps).2.memory = a.memory ∨
          (a.run id l deps).2.memory = a.memory.damage l.output) ∧
          (a.Healthy → ∃ e, a.compute l = .error e))) := by
  generalize ran : a.run id l deps = result
  unfold run at ran
  split at ran
  · rename_i f failed
    subst ran
    refine ⟨rfl, rfl, ⟨rfl, rfl⟩, .inr ⟨rfl, .inl rfl, fun healthy => ?_⟩⟩
    obtain ⟨d, -, found⟩ := List.exists_of_findSome?_eq_some failed
    rw [healthy.clean d] at found
    cases found
  · rename_i fault failed faulty
    have ill : ¬ a.Healthy := by
      intro healthy
      rw [healthy.fault] at faulty
      cases faulty
    split at ran <;> subst ran <;>
      exact ⟨rfl, rfl, ⟨rfl, rfl⟩, .inr ⟨rfl, .inl rfl, fun healthy => absurd healthy ill⟩⟩
  · rename_i failed faulty
    have fine : ∀ d ∈ deps, a.failure? d = none := List.findSome?_eq_none_iff.mp failed
    split at ran
    · rename_i lost
      subst ran
      refine ⟨rfl, rfl, ⟨rfl, rfl⟩, .inr ⟨rfl, .inl rfl, fun healthy => ?_⟩⟩
      rw [healthy.alive] at lost
      cases lost
    split at ran
    · rename_i broken
      subst ran
      refine ⟨rfl, rfl, ⟨rfl, rfl⟩, .inr ⟨rfl, .inl rfl, fun healthy => ?_⟩⟩
      obtain ⟨b, -, here⟩ := List.any_eq_true.mp broken
      obtain ⟨block, at_, wrong⟩ : ∃ block, a.memory.get? b = some block ∧ block.broken := by
        simpa [Option.any_eq_true] using here
      rw [healthy.whole at_] at wrong
      cases wrong
    rename_i unbroken
    split at ran
    · rename_i data computed
      exact ⟨by rw [← ran], by rw [← ran], by rw [← ran]; exact ⟨rfl, rfl⟩,
        .inl ⟨data, computed, fine, by simpa using unbroken, ran.symm⟩⟩
    · rename_i computed
      subst ran
      exact ⟨rfl, rfl, ⟨rfl, rfl⟩, .inr ⟨rfl, .inr rfl, fun _ => ⟨_, computed⟩⟩⟩
    · rename_i e _ computed
      subst ran
      exact ⟨rfl, rfl, ⟨rfl, rfl⟩, .inr ⟨rfl, .inl rfl, fun _ => ⟨e, computed⟩⟩⟩

/-- A launch makes no block. -/
theorem next_run (a : Accelerator) (id : LaunchId) (l : Launch BlockId) (deps : List LaunchId) :
    (a.run id l deps).2.memory.next = a.memory.next := by
  obtain ⟨-, -, -, ⟨data, -, -, -, ran⟩ | ⟨-, same | damaged, -⟩⟩ := run_spec a id l deps
  · rw [ran, Memory.next_write]
  · rw [same]
  · rw [damaged, Memory.next_damage]

theorem next_landAll (a : Accelerator) : a.landAll.memory.next = a.memory.next :=
  List.foldlRecOn a.delayed land (motive := fun a' => a'.memory.next = a.memory.next) rfl
    fun a' same d _ => (next_run a' d.id d.launch d.deps).trans same

/-- What a device notes of a launch, however the launch goes. -/
structure Notes (a a' : Accelerator) (l : Launch BlockId) (failure : Option Failure) : Prop where
  prompt : a'.Prompt
  log : a'.log = a.log.push failure
  writer : (a'.hazards.get l.output).writer = some a.launches
  writers : ∀ b, b ≠ l.output → (a'.hazards.get b).writer = (a.hazards.get b).writer
  untouched : ∀ b, b ≠ l.output → b ∉ l.inputs.map Prod.fst → a'.hazards.get b = a.hazards.get b

namespace Notes

variable {failure : Option Failure}

theorem launches (notes : a.Notes a' l failure) : a'.launches = a.launches + 1 := by
  simp [Accelerator.launches, notes.log]

theorem failure_new (notes : a.Notes a' l failure) : a'.failure? a.launches = failure := by
  simp [failure?, notes.log, Accelerator.launches]

theorem failure_old (notes : a.Notes a' l failure) {k : LaunchId} (old : k ≠ a.launches) :
    a'.failure? k = a.failure? k := by
  simp only [failure?, notes.log, Array.getElem?_push, if_neg (show k ≠ a.log.size from old)]

theorem blamed (notes : a.Notes a' l failure) {first : LaunchId} (blamed : a.Blamed first) : a'.Blamed first := by
  obtain ⟨k, later, held⟩ := blamed
  have old : k ≠ a.launches := by
    rintro rfl
    simp [failure?, Accelerator.launches] at held
  exact ⟨k, later, by rwa [notes.failure_old old]⟩

theorem sane (notes : a.Notes a' l failure) (sane : a.Sane) (output : (a.memory.get? l.output).isSome)
    (known : ∀ e ∈ l.inputs, (a.memory.get? e.1).isSome) (next : a'.memory.next = a.memory.next) : a'.Sane := by
  have inside : ∀ {b : BlockId}, (a.memory.get? b).isSome → b < a.memory.next := fun there => by
    obtain ⟨block, at_⟩ := Option.isSome_iff_exists.mp there
    exact Memory.lt_of_get? at_
  refine ⟨notes.prompt, fun {b k} held => ?_, fun {b} beyond => ?_⟩
  · rw [notes.launches]
    by_cases isOut : b = l.output
    · rw [isOut, notes.writer] at held
      cases held
      exact Nat.lt_succ_self _
    · rw [notes.writers b isOut] at held
      exact Nat.lt_succ_of_lt (sane.writer held)
  · rw [next] at beyond
    have notOut : b ≠ l.output := by
      rintro rfl
      exact absurd (inside output) (Nat.not_lt.mpr beyond)
    have notIn : b ∉ l.inputs.map Prod.fst := by
      intro member
      obtain ⟨e, inInputs, rfl⟩ := List.mem_map.mp member
      exact absurd (inside (known e inInputs)) (Nat.not_lt.mpr beyond)
    rw [notes.untouched b notOut notIn]
    exact sane.fresh beyond

theorem view (notes : a.Notes a' l failure) (sane : a.Sane) (other : b ≠ l.output)
    (same : a'.memory.get? b = a.memory.get? b) : a'.view b = a.view b := by
  unfold Accelerator.view tainted
  rw [same, notes.writers b other]
  cases writer : (a.hazards.get b).writer with
  | none => rfl
  | some k =>
    rw [Option.bind_some, Option.bind_some, notes.failure_old (Nat.ne_of_lt (sane.writer writer))]

theorem view_output (notes : a.Notes a' l failure) {block : Block} (at_ : a'.memory.get? l.output = some block) :
    a'.view l.output = ⟨some block, block.broken || failure.isSome⟩ := by
  unfold Accelerator.view tainted
  rw [at_, notes.writer, Option.bind_some, notes.failure_new, Option.any_some]

/-- A launch that failed leaves a trace, and the data as they were. -/
theorem alters_failed (notes : a.Notes a' l failure) (sane : a.Sane) (failed : failure.isSome) {block : Block}
    (at_ : a.memory.get? l.output = some block) (known : ∀ e ∈ l.inputs, (a.memory.get? e.1).isSome)
    (memory : a'.memory = a.memory ∨ a'.memory = a.memory.damage l.output) :
    a.Alters a' (· = l.output) True ∧ a'.Blamed a.launches ∧
      ∃ block', a'.view l.output = ⟨some block', true⟩ ∧ block'.data = block.data ∧ block'.holders = block.holders := by
  have others : ∀ b, b ≠ l.output → a'.memory.get? b = a.memory.get? b := fun b other => by
    rcases memory with same | damaged
    · rw [same]
    · rw [damaged, Memory.get?_damage, if_neg other]
  have next : a'.memory.next = a.memory.next := by
    rcases memory with same | damaged
    · rw [same]
    · rw [damaged, Memory.next_damage]
  have here : ∃ block', a'.memory.get? l.output = some block' ∧ block'.data = block.data ∧
      block'.holders = block.holders := by
    rcases memory with same | damaged
    · exact ⟨block, by rw [same, at_], rfl, rfl⟩
    · rw [damaged, Memory.get?_damage, if_pos rfl, at_]
      exact ⟨{ block with broken := true }, rfl, rfl, rfl⟩
  obtain ⟨block', atOut, sameData, sameHolders⟩ := here
  refine ⟨?_, ⟨a.launches, Nat.le_refl _, by rwa [notes.failure_new]⟩, block', ?_, sameData, sameHolders⟩
  · exact {
      view := fun b other => notes.view sane other (others b other)
      sane := fun _ => notes.sane sane (by rw [at_]; rfl) known next
      healthy := fun _ => .inr trivial
      blamed := fun _ _ => .inr trivial
      recorded := fun _ => notes.blamed
      launches := by rw [notes.launches]; exact Nat.le_succ _ }
  · rw [notes.view_output atOut, failed, Bool.or_true]

/-- A launch that succeeded has written its output and nothing else. -/
theorem alters_written (notes : a.Notes a' l none) (sane : a.Sane) {block : Block}
    (at_ : a.memory.get? l.output = some block) (known : ∀ e ∈ l.inputs, (a.memory.get? e.1).isSome) {data : Data}
    (memory : a'.memory = a.memory.write l.output data) (limit : a'.limit = a.limit) (fault : a'.fault = a.fault)
    (lost : a'.lost = a.lost) (lossSeen : a'.lossSeen = a.lossSeen) (clean : a.tainted l.output = false) :
    a.Alters a' (· = l.output) False ∧ a'.view l.output = ⟨some { block with data }, false⟩ := by
  have got : ∀ b, a'.memory.get? b = if b = l.output then some { block with data } else a.memory.get? b := fun b => by
    rw [memory, Memory.get?_write, at_]
    rfl
  have unbroken : block.broken = false := by
    unfold tainted at clean
    rw [at_, Bool.or_eq_false_iff] at clean
    exact clean.1
  have failures : ∀ k, (a'.failure? k).isSome → (a.failure? k).isSome := fun k held => by
    by_cases new : k = a.launches
    · rw [new, notes.failure_new] at held
      cases held
    · rwa [notes.failure_old new] at held
  refine ⟨?_, ?_⟩
  · exact {
      view := fun b other => notes.view sane other (by rw [got, if_neg other])
      sane := fun _ => notes.sane sane (by rw [at_]; rfl) known (by rw [memory, Memory.next_write])
      healthy := fun healthy => .inl {
        limit := limit.trans healthy.limit
        fault := fault.trans healthy.fault
        alive := lost.trans healthy.alive
        unheard := lossSeen.trans healthy.unheard
        clean := fun k => by
          refine Option.not_isSome_iff_eq_none.mp fun held => ?_
          have old := failures k held
          rw [healthy.clean k] at old
          cases old
        whole := fun {b other} here => by
          rw [got] at here
          split at here
          · cases here
            exact unbroken
          · exact healthy.whole here }
      blamed := by
        rintro first ⟨k, later, held⟩
        exact .inl ⟨k, later, failures k held⟩
      recorded := fun _ => notes.blamed
      launches := by rw [notes.launches]; exact Nat.le_succ _ }
  · rw [notes.view_output (by rw [got, if_pos rfl])]
    simp [unbroken]

end Notes

/-- A launch of which nothing is known has not failed. -/
theorem failure?_record (a : Accelerator) (l : Launch BlockId) : (a.record l).failure? = a.failure? := by
  funext k
  simp only [failure?, record, Array.getElem?_push]
  split
  · rename_i new
    simp [new]
  · rfl

theorem set_pushed {α : Type} (xs : Array α) (x y : α) : (xs.push x).setIfInBounds xs.size y = xs.push y := by
  simp [← Array.toList_inj]

/-- Every launch is noted with what it came to. When it succeeded, nothing that it touched was tainted. -/
theorem push_cases (prompt : a.Prompt) (l : Launch BlockId) : ∃ failure, a.Notes (a.push l) l failure ∧
    ((∃ data, failure = none ∧ a.compute l = .ok data ∧
        (∀ b, b = l.output ∨ b ∈ l.inputs.map Prod.fst → a.tainted b = false) ∧
        (a.push l).memory = a.memory.write l.output data ∧ (a.push l).limit = a.limit ∧ (a.push l).fault = a.fault ∧
        (a.push l).lost = a.lost ∧ (a.push l).lossSeen = a.lossSeen) ∨
      failure.isSome ∧ ((a.push l).memory = a.memory ∨ (a.push l).memory = a.memory.damage l.output) ∧
        (a.Healthy → ∃ e, a.compute l = .error e)) := by
  have tracked : a.track l = a.hazards.track (fun r => decide (r < a.launches)) a.launches
      (l.inputs.map Prod.fst) l.output := by
    unfold track
    simp only [prompt.isDelayed, Bool.not_false, Bool.and_true]
  obtain ⟨writer, others, untouched, waits⟩ := Tracker.track_spec (t := a.hazards)
    (fun r => decide (r < a.launches)) a.launches (l.inputs.map Prod.fst) l.output
  rw [← tracked] at writer others untouched waits
  obtain ⟨sameHazards, sameLog, ⟨delayed, patience⟩, outcome⟩ := run_spec (a.record l) a.launches l (a.track l).2
  have recorded : (a.record l).Prompt := ⟨prompt.patience, prompt.delayed⟩
  have pushed : a.push l = (a.record l).land ⟨a.launches, l, (a.track l).2⟩ := by
    unfold push
    simp only [recorded.lags, Bool.false_eq_true, ↓reduceIte]
  have newHazards : (a.push l).hazards = (a.track l).1 := by
    rw [pushed]
    exact sameHazards
  have notes : a.Notes (a.push l) l ((a.record l).run a.launches l (a.track l).2).1 := by
    refine ⟨?_, ?_, by rwa [newHazards], by rwa [newHazards], by rwa [newHazards]⟩
    · rw [pushed]
      exact ⟨patience.trans prompt.patience, delayed.trans prompt.delayed⟩
    · rw [pushed]
      simp only [land, sameLog]
      exact set_pushed a.log none _
  refine ⟨_, notes, ?_⟩
  rcases outcome with ⟨data, computed, fine, unbroken, ran⟩ | ⟨failed, memory, ill⟩
  · have clean : ∀ b, b = l.output ∨ b ∈ l.inputs.map Prod.fst → a.tainted b = false := by
      intro b touched
      unfold tainted
      rw [Bool.or_eq_false_iff]
      constructor
      · have listed : b ∈ l.output :: l.inputs.map Prod.fst := List.mem_cons.mpr touched
        exact Bool.eq_false_iff.mpr (List.any_eq_false.mp unbroken b listed)
      · cases held : (a.hazards.get b).writer with
        | none => rfl
        | some k =>
          have done : a.failure? k = none := failure?_record a l ▸ fine k (waits b touched k held)
          simp [done]
    refine .inl ⟨data, by rw [ran], computed, clean, ?_⟩
    simp only [pushed, land, ran]
    exact ⟨rfl, rfl, rfl, rfl, rfl⟩
  · refine .inr ⟨failed, ?_, fun healthy => ill { healthy with
      clean := by rw [failure?_record]; exact healthy.clean, whole := healthy.whole }⟩
    rw [pushed]
    exact memory

/-- A launch alters its output only. When it succeeded, nothing that it touched was tainted. -/
theorem push_spec (sane : a.Sane) {block : Block} (at_ : a.memory.get? l.output = some block)
    (known : ∀ e ∈ l.inputs, (a.memory.get? e.1).isSome) :
    (∃ data, a.compute l = .ok data ∧ (∀ b, b = l.output ∨ b ∈ l.inputs.map Prod.fst → a.tainted b = false) ∧
        a.Alters (a.push l) (· = l.output) False ∧
        (a.push l).view l.output = ⟨some { block with data }, false⟩) ∨
      ((a.Healthy → ∃ e, a.compute l = .error e) ∧ a.Alters (a.push l) (· = l.output) True ∧
        (a.push l).Blamed a.launches ∧ ∃ block', (a.push l).view l.output = ⟨some block', true⟩ ∧
          block'.data = block.data ∧ block'.holders = block.holders) := by
  obtain ⟨failure, notes, ⟨data, rfl, computed, clean, memory, limit, fault, lost, lossSeen⟩ | ⟨failed, memory, ill⟩⟩ :=
    push_cases sane.prompt l
  · exact .inl ⟨data, computed, clean,
      notes.alters_written sane at_ known memory limit fault lost lossSeen (clean _ (.inl rfl))⟩
  · exact .inr ⟨ill, notes.alters_failed sane failed at_ known memory⟩

theorem dispatch_meets (sane : a.Sane) {block : Block} (at_ : a.memory.get? l.output = some block)
    (known : ∀ e ∈ l.inputs, (a.memory.get? e.1).isSome) : (dispatch l).Meets a
    (fun e a' => a' = a ∧ ¬ e.Vacant ∧ ¬ a.Healthy) fun _ a' =>
      (∃ data, a.compute l = .ok data ∧ (∀ b, b = l.output ∨ b ∈ l.inputs.map Prod.fst → a.tainted b = false) ∧
        a.Alters a' (· = l.output) False ∧ a'.view l.output = ⟨some { block with data }, false⟩) ∨
      ((a.Healthy → ∃ e, a.compute l = .error e) ∧ a.Alters a' (· = l.output) True ∧
        a'.Blamed a.launches ∧ ∃ block', a'.view l.output = ⟨some block', true⟩ ∧ block'.data = block.data ∧
          block'.holders = block.holders) := by
  unfold dispatch
  rw [meets_bind]
  refine (checkAlive_meets l.label).post ?_
  rintro _ a₁ rfl
  rw [meets_modify]
  exact push_spec sane at_ known

end Launches

end Accelerator

end TensorGraph
