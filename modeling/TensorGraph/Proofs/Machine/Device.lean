import TensorGraph.Machine.Device
import TensorGraph.Proofs.Logic.Checked
import TensorGraph.Proofs.Machine.Accelerator

/-! What devices do to the blocks of the machine. The host and the accelerators are told apart by the key of
a block only: every operation says which block it altered, and that all others are as they were. -/
namespace TensorGraph

open TensorGraph.Action Checked

/-- A block of the machine: whose memory it is in, none for the host, and its number there. -/
abbrev Key := Option AcceleratorId × BlockId

/-- Whose memory a device works on. -/
def Device.home : Device → Option AcceleratorId
  | .host => none
  | .sim id _ => some id

def BlockRef.key (r : BlockRef) : Key := (r.device.home, r.id)

namespace Machine

variable {m m' : Machine} {d : Device}

/-- What is known of a block. Nothing on the host is tainted: what fails there is reported at once. -/
def view (m : Machine) : Key → View
  | (none, b) => ⟨m.host.get? b, false⟩
  | (some id, b) => (m.accelerator id).view b

/-- A launch on an accelerator has failed, from number `first` on. -/
def Blamed (m : Machine) (id : AcceleratorId) (first : LaunchId) : Prop :=
  (m.accelerator id).Blamed first

/-- The accelerators keep account of their launches. -/
def Sane (m : Machine) : Prop := ∀ id, (m.accelerator id).Sane

/-- The device is there. -/
def Has (m : Machine) (d : Device) : Prop := ∀ id, d.home = some id → id < m.accelerators.size

/-- Nothing has failed on the device, and nothing is bound to fail. -/
def Serves (m : Machine) (d : Device) : Prop := ∀ id, d.home = some id → (m.accelerator id).Healthy

/-- What is so after every operation: persistent values and counts of calls stay, and no failure is forgotten. If it was
loud, a launch failed. -/
structure Lasts (m m' : Machine) (loud : Prop) : Prop where
  cells : m'.cells = m.cells
  calls : m'.calls = m.calls
  size : m'.accelerators.size = m.accelerators.size
  sane : m.Sane → m'.Sane
  healthy : ∀ id, (m.accelerator id).Healthy → (m'.accelerator id).Healthy ∨ loud
  blamed : ∀ id first, m'.Blamed id first → m.Blamed id first ∨ loud
  recorded : ∀ id first, m.Blamed id first → m'.Blamed id first
  launches : ∀ id, (m.accelerator id).launches ≤ (m'.accelerator id).launches

/-- Only some blocks were altered. -/
structure Alters (m m' : Machine) (touched : Key → Prop) (loud : Prop) : Prop extends
    m.Lasts m' loud where
  view : ∀ k, ¬ touched k → m'.view k = m.view k

theorem Lasts.refl (m : Machine) : m.Lasts m False :=
  ⟨rfl, rfl, rfl, id, fun _ => .inl, fun _ _ => .inl, fun _ _ => id, fun _ => Nat.le_refl _⟩

theorem Lasts.trans {m'' : Machine} {loud loud' : Prop} (first : m.Lasts m' loud)
    (second : m'.Lasts m'' loud') : m.Lasts m'' (loud ∨ loud') where
  cells := second.cells.trans first.cells
  calls := second.calls.trans first.calls
  size := second.size.trans first.size
  sane sane := second.sane (first.sane sane)
  healthy id healthy := by
    rcases first.healthy id healthy with still | loud
    · exact (second.healthy id still).imp_right .inr
    · exact .inr (.inl loud)
  blamed id from_ blamed := by
    rcases second.blamed id from_ blamed with old | loud
    · exact (first.blamed id from_ old).imp_right .inl
    · exact .inr (.inr loud)
  recorded id from_ blamed := second.recorded id from_ (first.recorded id from_ blamed)
  launches id := Nat.le_trans (first.launches id) (second.launches id)

theorem Lasts.mono {loud loud' : Prop} (lasts : m.Lasts m' loud) (louder : loud → loud') :
    m.Lasts m' loud' :=
  { lasts with
    healthy := fun id healthy => (lasts.healthy id healthy).imp_right louder
    blamed := fun id first blamed => (lasts.blamed id first blamed).imp_right louder }

theorem Lasts.has {loud : Prop} (lasts : m.Lasts m' loud) (has : m.Has d) : m'.Has d := fun id home => by
  rw [lasts.size]
  exact has id home

theorem Lasts.serves {loud : Prop} (lasts : m.Lasts m' loud) (serves : m.Serves d) (quiet : ¬ loud) :
    m'.Serves d := fun id home => (lasts.healthy id (serves id home)).resolve_right quiet

theorem Alters.refl (m : Machine) : m.Alters m (fun _ => False) False := ⟨.refl m, fun _ _ => rfl⟩

theorem Alters.mono {touched touched' : Key → Prop} {loud loud' : Prop}
    (alters : m.Alters m' touched loud) (wider : ∀ k, touched k → touched' k) (louder : loud → loud') :
    m.Alters m' touched' loud' where
  toLasts := alters.toLasts.mono louder
  view k outside := alters.view k fun inside => outside (wider k inside)

theorem accelerator_set {id : AcceleratorId} (inRange : id < m.accelerators.size) (a : Accelerator)
    (other : AcceleratorId) :
    (m.setAccelerator id a).accelerator other = if other = id then a else m.accelerator other := by
  unfold setAccelerator accelerator
  rw [Array.getD_eq_getD_getElem?, Array.getD_eq_getD_getElem?, Array.getElem?_setIfInBounds]
  by_cases same : id = other
  · subst same
    simp [inRange]
  · simp [same, Ne.symm same]

theorem setAccelerator_self {id : AcceleratorId} (inRange : id < m.accelerators.size) :
    m.setAccelerator id (m.accelerator id) = m := by
  have same : m.accelerators.setIfInBounds id (m.accelerator id) = m.accelerators := by
    refine Array.ext_getElem? fun other => ?_
    rw [Array.getElem?_setIfInBounds]
    split
    · rename_i here
      subst here
      simp [accelerator, inRange]
    · rfl
  rw [setAccelerator, same]

/-- What an accelerator does to its blocks, seen from the machine. -/
theorem alters_of_accelerator {id : AcceleratorId} (inRange : id < m.accelerators.size)
    {a : Accelerator} {touched : BlockId → Prop} {loud : Prop}
    (alters : (m.accelerator id).Alters a touched loud) :
    m.Alters (m.setAccelerator id a) (fun k => k.1 = some id ∧ touched k.2) loud where
  view k outside := by
    obtain ⟨home, b⟩ := k
    cases home with
    | none => rfl
    | some other =>
      simp only [view, accelerator_set inRange]
      by_cases same : other = id
      · subst same
        rw [if_pos rfl]
        exact alters.view b fun inside => outside ⟨rfl, inside⟩
      · rw [if_neg same]
  cells := rfl
  calls := rfl
  size := by simp [setAccelerator]
  sane sane other := by
    rw [accelerator_set inRange]
    split
    · exact alters.sane (sane id)
    · exact sane other
  healthy other healthy := by
    rw [accelerator_set inRange]
    split
    · rename_i same
      exact alters.healthy (same ▸ healthy)
    · exact .inl healthy
  blamed other first blamed := by
    unfold Blamed at blamed ⊢
    rw [accelerator_set inRange] at blamed
    split at blamed
    · rename_i same
      exact same ▸ alters.blamed first blamed
    · exact .inl blamed
  recorded other first blamed := by
    unfold Blamed at blamed ⊢
    rw [accelerator_set inRange]
    split
    · rename_i same
      exact alters.recorded first (same ▸ blamed)
    · exact blamed
  launches other := by
    rw [accelerator_set inRange]
    split
    · rename_i same
      exact same ▸ alters.launches
    · exact Nat.le_refl _

theorem view_set {id : AcceleratorId} (inRange : id < m.accelerators.size) (a : Accelerator)
    (b : BlockId) : (m.setAccelerator id a).view (some id, b) = a.view b := by
  simp only [view, accelerator_set inRange, ↓reduceIte]

/-- A claim about an accelerator, as a claim about the machine. -/
theorem onAccelerator_meets {α : Type} {id : AcceleratorId} {act : Action Accelerator α}
    {fails : Error → Accelerator → Prop} {post : α → Accelerator → Prop}
    {fails' : Error → Machine → Prop} {post' : α → Machine → Prop}
    (met : act.Meets (m.accelerator id) fails post)
    (failing : ∀ e a, fails e a → fails' e (m.setAccelerator id a))
    (ending : ∀ x a, post x a → post' x (m.setAccelerator id a)) :
    (onAccelerator id act).Meets m fails' post' := by
  unfold onAccelerator
  rw [meets_onPart]
  exact met.mono failing ending

/-- Host memory changes in one block. -/
theorem alters_host {host : Memory} {b : BlockId}
    (others : ∀ b', b' ≠ b → host.get? b' = m.host.get? b') :
    m.Alters { m with host } (· = (none, b)) False where
  view k outside := by
    obtain ⟨home, b'⟩ := k
    cases home with
    | none =>
      have other : b' ≠ b := fun same => outside (by rw [same])
      simp only [view, others b' other]
    | some id => rfl
  cells := rfl
  calls := rfl
  size := rfl
  sane := id
  healthy _ := .inl
  blamed _ _ := .inl
  recorded _ _ := id
  launches _ := Nat.le_refl _

section Holders

/-- A block is in the machine, with the kind and the capacity of a reference to it. -/
def Backs (m : Machine) (r : BlockRef) : Prop :=
  ∃ block, (m.view r.key).block = some block ∧ block.data.kind = r.kind ∧ block.data.size = r.capacity

/-- Number of holders of a block. -/
def held (m : Machine) (k : Key) : Nat := ((m.view k).block.map Block.holders).getD 0

theorem holders_eq (m : Machine) (r : BlockRef) : m.holders r = m.held r.key := by
  unfold holders held BlockRef.key
  cases r.device with
  | host =>
    simp only [memory, Device.home, view]
    exact Memory.holders_eq
  | sim id ordinal =>
    simp only [memory, Device.home, view]
    exact Memory.holders_eq

/-- What changes nothing but the blocks of a memory, seen from the machine. -/
theorem onMemory_spec (m : Machine) {d : Device} (has : m.Has d) (f : Memory → Memory) (b : BlockId)
    (change : Block → Option Block) (changes : ∀ (x : Memory) b', (f x).get? b' =
      if b' = b then (x.get? b).bind change else x.get? b') (next : ∀ x : Memory, (f x).next = x.next)
    (unbroken : ∀ block block', change block = some block' → block'.broken = block.broken) :
    m.Alters (m.onMemory d f) (· = (d.home, b)) False ∧
      ((m.onMemory d f).view (d.home, b)).block = ((m.view (d.home, b)).block).bind change ∧
      (((m.view (d.home, b)).block.bind change).isSome →
        ((m.onMemory d f).view (d.home, b)).tainted = (m.view (d.home, b)).tainted) := by
  cases d with
  | host =>
    refine ⟨alters_host fun b' other => by rw [changes, if_neg other], ?_, fun _ => rfl⟩
    simp only [view, onMemory, Device.home, changes, ↓reduceIte]
  | sim id ordinal =>
    have inRange : id < m.accelerators.size := has id rfl
    have alters : (m.accelerator id).Alters
        { m.accelerator id with memory := f (m.accelerator id).memory } (· = b) False := by
      refine ⟨fun b' other => ?_, fun sane => ⟨⟨sane.prompt.patience, sane.prompt.delayed⟩, sane.writer, fun {b'} beyond => ?_⟩,
        fun healthy => .inl ?_, fun _ => .inl, fun _ blamed => blamed, Nat.le_refl _⟩
      · simp only [Accelerator.view, Accelerator.tainted, changes, if_neg other]
        rfl
      · rw [next] at beyond
        exact sane.fresh beyond
      · refine { healthy with clean := healthy.clean, whole := fun {b' block'} here => ?_ }
        simp only [changes] at here
        split at here
        · obtain ⟨block, at_, changed⟩ := Option.bind_eq_some_iff.mp here
          rw [unbroken block block' changed]
          exact healthy.whole at_
        · exact healthy.whole here
    refine ⟨(alters_of_accelerator inRange alters).mono ?_ False.elim, ?_, fun lives => ?_⟩
    · rintro ⟨home, b'⟩ ⟨sameHome, sameBlock⟩
      simp only at sameHome sameBlock
      simp [Device.home, sameHome, sameBlock]
    · simp only [onMemory, Device.home, view_set inRange, Accelerator.view, changes, ↓reduceIte]
      rfl
    · simp only [onMemory, Device.home, view_set inRange]
      simp only [view, Accelerator.view, Accelerator.tainted, changes, ↓reduceIte, Device.home] at lives ⊢
      refine congrArg (· || _) ?_
      cases at_ : (m.accelerator id).memory.get? b with
      | none => rfl
      | some block =>
        obtain ⟨block', changed⟩ := Option.isSome_iff_exists.mp lives
        rw [at_, Option.bind_some] at changed
        rw [Option.bind_some, changed, Option.any_some, Option.any_some, unbroken block block' changed]

theorem retain_spec {r : BlockRef} (has : m.Has r.device) {block : Block} {t : Bool}
    (at_ : m.view r.key = ⟨some block, t⟩) :
    m.Alters (m.retain (.owned r)) (· = r.key) False ∧
      (m.retain (.owned r)).view r.key = ⟨some { block with holders := block.holders + 1 }, t⟩ := by
  obtain ⟨alters, contents, taint⟩ := onMemory_spec m has (fun x => x.retain r.id) r.id
    (fun block => some { block with holders := block.holders + 1 })
    (fun x b' => by rw [Memory.get?_retain, Option.map_eq_bind]; rfl) (fun x => Memory.next_retain)
    (fun block block' changed => by cases changed; rfl)
  have at_' : m.view (r.device.home, r.id) = ⟨some block, t⟩ := at_
  rw [at_'] at contents taint
  exact ⟨alters, View.ext contents (taint rfl)⟩

/-- Where no launch is left behind, no block is still used. -/
theorem Sane.awaitUsers (sane : m.Sane) (r : BlockRef) : m.awaitUsers r = m := by
  unfold Machine.awaitUsers
  split
  · rfl
  · simp [Accelerator.isInUse, (sane _).prompt.delayed]

theorem Sane.release (sane : m.Sane) (r : BlockRef) :
    m.release (.owned r) = m.onMemory r.device fun x => x.release r.id := by
  unfold Machine.release
  simp only [sane.awaitUsers]

/-- A block that one more holds lives on, any other is gone. -/
theorem release_spec (sane : m.Sane) {r : BlockRef} (has : m.Has r.device) {block : Block} {t : Bool}
    (at_ : m.view r.key = ⟨some block, t⟩) :
    m.Alters (m.release (.owned r)) (· = r.key) False ∧
      (block.holders ≤ 1 → ((m.release (.owned r)).view r.key).block = none) ∧
      (1 < block.holders → (m.release (.owned r)).view r.key =
        ⟨some { block with holders := block.holders - 1 }, t⟩) := by
  obtain ⟨alters, contents, taint⟩ := onMemory_spec m has (fun x => x.release r.id) r.id
    (fun block => if block.holders ≤ 1 then none else some { block with holders := block.holders - 1 })
    (fun x b' => Memory.get?_release) (fun x => Memory.next_release) (fun block block' changed => by
      split at changed
      · cases changed
      · cases changed
        rfl)
  have at_' : m.view (r.device.home, r.id) = ⟨some block, t⟩ := at_
  rw [at_'] at contents taint
  simp only [Option.bind_some] at contents taint
  rw [sane.release]
  refine ⟨alters, fun last => ?_, fun more => ?_⟩
  · rw [if_pos last] at contents
    exact contents
  · rw [if_neg (Nat.not_le.mpr more)] at contents taint
    exact View.ext contents (taint rfl)

end Holders

/-- The device refused an operation, because something had failed or was bound to fail. -/
def Refused (m : Machine) (d : Device) (e : Error) (m' : Machine) : Prop :=
  m.Alters m' (fun _ => False) False ∧ ¬ e.Vacant ∧ ¬ m.Serves d

/-- A refusal by the accelerator is one by the device. -/
theorem refused_of_accelerator {id : AcceleratorId} (ordinal : Nat) (inRange : id < m.accelerators.size)
    {e : Error} {a : Accelerator} (alters : (m.accelerator id).Alters a (fun _ => False) False)
    (notVacant : ¬ e.Vacant) (ill : ¬ (m.accelerator id).Healthy) :
    m.Refused (.sim id ordinal) e (m.setAccelerator id a) :=
  ⟨(alters_of_accelerator inRange alters).mono (fun _ => And.right) False.elim, notVacant,
    fun serves => ill (serves id rfl)⟩

/-- What a buffer holds. -/
def contents (m : Machine) : Buffer → Option Data
  | .owned r => (m.view r.key).block.map Block.data
  | .borrowed data => some data

/-- Whether a buffer is the trace of a failure. -/
def taints (m : Machine) : Buffer → Bool
  | .owned r => (m.view r.key).tainted
  | .borrowed _ => false

end Machine

/-- A buffer is where a device works. -/
def Buffer.On (b : Buffer) (d : Device) : Prop :=
  match b with
  | .owned r => r.device = d
  | .borrowed _ => d = .host

namespace Device

open Machine

variable {m : Machine} {d : Device}

theorem alloc_meets (has : m.Has d) (sane : m.Sane) (kind : Kind) (n : Nat) :
    (d.alloc kind n).Meets m (fun e m' => n < Shape.capacity → m.Refused d e m') fun r m' => r.device = d ∧ r.kind = kind ∧ r.capacity = n ∧
      (m.view r.key).block = none ∧ m.Alters m' (· = r.key) False ∧ ∃ bytes, m'.view r.key =
        ⟨some { data := .zeros kind n, bytes, holders := 1 }, false⟩ := by
  cases d with
  | host =>
    unfold alloc
    rw [meets_bind, meets_get]
    by_cases room : n < Shape.capacity
    swap
    · rw [if_neg room]
      exact fun fits => absurd fits room
    rw [if_pos room, meets_bind, meets_set, meets_pure]
    refine ⟨rfl, rfl, rfl, Memory.get?_next, alters_host fun b other => ?_, n * kind.bytes, ?_⟩
    · rw [Memory.get?_alloc, if_neg other]
    · simp only [BlockRef.key, home, view, Memory.get?_alloc, ↓reduceIte]
  | sim id ordinal =>
    have inRange : id < m.accelerators.size := has id rfl
    unfold alloc
    rw [meets_bind]
    refine onAccelerator_meets (Accelerator.alloc_meets (sane id) kind n) ?_ ?_
    · intro e a refused room
      obtain ⟨rfl, notVacant, ill⟩ := refused room
      exact refused_of_accelerator ordinal inRange (.refl _) notVacant ill
    · rintro b a ⟨fresh, alters, new⟩
      refine ⟨rfl, rfl, rfl, fresh, (alters_of_accelerator inRange alters).mono ?_ False.elim,
        n * kind.bytes, ?_⟩
      · rintro ⟨home, b'⟩ ⟨sameHome, sameBlock⟩
        simp only at sameHome sameBlock
        simp [BlockRef.key, Device.home, sameHome, sameBlock]
      · simp only [BlockRef.key, home, view_set inRange]
        exact new

theorem checkAlive_meets {id : AcceleratorId} {ordinal : Nat} (inRange : id < m.accelerators.size)
    (op : String) : (Machine.onAccelerator id (Accelerator.checkAlive op)).Meets m
      (m.Refused (.sim id ordinal)) fun _ m' => m' = m := by
  refine onAccelerator_meets (Accelerator.checkAlive_meets op) ?_ ?_
  · rintro e a ⟨rfl, notVacant, ill⟩
    exact refused_of_accelerator ordinal inRange (.refl _) notVacant ill
  · rintro _ a rfl
    exact setAccelerator_self inRange

theorem hostContents_meets {b : BlockId} {block : Block} (at_ : m.host.get? b = some block)
    {fails : Error → Machine → Prop} :
    (hostContents b).Meets m fails fun data m' => m' = m ∧ data = block.data := by
  unfold hostContents
  rw [meets_bind, meets_get, at_]
  exact ⟨rfl, rfl⟩

theorem upload_meets (sane : m.Sane) {r : BlockRef} (device : r.device = d) (has : m.Has d) {block : Block} {t : Bool}
    (at_ : m.view r.key = ⟨some block, t⟩) {source data : Data} {n : Nat}
    (copied : block.data.copyFrom source n = .ok data) :
    (d.upload source n (.owned r)).Meets m (m.Refused d) fun _ m' => m.Alters m' (· = r.key) False ∧
      m'.view r.key = ⟨some { block with data }, false⟩ := by
  obtain ⟨home, b, kind, capacity⟩ := r
  obtain rfl : home = d := device
  have contents := congrArg View.block at_
  cases home with
  | host =>
    simp only [BlockRef.key, Device.home, view] at contents
    unfold upload
    rw [meets_bind]
    refine (hostContents_meets contents).post ?_
    rintro _ m' ⟨rfl, rfl⟩
    rw [meets_bind, meets_lift, copied]
    simp only
    rw [meets_modify]
    refine ⟨alters_host fun b' other => by rw [Memory.get?_write, if_neg other], ?_⟩
    simp only [BlockRef.key, Device.home, view, Memory.get?_write, ↓reduceIte, contents, Option.map_some]
  | sim id ordinal =>
    have inRange : id < m.accelerators.size := has id rfl
    simp only [BlockRef.key, Device.home, view, Accelerator.view] at contents
    unfold upload
    rw [meets_bind]
    refine (checkAlive_meets inRange "upload").post ?_
    rintro _ m' rfl
    refine onAccelerator_meets (Accelerator.upload_meets (sane id).prompt contents copied) ?_ ?_
    · rintro e a ⟨alters, notVacant, ill⟩
      exact refused_of_accelerator ordinal inRange alters notVacant ill
    · rintro _ a ⟨alters, new⟩
      refine ⟨(alters_of_accelerator inRange alters).mono ?_ False.elim, ?_⟩
      · rintro ⟨home, b'⟩ ⟨sameHome, sameBlock⟩
        simp only at sameHome sameBlock
        simp [BlockRef.key, Device.home, sameHome, sameBlock]
      · simp only [BlockRef.key, Device.home, view_set inRange]
        exact new

/-- Whoever reads a buffer hears of the failure that it is the trace of. -/
theorem download_meets (sane : m.Sane) {b : Buffer} (on : b.On d) (has : m.Has d) {whole data : Data} {n : Nat}
    (at_ : m.contents b = some whole) (taken : m.taints b = false → whole.take n = .ok data) :
    (d.download b n).Meets m (m.Refused d) fun x m' => x = data ∧ m.Alters m' (fun _ => False) False ∧
      m.taints b = false := by
  cases b with
  | borrowed source =>
    obtain rfl : d = .host := on
    obtain rfl : source = whole := Option.some.inj at_
    unfold download
    rw [meets_lift, taken rfl]
    exact ⟨rfl, .refl m, rfl⟩
  | owned r =>
    obtain ⟨home, b, kind, capacity⟩ := r
    obtain rfl : home = d := on
    obtain ⟨block, contents, rfl⟩ := Option.map_eq_some_iff.mp at_
    cases home with
    | host =>
      unfold download
      rw [meets_bind]
      refine (hostContents_meets contents).post ?_
      rintro _ m' ⟨rfl, rfl⟩
      rw [meets_lift, taken rfl]
      exact ⟨rfl, .refl m', rfl⟩
    | sim id ordinal =>
      have inRange : id < m.accelerators.size := has id rfl
      unfold download
      rw [meets_bind]
      refine (checkAlive_meets inRange "download").post ?_
      rintro _ m' rfl
      refine onAccelerator_meets (Accelerator.download_meets (sane id).prompt contents taken) ?_ ?_
      · rintro e a ⟨alters, notVacant, ill⟩
        exact refused_of_accelerator ordinal inRange alters notVacant ill
      · rintro x a ⟨alters, same, clean⟩
        exact ⟨same, (alters_of_accelerator inRange alters).mono (fun _ => And.right) False.elim, clean⟩

theorem settle_meets (sane : m.Sane) {b : Buffer} (on : b.On d) (has : m.Has d) : (d.settle b).Meets m (m.Refused d)
    fun _ m' => m.Alters m' (fun _ => False) False := by
  cases b with
  | borrowed source =>
    obtain rfl : d = .host := on
    exact .refl m
  | owned r =>
    obtain ⟨home, b, kind, capacity⟩ := r
    obtain rfl : home = d := on
    cases home with
    | host => exact Alters.refl m
    | sim id ordinal =>
      have inRange : id < m.accelerators.size := has id rfl
      refine onAccelerator_meets (Accelerator.settleBlock_meets (sane id).prompt b) ?_ ?_
      · rintro e a ⟨alters, notVacant, ill⟩
        exact refused_of_accelerator ordinal inRange alters notVacant ill
      · rintro _ a alters
        exact (alters_of_accelerator inRange alters).mono (fun _ => And.right) False.elim

theorem synchronize_meets (sane : m.Sane) (has : m.Has d) : d.synchronize.Meets m
    (fun _ m' => m.Alters m' (fun _ => False) False ∧ ¬ m.Serves d)
    fun _ m' => m.Alters m' (fun _ => False) False := by
  cases d with
  | host => exact Alters.refl m
  | sim id ordinal =>
    have inRange : id < m.accelerators.size := has id rfl
    refine onAccelerator_meets (Accelerator.synchronize_meets (sane id).prompt) ?_ ?_
    · rintro e a ⟨alters, ill⟩
      exact ⟨(alters_of_accelerator inRange alters).mono (fun _ => And.right) False.elim,
        fun serves => ill (serves id rfl)⟩
    · rintro _ a alters
      exact (alters_of_accelerator inRange alters).mono (fun _ => And.right) False.elim

section Launches

/-- What a kernel sees of an operand, when it writes block `out`. -/
def operandOf (m : Machine) (out : Key) : Buffer → Operand
  | .borrowed data => .buffer data
  | .owned r => if r.key = out then .output else .buffer (((m.view r.key).block.map Block.data).getD default)

/-- What a kernel is given by a launch that writes block `out`. -/
def argsOf (m : Machine) (l : Launch Buffer) (out : Key) (old : Data) : KernelArgs where
  inputs := l.inputs.map fun e => operandOf m out e.1
  shapes := l.inputs.map Prod.snd
  out := old
  outShape := l.shape
  math := l.math

variable {l : Launch Buffer} {out : BlockRef} {block : Block} {fails : Error → Machine → Prop}

theorem operand_ok {b : Buffer} (on : b.On d) (label : String) : d.operand label b = .ok b := by
  cases b with
  | borrowed data =>
    obtain rfl : d = .host := on
    rfl
  | owned r =>
    obtain ⟨home, b, kind, capacity⟩ := r
    obtain rfl : home = d := on
    cases home <;> rfl

theorem operands_meet (inputs : ∀ e ∈ l.inputs, e.1.On d) :
    (l.inputs.mapM fun (b, shape) => do return (← d.operand l.label b, shape) :
      Action Machine (List (Buffer × Shape))).Meets m fails fun es m' => m' = m ∧ es = l.inputs := by
  refine meets_mapM (fun before es m' => m' = m ∧ es = before) l.inputs ⟨rfl, rfl⟩ ?_
    fun _ _ held => held
  rintro before ⟨b, shape⟩ after es m' split ⟨rfl, rfl⟩
  have on : b.On d := inputs (b, shape) (by rw [split]; simp)
  rw [meets_bind, meets_lift, operand_ok on]
  exact ⟨rfl, rfl⟩

/-- On the host, a kernel is done when its launch is. -/
theorem runOnHost_meets (device : out.device = .host) (at_ : (m.view out.key).block = some block)
    (inputs : ∀ e ∈ l.inputs, e.1.On .host ∧ (m.contents e.1).isSome) :
    (runOnHost l out.id).Meets m
      (fun e m' => m' = m ∧ ¬ e.Vacant ∧ ∃ e', l.kernel l.op (argsOf m l out.key block.data) = .error e')
      fun _ m' => ∃ data, l.kernel l.op (argsOf m l out.key block.data) = .ok data ∧
        m.Alters m' (· = out.key) False ∧ m'.view out.key = ⟨some { block with data }, false⟩ := by
  obtain ⟨home, b, kind, capacity⟩ := out
  obtain rfl : home = .host := device
  unfold runOnHost
  rw [meets_bind]
  have operands : (l.inputs.mapM fun (b', _) => hostOperand b b' : Action Machine (List Operand)).Meets m
      (fun e m' => m' = m ∧ ¬ e.Vacant ∧
        ∃ e', l.kernel l.op (argsOf m l (none, b) block.data) = .error e')
      fun os m' => m' = m ∧ os = l.inputs.map fun e => operandOf m (none, b) e.1 := by
    refine meets_mapM (fun before os m' => m' = m ∧ os = before.map fun e => operandOf m (none, b) e.1)
      l.inputs ⟨rfl, rfl⟩ ?_ fun _ _ held => held
    rintro before ⟨b', shape⟩ after os m' split ⟨rfl, rfl⟩
    obtain ⟨on, full⟩ := inputs (b', shape) (by rw [split]; simp)
    cases b' with
    | borrowed data => exact ⟨rfl, by simp [operandOf]⟩
    | owned r =>
      obtain ⟨home, b', kind', capacity'⟩ := r
      obtain rfl : home = .host := on
      obtain ⟨whole, found⟩ := Option.isSome_iff_exists.mp full
      obtain ⟨block', contents, rfl⟩ := Option.map_eq_some_iff.mp found
      unfold hostOperand
      by_cases same : b' = b
      · simp only [if_pos same]
        exact ⟨rfl, by simp [operandOf, BlockRef.key, home, same]⟩
      · simp only [if_neg same]
        rw [meets_bind]
        refine (hostContents_meets contents).post ?_
        rintro _ m'' ⟨rfl, rfl⟩
        refine ⟨rfl, ?_⟩
        have here : operandOf m'' (none, b) (.owned ⟨.host, b', kind', capacity'⟩) =
            .buffer block'.data := by
          simp only [operandOf, BlockRef.key, home, Prod.mk.injEq, true_and, same, ↓reduceIte]
          rw [show m''.view (none, b') = m''.view (BlockRef.key ⟨.host, b', kind', capacity'⟩) from rfl,
            contents]
          rfl
        simp [here]
  refine operands.post ?_
  rintro os m' ⟨rfl, rfl⟩
  rw [meets_bind]
  refine (hostContents_meets at_).post ?_
  rintro _ m'' ⟨rfl, rfl⟩
  dsimp only
  split
  · rename_i data ran
    have contents : m''.host.get? b = some block := at_
    refine ⟨data, ran, alters_host fun b' other => by rw [Memory.get?_write, if_neg other], ?_⟩
    simp only [BlockRef.key, home, view, Memory.get?_write, ↓reduceIte, contents, Option.map_some]
  · rename_i ran
    refine ⟨rfl, ?_, _, ran⟩
    rintro ⟨slot, wrong⟩
    cases wrong
  · rename_i ran
    refine ⟨rfl, ?_, _, ran⟩
    rintro ⟨slot, wrong⟩
    cases wrong

/-- The launch as the accelerator sees it. -/
def lowered (l : Launch Buffer) (out : BlockRef) : Launch BlockId where
  label := l.label
  op := l.op
  kernel := l.kernel
  inputs := l.inputs.filterMap fun (b, shape) => b.block?.map fun r => (r.id, shape)
  output := out.id
  shape := l.shape
  math := l.math

theorem lowered_inputs {id : AcceleratorId} {ordinal : Nat} {es : List (Buffer × Shape)}
    (inputs : ∀ e ∈ es, e.1.On (.sim id ordinal) ∧ (m.contents e.1).isSome) :
    List.Forall₂ (fun (e : Buffer × Shape) (e' : BlockId × Shape) => e'.2 = e.2 ∧
        ∃ r block, e.1 = .owned r ∧ r.id = e'.1 ∧ r.key = (some id, e'.1) ∧
          (m.view r.key).block = some block)
      es (es.filterMap fun (b, shape) => b.block?.map fun r => (r.id, shape)) := by
  induction es with
  | nil => exact .nil
  | cons e es ih =>
    obtain ⟨on, full⟩ := inputs e (by simp)
    obtain ⟨b, shape⟩ := e
    have rest := ih fun e' member => inputs e' (List.mem_cons_of_mem _ member)
    cases b with
    | borrowed data => cases on
    | owned r =>
      obtain ⟨whole, found⟩ := Option.isSome_iff_exists.mp full
      obtain ⟨block, contents, -⟩ := Option.map_eq_some_iff.mp found
      refine .cons ⟨rfl, r, block, rfl, rfl, ?_, contents⟩ rest
      have device : r.device = .sim id ordinal := on
      rw [BlockRef.key, device]
      rfl

/-- An accelerator gives a kernel what the host would give it. -/
theorem compute_eq {id : AcceleratorId} {ordinal : Nat} (device : out.device = .sim id ordinal)
    (at_ : (m.view out.key).block = some block)
    (inputs : ∀ e ∈ l.inputs, e.1.On (.sim id ordinal) ∧ (m.contents e.1).isSome) :
    (m.accelerator id).compute (lowered l out) =
      l.kernel l.op (argsOf m l out.key block.data) := by
  have outKey : out.key = (some id, out.id) := by
    rw [BlockRef.key, device]
    rfl
  have each := lowered_inputs inputs
  have shapes : (lowered l out).inputs.map Prod.snd = l.inputs.map Prod.snd := by
    have both := each.flip
    refine List.forall₂_eq_eq_eq ▸ ?_
    rw [List.forall₂_map_left_iff, List.forall₂_map_right_iff]
    exact both.imp fun e' e known => known.1
  have contents : (m.accelerator id).memory.get? (lowered l out).output = some block := by
    rw [outKey] at at_
    exact at_
  unfold Accelerator.compute
  rw [contents]
  refine (mapM_bind (l.inputs.map fun e => operandOf m out.key e.1) _ ?_).trans ?_
  · rw [List.forall₂_map_right_iff]
    refine each.flip.imp ?_
    rintro ⟨b, shape⟩ e ⟨-, r, block', isOwned, same, key, found⟩
    simp only at same key ⊢
    subst same
    rw [isOwned]
    simp only [operandOf, key, outKey, Prod.mk.injEq, true_and]
    rw [key] at found
    by_cases isOut : r.id = out.id
    · rw [if_pos isOut]
      exact if_pos isOut
    · rw [if_neg isOut, found]
      refine (if_neg isOut).trans ?_
      simp only [view, Accelerator.view] at found
      rw [found]
      rfl
  · simp only [shapes]
    rfl

/-- What becomes of a launch: it computes its output from buffers that are no trace of a failure, or on an
accelerator it fails in silence, and leaves a trace. -/
theorem dispatch_meets (has : m.Has d) (sane : m.Sane) (output : l.output = .owned out)
    (device : out.device = d) (at_ : (m.view out.key).block = some block)
    (inputs : ∀ e ∈ l.inputs, e.1.On d ∧ (m.contents e.1).isSome) : (d.dispatch l).Meets m
    (fun e m' => m.Alters m' (fun _ => False) False ∧ ¬ e.Vacant ∧
      (m.Serves d → ∃ e', l.kernel l.op (argsOf m l out.key block.data) = .error e'))
    fun _ m' => (∃ data, l.kernel l.op (argsOf m l out.key block.data) = .ok data ∧
        (∀ e ∈ l.inputs, m.taints e.1 = false) ∧ m.Alters m' (· = out.key) False ∧
        m'.view out.key = ⟨some { block with data }, false⟩) ∨
      ((m.Serves d → ∃ e, l.kernel l.op (argsOf m l out.key block.data) = .error e) ∧
        m.Alters m' (· = out.key) True ∧ (∃ id, m'.Blamed id (m.accelerator id).launches) ∧
        ∃ block', m'.view out.key = ⟨some block', true⟩ ∧
          block'.data = block.data ∧ block'.holders = block.holders) := by
  unfold dispatch
  rw [meets_bind]
  refine (operands_meet fun e member => (inputs e member).1).post ?_
  rintro es m' ⟨rfl, rfl⟩
  have on : (Buffer.owned out).On d := device
  rw [output, meets_bind, meets_lift, operand_ok on]
  cases d with
  | host =>
    refine (runOnHost_meets device at_ inputs).mono ?_ ?_
    · rintro e m'' ⟨rfl, notVacant, failed⟩
      exact ⟨.refl _, notVacant, fun _ => failed⟩
    · rintro _ m'' ⟨data, ran, alters, new⟩
      refine .inl ⟨data, ran, fun e member => ?_, alters, new⟩
      cases buffer : e.1 with
      | borrowed data => rfl
      | owned r =>
        have home := (inputs e member).1
        rw [buffer] at home
        have home' : r.device = .host := home
        simp only [taints, BlockRef.key, home', Device.home]
        rfl
  | sim id ordinal =>
    have inRange : id < m'.accelerators.size := has id rfl
    have outKey : out.key = (some id, out.id) := by
      rw [BlockRef.key, device]
      rfl
    have contents : (m'.accelerator id).memory.get? out.id = some block := by
      rw [outKey] at at_
      exact at_
    have each := lowered_inputs inputs
    have known : ∀ e ∈ (lowered l out).inputs, ((m'.accelerator id).memory.get? e.1).isSome := by
      intro e' member
      obtain ⟨e, -, -, r, block', -, -, key, found⟩ := partner_of each member
      rw [key] at found
      simp only [view, Accelerator.view] at found
      rw [found]
      rfl
    have computed := compute_eq device at_ inputs
    have dispatched := Accelerator.dispatch_meets (l := lowered l out) (sane id) contents known
    rw [computed] at dispatched
    refine onAccelerator_meets dispatched ?_ ?_
    · rintro e a ⟨rfl, notVacant, ill⟩
      obtain ⟨alters, notVacant', ill'⟩ :=
        refused_of_accelerator ordinal inRange (.refl _) notVacant ill
      exact ⟨alters, notVacant', fun serves => absurd serves ill'⟩
    · have wider : ∀ k : Key, k.1 = some id ∧ k.2 = out.id → k = out.key := by
        rintro ⟨home, b⟩ ⟨sameHome, sameBlock⟩
        simp only at sameHome sameBlock
        rw [outKey, sameHome, sameBlock]
      rintro _ a (⟨data, ran, clean, alters, new⟩ |
        ⟨failed, alters, blamed, block', new, sameData, sameHolders⟩)
      · refine .inl ⟨data, ran, fun e member => ?_,
          (alters_of_accelerator inRange alters).mono wider fun loud => loud, ?_⟩
        · obtain ⟨e', inLowered, -, r, block', isOwned, -, key, -⟩ := partner each member
          rw [isOwned]
          simp only [taints, key, view, Accelerator.view]
          exact clean e'.1 (.inr (List.mem_map_of_mem inLowered))
        · rw [outKey, view_set inRange]
          exact new
      · refine .inr ⟨fun serves => failed (serves id rfl),
          (alters_of_accelerator inRange alters).mono wider fun loud => loud, ⟨id, ?_⟩, block', ?_, sameData,
          sameHolders⟩
        · rw [Blamed, accelerator_set inRange, if_pos rfl]
          exact blamed
        rw [outKey, view_set inRange]
        exact new

end Launches

end Device

end TensorGraph
