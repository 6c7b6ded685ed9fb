import TensorGraph.Proofs.Machine.Accounts

/-! A device whose launches take their time. A launch refers to its blocks until it has finished, so that a block may
outlive its slots and handles; the counter counts it until then. -/
namespace TensorGraph

open TensorGraph.Action

/-- The blocks that a launch refers to until it has finished. An operand that is its output counts once. -/
def Launch.blocks (l : Launch BlockId) : List BlockId :=
  l.output :: (l.inputs.map Prod.fst).filter (· ≠ l.output)

/-- A device with all that refers to its memory. -/
structure Traffic where
  device : Accelerator
  /-- The blocks that slots and handles refer to, once for each of them. -/
  clients : List BlockId := []
  /-- The launches that were dispatched and have not finished. -/
  running : List (Launch BlockId) := []

namespace Traffic

open Accelerator

/-- All references to blocks. -/
def references (t : Traffic) : List BlockId := t.clients ++ t.running.flatMap Launch.blocks

/-- The device once all its launches have finished. -/
def finished (t : Traffic) : Traffic where
  device := { t.device with memory := (t.running.flatMap Launch.blocks).foldl Memory.release t.device.memory }
  clients := t.clients

/-- What a device and its clients may come to. A launch that was taken refers to its blocks from its dispatch until it
finishes, whenever that is; clients may give up theirs before. Work that is refused refers to nothing. A crash ends it
all. -/
inductive Runs (first : Traffic) : Traffic → Prop where
  | start : Runs first first
  | alloc {t : Traffic} {kind : Kind} {n : Nat} {a : Accelerator} {b : BlockId} (runs : Runs first t)
      (ran : (alloc kind n).start t.device = (.ok b, a)) : Runs first { t with device := a, clients := b :: t.clients }
  | refuse {t : Traffic} {kind : Kind} {n : Nat} {a : Accelerator} {e : Error} (runs : Runs first t)
      (ran : (alloc kind n).start t.device = (.error e, a)) (returns : e ≠ .crash) : Runs first { t with device := a }
  | hold {t : Traffic} {b : BlockId} (runs : Runs first t) (known : b ∈ t.clients) :
      Runs first { t with
        device := { t.device with memory := t.device.memory.retain b }, clients := b :: t.clients }
  | drop {t : Traffic} {before after : List BlockId} {b : BlockId} (runs : Runs first t)
      (split : t.clients = before ++ b :: after) :
      Runs first { t with
        device := { t.device with memory := t.device.memory.release b }, clients := before ++ after }
  | upload {t : Traffic} (runs : Runs first t) (source : Data) (n : Nat) (b : BlockId) :
      Runs first { t with device := ((upload source n b).start t.device).2 }
  | download {t : Traffic} (runs : Runs first t) (b : BlockId) (n : Nat) :
      Runs first { t with device := ((download b n).start t.device).2 }
  | settle {t : Traffic} (runs : Runs first t) (b : BlockId) :
      Runs first { t with device := ((settleBlock b).start t.device).2 }
  | synchronize {t : Traffic} (runs : Runs first t) : Runs first { t with device := (synchronize.start t.device).2 }
  | launch {t : Traffic} {l : Launch BlockId} {a : Accelerator} (runs : Runs first t)
      (known : ∀ b ∈ l.blocks, b ∈ t.clients) (ran : (dispatch l).start t.device = (.ok (), a)) :
      Runs first { t with
        device := { a with memory := l.blocks.foldl Memory.retain a.memory }, running := l :: t.running }
  | reject {t : Traffic} {l : Launch BlockId} {a : Accelerator} {e : Error} (runs : Runs first t)
      (ran : (dispatch l).start t.device = (.error e, a)) : Runs first { t with device := a }
  | finish {t : Traffic} {before after : List (Launch BlockId)} {l : Launch BlockId} (runs : Runs first t)
      (split : t.running = before ++ l :: after) :
      Runs first { t with
        device := { t.device with memory := l.blocks.foldl Memory.release t.device.memory }
        running := before ++ after }

/-- The books of a device: its counter is right, and every block has as many holders as there are references. -/
structure Kept (t : Traffic) : Prop where
  accounted : t.device.Accounted
  held : ∀ b, t.device.memory.holders b = t.references.count b

variable {t first : Traffic} {a : Accelerator}

/-- What moves no holder keeps the books. -/
theorem Kept.steady (kept : t.Kept) (steady : t.device.Steady a) : Kept { t with device := a } where
  accounted := steady.accounted kept.accounted
  held b := (steady.holders b).trans (kept.held b)

theorem Kept.worked {α : Type} {act : Action Accelerator α} (kept : t.Kept) (steady : act.Preserves t.device.Steady)
    {result : Except Error α} (ran : act.start t.device = (result, a)) : Kept { t with device := a } :=
  kept.steady (steady.always (.refl _) ran)

theorem count_references (t : Traffic) (b : BlockId) :
    t.references.count b = t.clients.count b + (t.running.flatMap Launch.blocks).count b := List.count_append

/-- A launch is counted with its blocks. -/
theorem count_running (before after : List (Launch BlockId)) (l : Launch BlockId) (b : BlockId) :
    ((before ++ l :: after).flatMap Launch.blocks).count b =
      ((before ++ after).flatMap Launch.blocks).count b + l.blocks.count b := by
  simp only [List.flatMap_append, List.flatMap_cons, List.count_append]
  omega

theorem Kept.client_held (kept : t.Kept) {b : BlockId} (known : b ∈ t.clients) : 0 < t.device.memory.holders b := by
  rw [kept.held, count_references]
  exact Nat.add_pos_left (List.count_pos_iff.mpr known) _

/-- Whatever a device and its clients do, the books are kept. -/
theorem Runs.kept (runs : Runs first t) (kept : first.Kept) : t.Kept := by
  induction runs with
  | start => exact kept
  | @alloc t kind n a b runs ran ih =>
    obtain ⟨grants, rfl, rfl⟩ := (alloc_decides t.device kind n).of_ok ran
    refine ⟨(Continues.of_memory (.alloc grants.fits)).accounted ih.accounted, fun b => ?_⟩
    have held := ih.held b
    simp only [count_references, List.count_cons, Memory.holders_alloc, beq_iff_eq, eq_comm (a := b)] at held ⊢
    omega
  | @refuse t kind n a e runs ran returns ih =>
    obtain rfl := (alloc_refused ran).resolve_right fun crash => returns crash.1
    exact ih
  | @hold t b runs known ih =>
    refine ⟨(Continues.of_memory (.retain b)).accounted ih.accounted, fun b' => ?_⟩
    have held := ih.held b'
    simp only [count_references, List.count_cons, Memory.holders_retain (ih.client_held known), beq_iff_eq,
      eq_comm (a := b')] at held ⊢
    omega
  | @drop t before after b runs split ih =>
    refine ⟨(Continues.of_memory (.release b)).accounted ih.accounted, fun b' => ?_⟩
    have held := ih.held b'
    simp only [count_references, split, List.count_append, List.count_cons, Memory.holders_release, beq_iff_eq,
      eq_comm (a := b')] at held ⊢
    omega
  | upload runs source n b ih => exact ih.worked (upload_steady source n b) rfl
  | download runs b n ih => exact ih.worked (download_steady b n) rfl
  | settle runs b ih => exact ih.worked (settleBlock_steady b) rfl
  | synchronize runs ih => exact ih.worked synchronize_steady rfl
  | @launch t l a runs known ran ih =>
    have kept := ih.worked (dispatch_steady l) ran
    obtain ⟨continues, holders⟩ := Memory.retained_spec a.limit l.blocks fun b member =>
      kept.client_held (known b member)
    refine ⟨(Continues.of_memory continues).accounted kept.accounted, fun b => (holders b).trans ?_⟩
    have held := kept.held b
    have counted := count_running [] t.running l b
    simp only [count_references, List.nil_append] at held counted ⊢
    omega
  | reject runs ran ih => exact ih.worked (dispatch_steady _) ran
  | @finish t before after l runs split ih =>
    obtain ⟨continues, holders⟩ := Memory.released_spec t.device.limit l.blocks
    refine ⟨(Continues.of_memory continues).accounted ih.accounted, fun b => (holders b).trans ?_⟩
    have held := ih.held b
    simp only [count_references, split, count_running] at held ⊢
    omega

/-- Launches may all finish, one after the other. -/
theorem Runs.finished (runs : Runs first t) : Runs first t.finished := by
  obtain ⟨device, clients, running⟩ := t
  induction running generalizing device with
  | nil => exact runs
  | cons l running ih =>
    have rest := ih _ (@Runs.finish _ _ [] running l runs rfl)
    simpa only [Traffic.finished, List.flatMap_cons, List.foldl_append, List.nil_append] using rest

/-- The counter of a device is right in the midst of its launches. -/
structure Balanced (t : Traffic) : Prop where
  /-- It is the bytes of the blocks with references, of launches that have not finished as well. -/
  counter : t.device.memory.Exact t.device.limit fun b => t.references.count b
  /-- Once all launches have finished, what slots and handles refer to is left. -/
  finished : t.finished.device.memory.Exact t.device.limit fun b => t.clients.count b
  /-- An allocation that is refused changes nothing, unless it is a crash as no memory has room for the block. -/
  refused : ∀ {kind : Kind} {n : Nat} {e : Error} {a : Accelerator},
    (alloc kind n).start t.device = (.error e, a) → a = t.device ∨ e = .crash ∧ Shape.capacity ≤ n

theorem Kept.exact (kept : t.Kept) : t.device.memory.Exact t.device.limit fun b => t.references.count b :=
  kept.accounted.exact kept.held

theorem Kept.balanced (kept : t.Kept) : t.Balanced where
  counter := kept.exact
  finished := by
    have settled := ((@Runs.start t).finished.kept kept).exact
    simpa only [references, Traffic.finished, List.flatMap_nil, List.append_nil] using settled
  refused ran := alloc_refused ran

end Traffic

end TensorGraph
