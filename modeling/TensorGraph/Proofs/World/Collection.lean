import TensorGraph.Proofs.World.Abreast

/-! Without collection an executable saves allocations: after any history that is common to both, and in the middle of
any call, it has taken as many buffers as with collection, but no more new ones, and all calls give the same. -/
namespace TensorGraph

open Checked TensorGraph.Action

/-- The same context, but for its number and for executables that keep their buffers. -/
def Context.withoutCollection (c : Context) (id : ContextId) : Context :=
  { c with id, config := { c.config with collect := false } }

namespace Program

variable {c : Context} {id : ContextId}

/-- Collection is not the business of any pass. -/
theorem runPasses_withoutCollection (passes : List PassName) (p : Program) :
    p.runPasses (c.withoutCollection id) passes = p.runPasses c passes := by
  induction passes generalizing p with
  | nil => rfl
  | cons pass passes ih =>
    have same : pass.run (c.withoutCollection id) p = pass.run c p := by cases pass <;> rfl
    unfold runPasses
    simp only [same, ih]

/-- A program has one schedule, with collection or without. -/
theorem schedule_withoutCollection (p : Program) : p.schedule (c.withoutCollection id) = p.schedule c := by
  unfold schedule
  simp only [runPasses_withoutCollection]
  rfl

end Program

/-- What a user does with the first executable, with a result, or with a persistent value. -/
inductive Use where
  | call (inputs : List Tensor) (borrow : Bool)
  | read (i : Nat)
  | drop (i : Nat)
  | write (i : Nat) (t : Tensor)

namespace World

variable {w w' : World} {f f' : Executable} {fs fs' : List Executable} {u : Use} {inputs : List Tensor} {borrow : Bool}

/-- The world after something was done. What is not there is left alone. -/
def use (w : World) : Use → World
  | .call inputs borrow =>
    match w.executables with
    | [] => w
    | f :: fs =>
      let (result, g, m) := f.call inputs borrow w.machine
      { w with machine := m, executables := g :: fs, outputs := results result ++ w.outputs }
  | .read i =>
    match w.outputs[i]? with
    | none => w
    | some o => { w with machine := (o.toHost.start w.machine).2 }
  | .drop i =>
    match w.outputs[i]? with
    | none => w
    | some o => { w with machine := o.release w.machine, outputs := w.outputs.take i ++ w.outputs.drop (i + 1) }
  | .write i t =>
    match w.cells[i]? with
    | none => w
    | some c => { w with machine := ((c.write t).start w.machine).2 }

/-- The world after several things were done. -/
def useAll (w : World) (us : List Use) : World := us.foldl use w

variable [BlockRoutine]

/-- What is done is one of the operations of a user, or nothing. -/
theorem use_steps (faultless : Prop) (w : World) (u : Use) : w.use u = w ∨ Step faultless w (w.use u) := by
  cases u with
  | call inputs borrow =>
    cases executables : w.executables with
    | nil => exact .inl (by simp only [use, executables])
    | cons f fs =>
      have split : w.executables = [] ++ f :: fs := executables
      simp only [use, executables]
      exact .inr (.call split inputs borrow rfl)
  | read i =>
    cases at_ : w.outputs[i]? with
    | none => exact .inl (by simp only [use, at_])
    | some o =>
      simp only [use, at_]
      exact .inr (.read (List.mem_of_getElem? at_) rfl)
  | drop i =>
    cases at_ : w.outputs[i]? with
    | none => exact .inl (by simp only [use, at_])
    | some o =>
      simp only [use, at_]
      obtain ⟨inside, rfl⟩ := List.getElem?_eq_some_iff.mp at_
      exact .inr (.dropOutput (by rw [List.getElem_cons_drop, List.take_append_drop]))
  | write i t =>
    cases at_ : w.cells[i]? with
    | none => exact .inl (by simp only [use, at_])
    | some c =>
      simp only [use, at_]
      exact .inr (.write (List.mem_of_getElem? at_) t rfl)

theorem Good.use {faultless : Prop} (good : Good faultless w) (u : Use) : Good faultless (w.use u) := by
  rcases use_steps faultless w u with same | step
  · rwa [same]
  · exact step.good good

/-- To read a result changes the machine only, and no persistent value. -/
theorem Good.use_read {faultless : Prop} (good : Good faultless w) (i : Nat) :
    ∃ m, w.use (.read i) = { w with machine := m } ∧ m.cells = w.machine.cells := by
  cases at_ : w.outputs[i]? with
  | none => exact ⟨w.machine, by simp only [World.use, at_], rfl⟩
  | some o =>
    refine ⟨(o.toHost.start w.machine).2, by simp only [World.use, at_], ?_⟩
    exact ((good.toHost_meets (List.mem_of_getElem? at_)).always rfl).cells

/-- A result that is dropped is gone. -/
theorem Good.use_drop {faultless : Prop} (good : Good faultless w) (i : Nat) : ∃ m, w.use (.drop i) =
    { w with machine := m, outputs := w.outputs.take i ++ w.outputs.drop (i + 1) } ∧ m.cells = w.machine.cells := by
  cases at_ : w.outputs[i]? with
  | none =>
    have beyond : w.outputs.length ≤ i := List.getElem?_eq_none_iff.mp at_
    refine ⟨w.machine, ?_, rfl⟩
    simp only [World.use, at_, List.take_of_length_le beyond, List.drop_of_length_le (Nat.le_succ_of_le beyond),
      List.append_nil]
  | some o =>
    refine ⟨o.release w.machine, by simp only [World.use, at_], ?_⟩
    obtain ⟨inside, rfl⟩ := List.getElem?_eq_some_iff.mp at_
    have split : w.outputs = w.outputs.take i ++ w.outputs[i] :: w.outputs.drop (i + 1) := by
      rw [List.getElem_cons_drop, List.take_append_drop]
    exact (good.dropped_output split).1.cells

omit [BlockRoutine] in
/-- What a persistent value is set to depends on the persistent values only. -/
theorem write_cells {m m' : Machine} (same : m.cells = m'.cells) (c : Cell) (t : Tensor) :
    ((c.write t).start m).2.cells = ((c.write t).start m').2.cells := by
  unfold Cell.write
  by_cases kind : t.kind = c.kind
  swap
  · simp only [kind, ne_eq, not_false_eq_true, ↓reduceIte]
    exact same
  by_cases rank : t.rank = c.rank
  swap
  · simp only [kind, rank, ne_eq, not_true_eq_false, not_false_eq_true, ↓reduceIte]
    exact same
  simp only [kind, rank, ne_eq, not_true_eq_false, ↓reduceIte]
  exact congrArg (fun cells : Array Tensor => cells.setIfInBounds c.id t) same

omit [BlockRoutine] in
theorem use_write (known : w.cells = w'.cells) (cells : w.machine.cells = w'.machine.cells) (i : Nat) (t : Tensor) :
    ∃ m m', w.use (.write i t) = { w with machine := m } ∧ w'.use (.write i t) = { w' with machine := m' } ∧
      m.cells = m'.cells := by
  cases at_ : w.cells[i]? with
  | none =>
    have at' : w'.cells[i]? = none := known ▸ at_
    exact ⟨w.machine, w'.machine, by simp only [World.use, at_], by simp only [World.use, at'], cells⟩
  | some c =>
    have at' : w'.cells[i]? = some c := known ▸ at_
    exact ⟨((c.write t).start w.machine).2, ((c.write t).start w'.machine).2, by simp only [World.use, at_],
      by simp only [World.use, at'], write_cells cells c t⟩

namespace Abreast

/-- What leaves the executables alone, and treats persistent values and results alike. -/
theorem beside (abreast : Abreast w w' f f' fs fs') {m m' : Machine} {os os' : List Output}
    (good : Good True { w with machine := m, outputs := os })
    (good' : Good True { w' with machine := m', outputs := os' }) (cells : m.cells = m'.cells)
    (outputs : os.length = os'.length)
    (matched : ∀ {k k' : Key}, Matched fs fs' w.outputs w'.outputs k k' → Matched fs fs' os os' k k') :
    Abreast { w with machine := m, outputs := os } { w' with machine := m', outputs := os' } f f' fs fs' where
  good := good
  good' := good'
  split := abreast.split
  split' := abreast.split'
  contrasts := abreast.contrasts
  known := abreast.known
  cells := cells
  outputs := outputs
  tandem := abreast.tandem.repair fun _ _ => matched

/-- What is done in both keeps the ledgers side by side. -/
theorem use (abreast : Abreast w w' f f' fs fs') (u : Use) : ∃ g g', Abreast (w.use u) (w'.use u) g g' fs fs' := by
  have good := abreast.good.use u
  have good' := abreast.good'.use u
  cases u with
  | call inputs borrow =>
    rcases ran : f.call inputs borrow w.machine with ⟨result, g, m⟩
    rcases ran' : f'.call inputs borrow w'.machine with ⟨result', g', m'⟩
    obtain ⟨called, -⟩ := abreast.call ran ran'
    refine ⟨g, g', ?_⟩
    simp only [World.use, abreast.split, abreast.split', ran, ran']
    exact called
  | read i =>
    obtain ⟨m, used, same⟩ := abreast.good.use_read i
    obtain ⟨m', used', same'⟩ := abreast.good'.use_read i
    rw [used] at good ⊢
    rw [used'] at good' ⊢
    exact ⟨f, f', abreast.beside good good' (same.trans (abreast.cells.trans same'.symm)) abreast.outputs id⟩
  | drop i =>
    obtain ⟨m, used, same⟩ := abreast.good.use_drop i
    obtain ⟨m', used', same'⟩ := abreast.good'.use_drop i
    rw [used] at good ⊢
    rw [used'] at good' ⊢
    refine ⟨f, f', abreast.beside good good' (same.trans (abreast.cells.trans same'.symm)) ?_ ?_⟩
    · simp only [List.length_append, List.length_take, List.length_drop, abreast.outputs]
    · rintro k k' ⟨unshared, unshared', held⟩
      refine ⟨unshared, unshared', ?_⟩
      rw [List.map_append, List.map_append, List.map_take, List.map_take, List.map_drop, List.map_drop, held]
  | write i t =>
    obtain ⟨m, m', used, used', same⟩ := use_write abreast.known abreast.cells i t
    rw [used] at good ⊢
    rw [used'] at good' ⊢
    exact ⟨f, f', abreast.beside good good' same abreast.outputs id⟩

theorem useAll (abreast : Abreast w w' f f' fs fs') (us : List Use) :
    ∃ g g', Abreast (w.useAll us) (w'.useAll us) g g' fs fs' := by
  induction us generalizing w w' f f' with
  | nil => exact ⟨f, f', abreast⟩
  | cons u us ih =>
    obtain ⟨g, g', used⟩ := abreast.use u
    exact ih used

/-- What has run of a call with collection runs without it as well. -/
theorem reaches_too (abreast : Abreast w w' f f' fs fs') (accepts : f.Accepts inputs) {done rest : List Command}
    {a : Activation} (order : f.schedule.commands = done ++ rest) (reaches : f.Reaches inputs w.machine done a) :
    ∃ a', f'.Reaches inputs w'.machine done a' := by
  have split : w.executables = [] ++ f :: fs := abreast.split
  have split' : w'.executables = [] ++ f' :: fs' := abreast.split'
  have accepts' := abreast.accepts_iff.mp accepts
  have order' : f'.schedule.commands = done ++ rest := abreast.contrasts.schedule ▸ order
  obtain ⟨mid, -⟩ := abreast.good.reaches split accepts order reaches
  obtain ⟨scope, l, -, fits⟩ := abreast.good'.fits (by simp [split'] : f' ∈ w'.executables) inputs
  have halts := Course.upTo_halts (a := ⟨f'.frame, w'.machine⟩) (f := f'.id) (fits accepts')
    (abreast.good'.settled split') accepts'.usable order'
  rcases ran : (Calling.upTo f'.schedule f'.context f'.id inputs done).start ⟨f'.frame, w'.machine⟩ with ⟨_ | ⟨⟨⟩⟩, a'⟩
  · rcases halts.of_error ran with breaks | ⟨front, cmd, back, member, stuck, -⟩
    · exact absurd (abreast.good'.course_reliable (by simp [split']) inputs trivial) breaks.ill
    · exact absurd stuck.disagrees.1 (abreast.value inputs ▸ mid.valued cmd member)
  · exact ⟨a', ran⟩

end Abreast

/-- The world with a new executable. -/
def gain (w : World) (f : Executable) (m : Machine) : World :=
  { w with machine := m, executables := f :: w.executables }

/-- Two executables that a program was just compiled to, with collection and without. -/
theorem Good.abreast (good : Good True w) {p : Program} (fresh : w.Fresh p) {c : Context} {id : ContextId}
    (known : c ∈ w.contexts) (known' : c.withoutCollection id ∈ w.contexts) (host : c.accelerator = none)
    (on : c.config.collect = true) {m m' : Machine} (ran : (p.compile c).start w.machine = (.ok f, m))
    (ran' : (p.compile (c.withoutCollection id)).start w.machine = (.ok f', m')) :
    Abreast (w.gain f m) (w.gain f' m') f f' w.executables w.executables := by
  have compiled := good.compile known fresh ran
  have compiled' := good.compile known' fresh ran'
  rw [Program.compile_start] at ran ran'
  rw [Program.schedule_withoutCollection] at ran'
  cases scheduled : p.schedule c with
  | error e =>
    rw [scheduled] at ran
    cases ran
  | ok s =>
    rw [scheduled] at ran ran'
    cases ran
    cases ran'
    have size : (Frame.fresh s).ledger.slots.size = s.slotCount := Array.size_replicate
    exact ⟨compiled, compiled', rfl, rfl, ⟨rfl, rfl, host, host, on, rfl⟩, rfl, rfl, rfl,
      Ledger.tandem_of_empty size size rfl (Executable.buffer?_fresh s) (Executable.buffer?_fresh s) rfl (Nat.le_refl _)
        rfl⟩

end World

/-- What an executable counts, against another one: it took as many buffers, no more of them new and no fewer used
again, and it gave none back. -/
structure Stats.Spares (off on : Stats) : Prop where
  acquired : off.allocations + off.reuses = on.allocations + on.reuses
  allocations : off.allocations ≤ on.allocations
  reuses : on.reuses ≤ off.reuses
  releases : off.releases = 0

theorem Ledger.Tandem.spares {f f' : Frame} {s : Schedule} {pair : Key → Key → Prop}
    (tandem : f.ledger.Tandem f'.ledger s pair) : f'.stats.Spares f.stats := by
  have acquired : f.stats.allocations + f.stats.reuses = f'.stats.allocations + f'.stats.reuses := tandem.acquired
  have fewer : f'.stats.allocations ≤ f.stats.allocations := tandem.fewer
  exact ⟨acquired.symm, fewer, by omega, tandem.unreleased⟩

namespace World

variable {w w' : World} {f f' : Executable} {fs fs' : List Executable}

/-- The executable `off` of the second world saves allocations against the executable `on` of the first one. -/
structure SavesAllocations (w w' : World) (on off : Executable) : Prop where
  /-- So far it has counted what it should. -/
  counts : off.frame.stats.Spares on.frame.stats
  /-- It has also done so between any two commands of the next call. -/
  during : ∀ {inputs : List Tensor} {done rest : List Command} {a : Activation}, on.Accepts inputs →
    on.schedule.commands = done ++ rest → on.Reaches inputs w.machine done a →
      ∃ a', off.Reaches inputs w'.machine done a' ∧ a'.frame.stats.Spares a.frame.stats
  /-- The next call gives the same tensors or fails for the same reason, and leaves the same persistent values. -/
  results : ∀ {inputs : List Tensor} {borrow : Bool} {result result' : Except Error (List Output)} {g g' : Executable}
    {m m' : Machine}, on.call inputs borrow w.machine = (result, g, m) →
      off.call inputs borrow w'.machine = (result', g', m') →
        SameOutcome m m' result result' ∧ (∀ e, result = .error e ↔ result' = .error e) ∧ m.cells = m'.cells

theorem Abreast.saves [BlockRoutine] (abreast : Abreast w w' f f' fs fs') : SavesAllocations w w' f f' where
  counts := abreast.tandem.spares
  during accepts order reaches := by
    obtain ⟨a', reaches'⟩ := abreast.reaches_too accepts order reaches
    exact ⟨a', reaches', (abreast.reaches accepts order reaches reaches').spares⟩
  results ran ran' := by
    obtain ⟨called, same, errors⟩ := abreast.call ran ran'
    exact ⟨same, errors, called.cells⟩

/-- To turn collection off only saves allocations. A program that was compiled twice for the host, with collection and
without, gives the same in every call of any history that is common to both. Without collection no buffer is given back,
as many are taken, and at no time are there more new ones or fewer that were used again. -/
theorem collection_off_saves_allocations [BlockRoutine] (reachable : Reachable True w) {p : Program} (fresh : w.Fresh p) {c : Context}
    {id : ContextId} (known : c ∈ w.contexts) (known' : c.withoutCollection id ∈ w.contexts)
    (host : c.accelerator = none) (on : c.config.collect = true) {m m' : Machine}
    (ran : (p.compile c).start w.machine = (.ok f, m))
    (ran' : (p.compile (c.withoutCollection id)).start w.machine = (.ok f', m')) (us : List Use) :
    ∃ g g', ((w.gain f m).useAll us).executables = g :: w.executables ∧
      ((w.gain f' m').useAll us).executables = g' :: w.executables ∧
        SavesAllocations ((w.gain f m).useAll us) ((w.gain f' m').useAll us) g g' := by
  obtain ⟨g, g', abreast⟩ := (reachable.good.abreast fresh known known' host on ran ran').useAll us
  exact ⟨g, g', abreast.split, abreast.split', abreast.saves⟩

section

open scoped BlockRoutine

/-- Two calls with results that are kept, one that is refused, and one after a result was dropped. -/
theorem collection_off_saves_allocations_negatedSum : ∃ w f f' m m', Reachable True w ∧
    (Program.negatedSum.compile .first).start w.machine = (.ok f, m) ∧
      (Program.negatedSum.compile (Context.first.withoutCollection 1)).start w.machine = (.ok f', m') ∧
        let us : List Use := [.call [.vector ⟨.i32, #[1, 2, 3]⟩] true, .call [.vector ⟨.i32, #[4]⟩] true,
          .call [] false, .drop 0, .call [.vector ⟨.i32, #[5, 6]⟩] false]
        ∃ g g', SavesAllocations ((w.gain f m).useAll us) ((w.gain f' m').useAll us) g g' := by
  obtain ⟨m₁, opened⟩ : ∃ m₁, (Context.build {} [] .host).start {} = (.ok .first, m₁) := ⟨_, rfl⟩
  obtain ⟨m₂, opened'⟩ : ∃ m₂, (Context.build { collect := false } [] .host).start m₁ =
      (.ok (Context.first.withoutCollection 1), m₂) := by
    cases opened
    exact ⟨_, rfl⟩
  have host {collect : Bool} : True → Config.Faultless { collect } .host := fun _ =>
    ⟨rfl, fun _ wrong => by cases wrong⟩
  have reachable := ((Reachable.start 4 false).step (.context {} [] Kernels.honest_host host opened)).step
    (.context { collect := false } [] Kernels.honest_host host opened')
  obtain ⟨s, compiled⟩ := exists_of_isOk (r := Program.negatedSum.schedule .first) (by decide +kernel)
  have ran := Program.compile_start .negatedSum .first m₂
  have ran' := Program.compile_start .negatedSum (Context.first.withoutCollection 1) m₂
  rw [compiled] at ran
  rw [Program.schedule_withoutCollection, compiled] at ran'
  obtain ⟨g, g', -, -, saves⟩ := collection_off_saves_allocations reachable (fresh_negatedSum _)
    (by simp [gained]) (by simp [gained]) rfl rfl ran ran' _
  exact ⟨_, _, _, _, _, reachable, ran, ran', g, g', saves⟩

end

end World

end TensorGraph
