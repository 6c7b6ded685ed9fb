import Mathlib.Data.List.Induction
import TensorGraph.Proofs.Executable.Tandem
import TensorGraph.Proofs.World.Calls
import TensorGraph.Proofs.World.Outcomes

/-! One call of two executables of one schedule, the first one with collection on and the second one with collection
off, each in a world of its own. Where nothing can fail, a call runs its commands up to the first one without a value,
so both calls do the same, and their ledgers stay side by side. -/
namespace TensorGraph

open Checked TensorGraph.Action

/-- A result that a call gives: a tensor, or a handle on the buffer in the slot. -/
def Ledger.Gives (l : Ledger) (borrow : Bool) (x : Site) (o : Output) : Prop :=
  o.isBorrowed = borrow ∧ ∀ h, o = .borrowed h → l.buffer? x.slot = some h.buffer

/-- A result holds a block that is in one slot only if it is on that slot. -/
theorem Ledger.Gives.holds {l : Ledger} {borrow : Bool} {x : Site} {o : Output} (gives : l.Gives borrow x o)
    (apart : l.Apart) {slot : SlotId} {r : BlockRef} (at_ : l.buffer? slot = some (.owned r)) :
    o.holds r.key = if borrow = true ∧ x.slot = slot then 1 else 0 := by
  obtain ⟨same, handle⟩ := gives
  cases o with
  | host t =>
    obtain rfl : false = borrow := same
    simp [Output.holds]
  | borrowed h =>
    obtain rfl : true = borrow := same
    have there := handle h rfl
    simp only [Output.holds, Buffer.hold, true_and]
    refine if_congr ⟨fun isIn => ?_, fun here => ?_⟩ rfl rfl
    · exact apart x.slot slot r.key (there ▸ isIn) (by simp [at_, Buffer.isIn])
    · rw [here, at_] at there
      simp [← there, Buffer.isIn]

namespace Calling

variable {s : Schedule} {c : Context} {f : ExecutableId} {inputs : List Tensor} {borrow : Bool} {call : Nat}

/-- A call reads its results after its last command. -/
theorem meets_readings {a : Activation} {fails : Error → Activation → Prop}
    {post : List Output × List (Cell × Tensor) → Activation → Prop} : (readings s c f inputs borrow call).Meets
      { a with machine.calls := a.machine.calls.modify f (· + 1) } fails post ↔
        (upTo s c f inputs s.commands).Meets a fails fun _ a' => (answer s c f borrow call).Meets a' fails post := by
  unfold upTo nextCall
  rw [readings_eq]
  simp only [meets_bind, meets_modify, meets_get, meets_pure]

end Calling

namespace Course

variable {s : Schedule} {c : Context} {f : ExecutableId} {args : List Tensor} {borrow : Bool} {scope : Scope}
  {l : Layout} {ext : Key → Nat} {a : Activation}

variable [BlockRoutine]

/-- Where nothing can fail, a call that is accepted runs all its commands and gives what is in the slots of its outputs,
or it stops at a command whose operands disagree and gives up all buffers. -/
theorem invoke_halts (fits : (next s c f args a.machine).Fits scope l) (settled : s.Settled c ext a)
    (usable : a.frame.poisoned = none) (accepted : Calling.accept s args = .ok ())
    (reliable : c.Reliable (next s c f args a.machine).start) : (Calling.invoke s c f args borrow).Meets a
      (fun e a' => ∃ before cmd after a₁, (next s c f args a.machine).Stuck ext before cmd after e a₁ ∧
        (Calling.upTo s c f args before).start a = (.ok (), a₁) ∧ a₁.frame.ledger.Emptied s a'.frame.ledger)
      fun os a' => ∃ a₁, (Calling.upTo s c f args s.commands).start a = (.ok (), a₁) ∧
        a₁.frame.ledger.Sheds s (fun b => !b.isOwned) a'.frame.ledger ∧
          List.Forall₂ (a₁.frame.ledger.Gives borrow) s.outputs os := by
  unfold Calling.invoke
  rw [meets_bind, meets_get, usable]
  simp only
  rw [meets_bind, meets_lift, accepted]
  simp only
  rw [Calling.nextCall, meets_bind, meets_bind, meets_modify, meets_bind, meets_get, meets_pure, meets_bind,
    meets_attempt, Calling.run_eq, meets_bind, Calling.meets_readings]
  have whole : s.commands = s.commands ++ [] := (List.append_nil _).symm
  refine (Action.meets_start _ a).mono (fun e a₁ ran => ?_) fun _ a₁ ran => ?_
  · rcases (upTo_halts fits settled usable whole).of_error ran with breaks | ⟨before, cmd, after, -, stuck, reached⟩
    · exact absurd reliable breaks.ill
    · simp only
      rw [meets_bind]
      refine (Calling.recover_empties s e stuck.mid.slots).post ?_
      intro _ a₂ emptied
      exact ⟨before, cmd, after, a₁, stuck, reached, emptied⟩
  · obtain ⟨mid, -⟩ := (upTo_halts fits settled usable whole).of_ok ran
    let call := (next s c f args a.machine).start.callsOf f
    have answers : (Calling.answer s c f borrow call).Meets a₁ _ _ := mid.answer_meets fits
    refine (Action.meets_start _ a₁).mono (fun e a₂ read => ?_) fun results a₂ read => ?_
    · obtain ⟨v, root, without⟩ := ((answers.of_error read).stops reliable).root_without fits
      obtain ⟨x, site, rfl, -⟩ := partner fits.laid.roots root
      obtain ⟨b, t, d, -, value, -⟩ := mid.root fits site
      cases without.symm.trans value
    · have answered := answers.of_ok read
      have silent : (Calling.answer s c f borrow call).Silent := Calling.silent_answer s
      obtain ⟨same, -⟩ := (silent a₁).of_ok read
      have commits : (Calling.commit s results).Meets a₂ (fun _ _ => False) _ := answered.commit_meets fits
      refine (Action.meets_start _ a₂).mono (fun e a₃ wrong => (commits.of_error wrong).elim) fun os a₃ wrote => ?_
      obtain ⟨rfl, -⟩ := commits.of_ok wrote
      obtain ⟨sheds, -⟩ := (Calling.commit_moves s results).of_ok wrote
      refine ⟨a₁, ran, same ▸ sheds, answered.handed.imp fun x o held => ?_⟩
      obtain ⟨⟨t, -, gives⟩, handle, -⟩ := held
      refine ⟨?_, fun h isIt => ?_⟩
      · cases o with
        | host u => exact gives.1.symm
        | borrowed h => exact gives.1.symm
      · rw [← same]
        exact handle h isIt

end Course

namespace Executable

variable {f f' : Executable} {inputs : List Tensor} {m : Machine} {done : List Command} {cmd : Command} {a : Activation}

/-- A call has its last command behind it after those before it. -/
theorem Reaches.last (reaches : f.Reaches inputs m (done ++ [cmd]) a) : ∃ a', f.Reaches inputs m done a' ∧
    (Calling.execute f.schedule f.context cmd).start a' = (.ok (), a) := by
  unfold Reaches at reaches
  rw [Calling.upTo_concat, start_bind] at reaches
  rcases ran : (Calling.upTo f.schedule f.context f.id inputs done).start ⟨f.frame, m⟩ with ⟨_ | ⟨⟨⟩⟩, a'⟩
  · rw [ran] at reaches
    cases reaches
  · rw [ran] at reaches
    exact ⟨a', ran, reaches⟩

/-- A call starts with data of the caller in its slots. -/
theorem Reaches.lends (reaches : f.Reaches inputs m [] a) :
    Ledger.Lends (f.schedule.boundSlots inputs) { f.frame.ledger with counts := f.schedule.reads } a.frame.ledger := by
  have opens : (Calling.upTo f.schedule f.context f.id inputs []).Moves ⟨f.frame, m⟩ (Ledger.Lends
      (f.schedule.boundSlots inputs) { f.frame.ledger with counts := f.schedule.reads }) := by
    unfold Calling.upTo Calling.nextCall
    refine Calling.Silent.bind (Calling.silent_bind (Calling.silent_machine _) fun _ => ?_) fun _ a' same => ?_
    · exact Calling.silent_bind Calling.silent_get fun _ => Calling.silent_pure _
    · exact Calling.Moves.silently (same ▸ Calling.begin_moves f.schedule inputs) fun _ => Calling.silent_pure _
  exact (opens.of_ok reaches).1

/-- Two executables of one schedule on the host, the first one with collection on and the second one with collection
off. -/
structure Contrasts (f f' : Executable) : Prop where
  schedule : f'.schedule = f.schedule
  relaxed : f.context.config.relaxed = f'.context.config.relaxed
  host : f.context.accelerator = none
  host' : f'.context.accelerator = none
  on : f.context.config.collect = true
  off : f'.context.config.collect = false

theorem Contrasts.twin (contrasts : f.Contrasts f') : f.Twin f' where
  program := by rw [contrasts.schedule]
  target := by simp [Context.target, Context.targetDevice, contrasts.host, contrasts.host']
  relaxed := contrasts.relaxed

end Executable

namespace World

variable {w w' : World} {m m' : Machine} {f f' g g' : Executable} {fs fs' : List Executable} {inputs : List Tensor}
  {borrow : Bool} {done rest : List Command} {cmd : Command} {a a' : Activation} {k k' : Key}

/-- Two blocks that no other executable refers to, and that the same results hold. -/
def Matched (fs fs' : List Executable) (os os' : List Output) (k k' : Key) : Prop :=
  refsOf fs k = 0 ∧ refsOf fs' k' = 0 ∧ os.map (fun o => o.holds k) = os'.map fun o => o.holds k'

section Matched

variable {os os' : List Output}

theorem Matched.level (matched : Matched fs fs' os os' k k') : others fs os k = others fs' os' k' := by
  obtain ⟨unshared, unshared', held⟩ := matched
  simp only [others, unshared, unshared', Output.holdsAll, held]

/-- Blocks that nobody else holds match. -/
theorem matched_of_free (lengths : os.length = os'.length) (free : others fs os k = 0) (free' : others fs' os' k' = 0) :
    Matched fs fs' os os' k k' := by
  have zeros {fs : List Executable} {os : List Output} {k : Key} (free : others fs os k = 0) :
      refsOf fs k = 0 ∧ os.map (fun o => o.holds k) = List.replicate os.length 0 := by
    obtain ⟨unshared, unheld⟩ := Nat.add_eq_zero_iff.mp free
    refine ⟨unshared, List.eq_replicate_iff.mpr ⟨List.length_map _, fun n member => ?_⟩⟩
    exact Nat.eq_zero_of_le_zero (unheld ▸ List.le_sum_of_mem member)
  obtain ⟨unshared, none⟩ := zeros free
  obtain ⟨unshared', none'⟩ := zeros free'
  exact ⟨unshared, unshared', by rw [none, none', lengths]⟩

end Matched

variable [BlockRoutine]

/-- Two worlds in which nothing can fail and to which the same was done. Their first executables are of one schedule,
the first one with collection on and the second one with collection off. -/
structure Abreast (w w' : World) (f f' : Executable) (fs fs' : List Executable) : Prop where
  good : Good True w
  good' : Good True w'
  split : w.executables = f :: fs
  split' : w'.executables = f' :: fs'
  contrasts : f.Contrasts f'
  known : w.cells = w'.cells
  cells : w.machine.cells = w'.machine.cells
  outputs : w.outputs.length = w'.outputs.length
  tandem : f.frame.ledger.Tandem f'.frame.ledger f.schedule (Matched fs fs' w.outputs w'.outputs)

/-- Where nothing can fail, a call that is accepted runs all its commands, or stops at one whose operands disagree. -/
theorem Good.call_halts (good : Good True w) {before after : List Executable}
    (split : w.executables = before ++ f :: after) (accepts : f.Accepts inputs) {result : Except Error (List Output)}
    (ran : f.call inputs borrow w.machine = (result, g, m)) : g.schedule = f.schedule ∧ g.context = f.context ∧
      match result with
      | .error e => ∃ front cmd back a,
          (f.course inputs w.machine).Stuck (others (before ++ after) w.outputs) front cmd back e a ∧
            f.Reaches inputs w.machine front a ∧ a.frame.ledger.Emptied f.schedule g.frame.ledger
      | .ok os => ∃ a, f.Reaches inputs w.machine f.schedule.commands a ∧
          a.frame.ledger.Sheds f.schedule (fun b => !b.isOwned) g.frame.ledger ∧
            List.Forall₂ (a.frame.ledger.Gives borrow) f.schedule.outputs os := by
  obtain ⟨scope, l, -, fits⟩ := good.fits (by simp [split] : f ∈ w.executables) inputs
  have reliable := good.course_reliable (by simp [split] : f ∈ w.executables) inputs trivial
  obtain ⟨a, rfl, -, met⟩ := run_cases (Course.invoke_halts (a := ⟨f.frame, w.machine⟩) (f := f.id) (fits accepts)
    (good.settled split) accepts.usable accepts.inputs reliable) ran
  refine ⟨rfl, rfl, ?_⟩
  cases result <;> exact met

namespace Abreast

theorem accepts_iff (abreast : Abreast w w' f f' fs fs') : f.Accepts inputs ↔ f'.Accepts inputs := by
  have usable := abreast.good.usable trivial f (by simp [abreast.split])
  have usable' := abreast.good'.usable trivial f' (by simp [abreast.split'])
  have same := abreast.contrasts.schedule
  exact ⟨fun accepts => ⟨usable', same ▸ accepts.inputs⟩, fun accepts => ⟨usable, same ▸ accepts.inputs⟩⟩

/-- Both calls are about the same values. -/
theorem value (abreast : Abreast w w' f f' fs fs') (inputs : List Tensor) :
    (f.course inputs w.machine).value = (f'.course inputs w'.machine).value :=
  abreast.contrasts.twin.value abreast.cells

/-- Between any two commands of a call, the ledgers are side by side. -/
theorem reaches (abreast : Abreast w w' f f' fs fs') (accepts : f.Accepts inputs)
    (order : f.schedule.commands = done ++ rest) (reaches : f.Reaches inputs w.machine done a)
    (reaches' : f'.Reaches inputs w'.machine done a') :
    a.frame.ledger.Tandem a'.frame.ledger f.schedule (Matched fs fs' w.outputs w'.outputs) := by
  have schedule := abreast.contrasts.schedule
  have split : w.executables = [] ++ f :: fs := abreast.split
  have split' : w'.executables = [] ++ f' :: fs' := abreast.split'
  induction done using List.reverseRecOn generalizing rest a a' with
  | nil =>
    have lends' := reaches'.lends
    rw [schedule] at lends'
    exact abreast.tandem.lends reaches.lends lends'
  | append_singleton done cmd ih =>
    rw [List.append_assoc, List.singleton_append] at order
    have order' : f'.schedule.commands = done ++ cmd :: rest := schedule ▸ order
    obtain ⟨b, reached, ran⟩ := reaches.last
    obtain ⟨b', reached', ran'⟩ := reaches'.last
    have tandem := ih order reached reached'
    obtain ⟨mid, -⟩ := abreast.good.reaches split accepts order reached
    obtain ⟨mid', -⟩ := abreast.good'.reaches split' (abreast.accepts_iff.mp accepts) order' reached'
    obtain ⟨scope, l, laid, -⟩ := abreast.good.laid f (by simp [split])
    have member : cmd ∈ f.schedule.commands := by simp [order]
    have shapes : ∀ x ∈ cmd.inputs, b.frame.shapes[x.var]?.join = b'.frame.shapes[x.var]?.join := by
      intro x reads
      obtain ⟨t, value, shape⟩ := mid.known x.var (laid.ready order reads)
      have there' : f'.schedule.There done x.var := schedule ▸ laid.ready order reads
      obtain ⟨t', value', shape'⟩ := mid'.known x.var there'
      rw [← abreast.value inputs, value] at value'
      rw [shape, shape', Option.some.inj value']
    obtain ⟨moved, -⟩ := (Calling.execute_moves (laid.marked member) f.schedule).of_ok ran
    rw [schedule] at ran'
    obtain ⟨moved', -⟩ := (Calling.execute_moves (laid.marked member) f.schedule).of_ok ran'
    exact tandem.executes mid.tidy mid'.tidy abreast.contrasts.host abreast.contrasts.host'
      (fun matched => matched.level) abreast.contrasts.on abreast.contrasts.off
      (laid.writes_inside ⟨cmd, member, rfl⟩) (laid.kept_pinned member) (matched_of_free abreast.outputs) shapes
      moved moved'

section Calls

variable {result result' : Except Error (List Output)}

/-- Calls that give their results leave the ledgers side by side. -/
theorem gives (abreast : Abreast w w' f f' fs fs') (accepts : f.Accepts inputs) {os os' : List Output}
    (reaches : f.Reaches inputs w.machine f.schedule.commands a)
    (reaches' : f'.Reaches inputs w'.machine f.schedule.commands a')
    (sheds : a.frame.ledger.Sheds f.schedule (fun b => !b.isOwned) g.frame.ledger)
    (sheds' : a'.frame.ledger.Sheds f.schedule (fun b => !b.isOwned) g'.frame.ledger)
    (gives : List.Forall₂ (a.frame.ledger.Gives borrow) f.schedule.outputs os)
    (gives' : List.Forall₂ (a'.frame.ledger.Gives borrow) f.schedule.outputs os') :
    g.frame.ledger.Tandem g'.frame.ledger f.schedule (Matched fs fs' (os ++ w.outputs) (os' ++ w'.outputs)) := by
  have tandem := abreast.reaches accepts (List.append_nil _).symm reaches reaches'
  refine (tandem.sheds sheds sheds').repair fun {x r r'} at_ at_' ⟨unshared, unshared', held⟩ =>
    ⟨unshared, unshared', ?_⟩
  -- Both results of an output hold the buffers in the slot, or none of them does.
  have counted {l : Ledger} {os : List Output} {r : BlockRef} (apart : l.Apart)
      (there : l.buffer? x = some (.owned r)) (gives : List.Forall₂ (l.Gives borrow) f.schedule.outputs os) :
      os.map (fun o => o.holds r.key) =
        f.schedule.outputs.map fun y => if borrow = true ∧ y.slot = x then 1 else 0 := by
    rw [← List.forall₂_eq_eq_eq, List.forall₂_map_left_iff, List.forall₂_map_right_iff]
    exact gives.flip.imp fun o y (given : l.Gives borrow y o) => given.holds apart there
  rw [List.map_append, List.map_append, held, counted tandem.apart (sheds.old at_) gives,
    counted tandem.apart' (sheds'.old at_') gives']

/-- Calls that fail at a command leave all slots empty. -/
theorem fails (abreast : Abreast w w' f f' fs fs') (accepts : f.Accepts inputs)
    (order : f.schedule.commands = done ++ rest) (reaches : f.Reaches inputs w.machine done a)
    (reaches' : f'.Reaches inputs w'.machine done a') (emptied : a.frame.ledger.Emptied f.schedule g.frame.ledger)
    (emptied' : a'.frame.ledger.Emptied f.schedule g'.frame.ledger) {pair : Key → Key → Prop} :
    g.frame.ledger.Tandem g'.frame.ledger f.schedule pair := by
  have tandem := abreast.reaches accepts order reaches reaches'
  obtain ⟨allocations, reuses, -⟩ := emptied.tally
  obtain ⟨allocations', reuses', releases'⟩ := emptied'.tally
  refine Ledger.tandem_of_empty emptied.size emptied'.size (emptied.counts.trans emptied'.counts.symm) emptied.vacant
    emptied'.vacant ?_ ?_ ?_
  · rw [allocations, reuses, allocations', reuses']
    exact tandem.acquired
  · rw [allocations, allocations']
    exact tandem.fewer
  · rw [releases']
    exact tandem.unreleased

/-- The same call of both fails for the same reason or gives as many results, and the ledgers stay side by side. -/
theorem call_ledgers (abreast : Abreast w w' f f' fs fs') (ran : f.call inputs borrow w.machine = (result, g, m))
    (ran' : f'.call inputs borrow w'.machine = (result', g', m')) (same : SameOutcome m m' result result') :
    (g.schedule = f.schedule ∧ g.context = f.context ∧ g'.schedule = f'.schedule ∧ g'.context = f'.context) ∧
      (results result).length = (results result').length ∧ (∀ e, result = .error e ↔ result' = .error e) ∧
        g.frame.ledger.Tandem g'.frame.ledger f.schedule
          (Matched fs fs' (results result ++ w.outputs) (results result' ++ w'.outputs)) := by
  have schedule := abreast.contrasts.schedule
  have split : w.executables = [] ++ f :: fs := abreast.split
  have split' : w'.executables = [] ++ f' :: fs' := abreast.split'
  cases accepted : Calling.accept f.schedule inputs with
  | error e =>
    obtain ⟨rfl, rfl, -⟩ := abreast.good.call_refused split accepted ran
    obtain ⟨rfl, rfl, -⟩ := abreast.good'.call_refused split' (schedule ▸ accepted) ran'
    exact ⟨⟨rfl, rfl, rfl, rfl⟩, rfl, fun _ => Iff.rfl, abreast.tandem⟩
  | ok _ =>
    have accepts : f.Accepts inputs := ⟨abreast.good.usable trivial f (by simp [split]), accepted⟩
    obtain ⟨kept, context, met⟩ := abreast.good.call_halts split accepts ran
    obtain ⟨kept', context', met'⟩ := abreast.good'.call_halts split' (abreast.accepts_iff.mp accepts) ran'
    refine ⟨⟨kept, context, kept', context'⟩, ?_⟩
    rw [schedule] at met'
    cases result with
    | ok os =>
      cases result' with
      | error e' => cases same
      | ok os' =>
        obtain ⟨a, reaches, sheds, gives⟩ := met
        obtain ⟨a', reaches', sheds', gives'⟩ := met'
        exact ⟨gives.length_eq.symm.trans gives'.length_eq, by simp,
          abreast.gives accepts reaches reaches' sheds sheds' gives gives'⟩
    | error e =>
      cases result' with
      | ok os' => cases same
      | error e' =>
        obtain ⟨front, cmd, back, a, stuck, reaches, emptied⟩ := met
        obtain ⟨front', cmd', back', a', stuck', reaches', emptied'⟩ := met'
        obtain ⟨rfl, rfl⟩ := stuck.toStopsAt.unique stuck'.toStopsAt (congrArg Schedule.commands schedule) (abreast.value inputs)
        exact ⟨rfl, fun _ => Iff.rfl, abreast.fails accepts stuck.split reaches reaches' emptied emptied'⟩

/-- After the same call of both the worlds are as alike as before. -/
theorem call (abreast : Abreast w w' f f' fs fs') (ran : f.call inputs borrow w.machine = (result, g, m))
    (ran' : f'.call inputs borrow w'.machine = (result', g', m')) :
    Abreast { w with machine := m, executables := g :: fs, outputs := results result ++ w.outputs }
        { w' with machine := m', executables := g' :: fs', outputs := results result' ++ w'.outputs } g g' fs fs' ∧
      SameOutcome m m' result result' ∧ ∀ e, result = .error e ↔ result' = .error e := by
  obtain ⟨schedule, relaxed, host, host', on, off⟩ := abreast.contrasts
  have split : w.executables = [] ++ f :: fs := abreast.split
  have split' : w'.executables = [] ++ f' :: fs' := abreast.split'
  obtain ⟨same, cells⟩ := abreast.good.repeats split abreast.good' split' abreast.cells abreast.contrasts.twin
    (congrArg Schedule.commands schedule) ran ran'
  obtain ⟨⟨kept, context, kept', context'⟩, lengths, errors, tandem⟩ := abreast.call_ledgers ran ran' same
  refine ⟨⟨abreast.good.call split ran, abreast.good'.call split' ran', rfl, rfl, ?_, abreast.known, cells, ?_,
    kept ▸ tandem⟩, same, errors⟩
  · exact ⟨by rw [kept, kept', schedule], context ▸ context' ▸ relaxed, context ▸ host, context' ▸ host', context ▸ on,
      context' ▸ off⟩
  · simp only [List.length_append, lengths, abreast.outputs]

end Calls

end Abreast

end World

end TensorGraph
