import TensorGraph.Proofs.World.History

/-! What a call does, after any history: whatever a command reads is in its slot, no read of a slot is missed or
counted twice, and the persistent values are written all at once or not at all. -/
namespace TensorGraph

open Checked TensorGraph.Action

namespace Calling

/-- A call up to some of its commands. -/
def upTo (s : Schedule) (c : Context) (f : ExecutableId) (inputs : List Tensor) (done : List Command) :
    Calling Unit := do
  let _ ← nextCall f
  begin s inputs
  done.forM (execute s c)

theorem upTo_concat (s : Schedule) (c : Context) (f : ExecutableId) (inputs : List Tensor) (done : List Command)
    (cmd : Command) : upTo s c f inputs (done ++ [cmd]) = upTo s c f inputs done >>= fun _ => execute s c cmd := by
  unfold upTo
  rw [forM_concat]
  simp only [bind_assoc]

end Calling

section

variable [BlockRoutine]

namespace Course

variable {s : Schedule} {c : Context} {f : ExecutableId} {args : List Tensor} {scope : Scope} {l : Layout}
  {ext : Key → Nat} {a : Activation} {done rest : List Command}

/-- A call up to some of its commands. It stops at one whose operands disagree, after those before it. -/
theorem upTo_halts (fits : (next s c f args a.machine).Fits scope l) (settled : s.Settled c ext a)
    (usable : a.frame.poisoned = none) (split : s.commands = done ++ rest) :
    (Calling.upTo s c f args done).Meets a
      (fun e a' => (next s c f args a.machine).Breaks ext e a' ∨ ∃ before cmd after, cmd ∈ done ∧
        (next s c f args a.machine).Stuck ext before cmd after e a' ∧
          (Calling.upTo s c f args before).start a = (.ok (), a'))
      fun _ a' => (next s c f args a.machine).Midway ext done rest a' ∧ Counts rest [] a' := by
  have opened (e : Error → Activation → Prop) : (Calling.begin s args).Meets
      ⟨a.frame, (next s c f args a.machine).start⟩ e _ := begin_meets fits (settled_next settled f args) rfl usable
  have opens (before : List Command) : (Calling.upTo s c f args before).start a =
      (Calling.begin s args >>= fun _ => before.forM (Calling.execute s c)).start
        ⟨a.frame, (next s c f args a.machine).start⟩ := rfl
  unfold Meets
  rw [opens]
  change Meets _ _ _ _
  rw [meets_bind]
  refine (Action.meets_start _ _).mono (fun e a' here => ((opened fun _ _ => False).of_error here).elim)
    fun _ a' here => ?_
  obtain ⟨mid, counts⟩ := (opened fun _ _ => False).of_ok here
  refine (mid.commands_halt fits split counts).mono (fun e a'' halts => ?_) fun _ _ held => held
  refine halts.imp_right fun ⟨before, cmd, after, member, stuck, ran⟩ => ⟨before, cmd, after, member, stuck, ?_⟩
  rw [opens, start_bind, here]
  exact ran

theorem upTo_meets (fits : (next s c f args a.machine).Fits scope l) (settled : s.Settled c ext a)
    (usable : a.frame.poisoned = none) (split : s.commands = done ++ rest) :
    (Calling.upTo s c f args done).Meets a (fun e a' => (next s c f args a.machine).Fails ext e a') fun _ a' =>
      (next s c f args a.machine).Midway ext done rest a' ∧ Counts rest [] a' := by
  refine (upTo_halts fits settled usable split).mono ?_ fun _ _ held => held
  rintro e a' (breaks | ⟨before, cmd, after, -, stuck, -⟩)
  · exact breaks.toFails
  · exact stuck.fails

/-- The slot of a variable holds its value, or the trace of a launch of this call that failed. -/
def Holds (r : Course) (a : Activation) (x : Site) : Prop :=
  ∃ b data t, a.frame.buffer? x.slot = some b ∧ a.machine.contents b = some data ∧ r.value x.var = some t ∧
    (a.machine.taints b = false ∧ data.Begins t.data ∨
      a.machine.taints b = true ∧ ∃ id, a.machine.Blamed id (r.start.accelerator id).launches)

theorem Midway.holds {r : Course} (mid : r.Midway ext done rest a) {x : Site} (there : r.schedule.There done x.var)
    (needed : r.schedule.Needed rest x) : r.Holds a x := by
  obtain ⟨b, at_, t, d, value, -, carries⟩ := mid.pending x there needed
  cases tainted : a.machine.taints b with
  | false =>
    obtain ⟨data, contents, begins⟩ := carries.begins tainted
    exact ⟨b, data, t, at_, contents, value, .inl ⟨tainted, begins⟩⟩
  | true =>
    obtain ⟨data, contents⟩ := Option.isSome_iff_exists.mp carries.full
    exact ⟨b, data, t, at_, contents, value, .inr ⟨tainted, mid.traced x b there needed at_ tainted⟩⟩

end Course

namespace Executable

/-- A state of a call in which some commands have run. -/
def Reaches (f : Executable) (inputs : List Tensor) (m : Machine) (done : List Command) (a : Activation) : Prop :=
  (Calling.upTo f.schedule f.context f.id inputs done).start ⟨f.frame, m⟩ = (.ok (), a)

/-- A state of a call in which some commands have run, and one more that has given back some of its operands. -/
def ReachesWithin (f : Executable) (inputs : List Tensor) (m : Machine) (done : List Command) (cmd : Command)
    (front : List Site) (a : Activation) : Prop :=
  ∃ a', f.Reaches inputs m done a' ∧ (Calling.partly f.schedule f.context cmd front).start a' = (.ok (), a)

/-- What a call reads is there. -/
structure ReadsSafely (f : Executable) (inputs : List Tensor) (m : Machine) : Prop where
  /-- When a command runs, each of its operands is in its slot. -/
  operands : ∀ {done rest : List Command} {cmd : Command} {a : Activation}, f.schedule.commands = done ++ cmd :: rest →
    f.Reaches inputs m done a → ∀ x ∈ cmd.inputs, (f.course inputs m).Holds a x
  /-- A read of a slot that is given back was counted. -/
  counted : ∀ {done rest : List Command} {cmd : Command} {front back : List Site} {x : Site} {a : Activation},
    f.schedule.commands = done ++ cmd :: rest → cmd.inputs = front ++ x :: back →
      f.ReachesWithin inputs m done cmd front a → 0 < a.frame.counts.getD x.slot 0
  /-- The counts start at the number of reads in the schedule. -/
  reads : ∀ slot, f.schedule.reads.getD slot 0 = Schedule.readsOf f.schedule.commands slot
  /-- After the last command all of them are given back. -/
  exhausted : ∀ {a : Activation}, f.Reaches inputs m f.schedule.commands a → ∀ slot, a.frame.counts.getD slot 0 = 0
  /-- No slot is found empty. -/
  occupied : ∀ {borrow : Bool} {e : Error} {g : Executable} {m' : Machine}, f.call inputs borrow m = (.error e, g, m') →
    ∀ slot : SlotId, e ≠ .message s!"slot {slot} is empty"

/-- What a call of an executable that a program was compiled to does to the persistent values. -/
structure UpdatesAtOnce (f : Executable) (p : Program) (inputs : List Tensor) (m m' : Machine)
    (result : Except Error (List Output)) : Prop where
  /-- A call that fails leaves all of them as they were. -/
  failed : ∀ e, result = .error e → m'.cells = m.cells
  /-- A call that succeeds has written what the compiled program computes from the values at its start. -/
  written : ∀ os, result = .ok os → List.Forall₂ (fun u v => ∃ c t, p.cellOf u.1 = some c ∧
    (f.course inputs m).value v.2 = some t ∧ m'.cells[c.id]? = some t) p.updates f.schedule.program.updates
  /-- All others are as they were. -/
  others : ∀ i, (∀ u ∈ p.updates, ∀ c, p.cellOf u.1 = some c → c.id ≠ i) → m'.cells[i]? = m.cells[i]?
  /-- No new value is refused for its kind or its rank. -/
  accepted : f.Accepts inputs → ∀ {borrow : Bool} {call : Nat} {os : List Output} {vs : List (Cell × Tensor)}
    {a : Activation}, (Calling.readings f.schedule f.context f.id inputs borrow call).start
      ⟨f.frame, (f.course inputs m).start⟩ = (.ok (os, vs), a) → ∀ v ∈ vs, ∀ m, ((v.1.write v.2).start m).1 = .ok ()

end Executable

end

namespace World

variable {w : World} {m : Machine} {before after : List Executable} {f g : Executable} {inputs : List Tensor}
  {done rest : List Command} {cmd : Command} {a : Activation}

section Operands

theorem Good.reaches [BlockRoutine] {faultless : Prop} (good : Good faultless w) (split : w.executables = before ++ f :: after)
    (accepts : f.Accepts inputs) (order : f.schedule.commands = done ++ rest)
    (reaches : f.Reaches inputs w.machine done a) :
    (f.course inputs w.machine).Midway (others (before ++ after) w.outputs) done rest a ∧ Course.Counts rest [] a := by
  obtain ⟨scope, l, -, fits⟩ := good.fits (by simp [split] : f ∈ w.executables) inputs
  exact (Course.upTo_meets (a := ⟨f.frame, w.machine⟩) (f := f.id) (fits accepts) (good.settled split)
    accepts.usable order).of_ok reaches

/-- On devices that are through with each launch before the host goes on, the slot of each operand of a command holds
its value when the command runs. Every operand that is given back was counted, and after the last command no read is
left; no slot is ever found empty. -/
theorem no_use_after_free [BlockRoutine] (reachable : Reachable False w) (split : w.executables = before ++ f :: after)
    (accepts : f.Accepts inputs) : f.ReadsSafely inputs w.machine := by
  have good := reachable.good
  obtain ⟨scope, l, -, fits⟩ := good.fits (by simp [split] : f ∈ w.executables) inputs
  have fits := fits accepts
  refine ⟨fun {_ _ cmd _} order reaches x reads => ?_, fun {_ _ _ _ _ x _} order whole reaches => ?_,
    fits.laid.reads_at, fun reaches slot => ?_, fun ran slot vacant => ?_⟩
  · obtain ⟨mid, -⟩ := good.reaches split accepts order reaches
    exact mid.holds (fits.laid.ready order reads) (.inr ⟨cmd, by simp, reads⟩)
  · obtain ⟨a', reached, partly⟩ := reaches
    obtain ⟨mid, counts⟩ := good.reaches split accepts order reached
    obtain ⟨-, counts'⟩ := (mid.partly_meets fits order counts whole).of_ok partly
    rw [counts' x.slot, List.countP_cons]
    simp
  · obtain ⟨-, counts⟩ := good.reaches split accepts (List.append_nil _).symm reaches
    exact counts slot
  · obtain ⟨a, -, -, ⟨-, refused⟩ | ⟨-, aborts⟩⟩ := good.call_cases split ran
    · rcases refused with ⟨reason, poisoned, -⟩ | ⟨-, refused⟩
      · cases accepts.usable.symm.trans poisoned
      · cases accepts.inputs.symm.trans refused
    · exact aborts.notVacant ⟨slot, vacant⟩

section

open scoped BlockRoutine

example : ∃ w f, Reachable False w ∧ w.executables = [f] ∧ f.ReadsSafely [.vector ⟨.i32, #[1, 2, 3]⟩] w.machine := by
  obtain ⟨w, f, reachable, alone, -, -, accepts, -⟩ := reachable_negatedSum False {} .first
    (.vector ⟨.i32, #[1, 2, 3]⟩) False.elim rfl (by decide +kernel)
  have split : w.executables = [] ++ f :: [] := alone
  exact ⟨w, f, reachable, alone, no_use_after_free reachable split accepts⟩

end

end Operands

section Updates

variable {p : Program} {borrow : Bool} {result : Except Error (List Output)}

section

variable [BlockRoutine]

/-- The persistent values that a schedule writes are those of the updates of the source, in their order. -/
theorem targets_of_source (fresh : w.Fresh p) {c : Context} (honest : c.kernels.Honest) {s : Schedule}
    (compiled : p.schedule c = .ok s) {scope : Scope} {l : Layout} (laid : s.LaidOut c scope l) :
    List.Forall₂ (fun u (e : Cell × Site) => p.cellOf u.1 = some e.1) p.updates s.updates := by
  obtain ⟨p', l', compiles⟩ := fresh.compiles honest compiled
  have same := compiles.sameInterface.updates.trans laid.update_cells
  rwa [List.map_map, ← List.forall₂_eq_eq_eq, List.forall₂_map_left_iff, List.forall₂_map_right_iff] at same

/-- Different persistent values are told apart by their numbers. -/
theorem targets_distinct {faultless : Prop} (good : Good faultless w) {us : List (Cell × Site)}
    (known : ∀ e ∈ us, e.1 ∈ w.cells)
    (targets : List.Forall₂ (fun u (e : Cell × Site) => p.cellOf u.1 = some e.1) p.updates us)
    (distinct : (p.updates.map fun u => p.cellOf u.1).Nodup) : (us.map fun e => e.1.id).Nodup := by
  have cells : p.updates.map (fun u => p.cellOf u.1) = (us.map Prod.fst).map some := by
    rw [List.map_map, ← List.forall₂_eq_eq_eq, List.forall₂_map_left_iff, List.forall₂_map_right_iff]
    exact targets
  have once : (us.map Prod.fst).Nodup := List.Nodup.of_map some (cells ▸ distinct)
  have numbers := once.map_on fun c inCells c' inCells' equal => by
    obtain ⟨e, inUpdates, rfl⟩ := List.mem_map.mp inCells
    obtain ⟨e', inUpdates', rfl⟩ := List.mem_map.mp inCells'
    exact good.numbered _ (known e inUpdates) _ (known e' inUpdates') equal
  rwa [List.map_map] at numbers

/-- A call that fails changes no persistent value. On devices that are through with each launch before the host goes
on, a call that succeeds has written to every target of an update the value that the compiled program computes for it
from the persistent values at the start, and to nothing else. No value is refused. -/
theorem updates_all_or_none (reachable : Reachable False w) (split : w.executables = before ++ f :: after)
    (fresh : w.Fresh p) (compiled : p.schedule f.context = .ok f.schedule)
    (distinct : (p.updates.map fun u => p.cellOf u.1).Nodup)
    (ran : f.call inputs borrow w.machine = (result, g, m)) :
    f.UpdatesAtOnce p inputs w.machine m result := by
  have good := reachable.good
  obtain ⟨scope, l, known, fits⟩ := good.fits (by simp [split] : f ∈ w.executables) inputs
  obtain ⟨a, -, rfl, met⟩ := good.call_cases split ran
  have failed : ∀ e, result = .error e → a.machine.cells = w.machine.cells := by
    rintro e rfl
    rcases met with ⟨rfl, -⟩ | ⟨-, aborts⟩
    · rfl
    · exact aborts.lasts.cells
  refine ⟨failed, fun os isOk => ?_, fun i other => ?_, fun accepts _ call os vs a reads v inValues m => ?_⟩
  · subst isOk
    obtain ⟨accepts, ends⟩ := met
    have fits := fits accepts
    have inWorld : ∀ e ∈ f.schedule.updates, e.1 ∈ w.cells := fun e member => known _ (fits.update_cell member)
    have targets := targets_of_source fresh fits.honest compiled fits.laid
    have once := targets_distinct good inWorld targets distinct
    rw [show a.machine.cells = (f.course inputs w.machine).after from ends.lasts.cells]
    have sites : List.Forall₂ (fun (e : Cell × Site) (v : VarId × VarId) => e.2.var = v.2) f.schedule.updates
        f.schedule.program.updates := fits.laid.updates.flip.imp fun _ _ held => held.1.1
    have values : ∀ e ∈ f.schedule.updates, ∃ t, (f.course inputs w.machine).value e.2.var = some t ∧
        (f.course inputs w.machine).after[e.1.id]? = some t := fun e member => by
      obtain ⟨t, value⟩ := Option.isSome_iff_exists.mp (ends.values e member)
      exact ⟨t, value, Course.written_updated once member value (good.typed _ (inWorld e member)).1⟩
    refine forall₂_through targets ((List.forall₂_and_left _ _).mpr ⟨values, sites⟩) ?_
    rintro u e v cell ⟨⟨t, value, after⟩, var⟩
    exact ⟨e.1, t, cell, var ▸ value, after⟩
  · cases result with
    | error e => rw [failed e rfl]
    | ok os =>
      obtain ⟨accepts, ends⟩ := met
      have targets := targets_of_source fresh (fits accepts).honest compiled (fits accepts).laid
      rw [show a.machine.cells = (f.course inputs w.machine).after from ends.lasts.cells]
      refine Course.written_other (fun e member equal => ?_) _
      obtain ⟨u, inSource, cell⟩ := partner_of targets member
      exact other u inSource e.1 cell equal
  · obtain ⟨-, -, -, values⟩ := (Course.readings_meet (fits accepts)
      (Course.settled_next (good.settled split) f.id inputs) rfl accepts.usable).of_ok reads
    obtain ⟨u, inUpdates, cell, value⟩ := partner_of values inValues
    obtain ⟨kind, rank⟩ := (fits accepts).update_typed inUpdates value
    unfold Cell.write
    simp only [cell, kind, rank, ne_eq, not_true_eq_false, ↓reduceIte]
    rfl

end

section

open scoped BlockRoutine

/-- Two persistent values change places. -/
example : ∃ w c c' f, Reachable False w ∧ w.cells = [c', c] ∧ w.executables = [f] ∧
    let (result, _, m) := f.call [] false w.machine
    f.UpdatesAtOnce (.exchange c c') [] w.machine m result := by
  have made : Reachable False { machine := { cells := #[.scalar (1 : Elem .i32), .scalar (2 : Elem .i32)] },
                                cells := [⟨1, .i32, 0⟩, ⟨0, .i32, 0⟩] } :=
    ((Reachable.start 4 false).step (.create (.scalar (1 : Elem .i32)) rfl)).step
      (.create (.scalar (2 : Elem .i32)) rfl)
  have opened : (Context.build {} [] .host).start { cells := #[.scalar (1 : Elem .i32), .scalar (2 : Elem .i32)] } =
    (.ok .first, _) := rfl
  obtain ⟨w, f, reachable, alone, context, compiled, -, cells, -⟩ := made.holding Kernels.honest_host False.elim opened
    (p := .exchange ⟨0, .i32, 0⟩ ⟨1, .i32, 0⟩) (fresh_exchange (by simp) (by simp)) (by decide +kernel)
  have split : w.executables = [] ++ f :: [] := alone
  have fresh : w.Fresh (.exchange ⟨0, .i32, 0⟩ ⟨1, .i32, 0⟩) := fresh_exchange (by simp [cells]) (by simp [cells])
  exact ⟨w, _, _, f, reachable, cells, alone,
    updates_all_or_none reachable split fresh (context ▸ compiled) (by decide) rfl⟩

end

end Updates

end World

/-- The machine before the second of two calls, and what that one gives. The results of the first one stay on the
device until they are dropped. The device goes on without waiting for launches on more than `most` elements. -/
def Program.callTwice [BlockRoutine] (p : Program) (config : Config) (most : Nat) (first second : List Tensor) :
    Action Machine (Machine × List Output) := do
  let c ← Context.build config [] .host
  modify fun m => m.hurry most
  let (left, f, m) := (← p.compile c).call first true (← get)
  let before := (← left).foldl (fun m o => o.release m) m
  let (results, _, m) := f.call second false before
  set m
  return (before, ← results)

section Overlap

/-- The sum of both arguments and of the columns of a table. The negated first argument is stored. -/
def Program.overlap : Program :=
  let x := ((Graph.empty .f32).input { kind := .i32, rank := 1 } none).1
  let y := (x.input { kind := .i32, rank := 1 } none).1
  let table := (y.shared ⟨0, .i32, 2⟩).1
  let target := (table.shared ⟨1, .i32, 1⟩).1
  let copied := (target.apply (.toDevice 0) [0]).1
  let opposite := (copied.apply (.unary .neg) [1]).1
  let negated := (opposite.apply (.unary .neg) [4]).1
  let sums := (negated.apply (.reduce .sum (some 0)) [2]).1
  let added := (sums.apply (.binary .add) [4, 7]).1
  ⟨(added.apply (.binary .sub) [8, 5]).1, [0, 1], [9], [(3, 6)]⟩

open scoped BlockRoutine

/-- A table of two columns of ones. -/
def Tensor.rows (n : Nat) : Tensor := (Tensor.full (1 : Elem .i32) [n, 2]).toOption.getD (.scalar (1 : Elem .i32))

/-- Two elements. -/
def Tensor.pair (x y : Elem .i32) : Tensor := .vector ⟨.i32, #[x, y]⟩ rfl

/-- The program on an accelerator of three lanes, on which a launch may fail, and a table of nine rows. -/
def Program.overlapped (fault : Option Fault) (most : Nat) : Except Error (Machine × List Output) × Machine :=
  (overlap.callTwice
    { target := .sim 0, collect := false, excluded := ["fusion"], sim := { lanes := some 3, fault } } most
    [.pair 1 2, .pair 5 6] [.pair 10 20, .pair 5 6]).start
    { cells := #[.rows 9, .pair 0 0] }

/-- Whether two calls succeed, and the second one stores these numbers. -/
def Program.stores (run : Except Error (Machine × List Output) × Machine) (xs : Array (Elem .i32)) : Bool :=
  run.1.isOk && (run.2.cells[1]?.map fun t => t.data).any (Data.same ⟨.i32, xs⟩)

/-- A launch that the first call leaves behind adds to the argument of the second one, which stores the negated sum. -/
theorem Program.late_launch_spoils_update : stores (overlapped (some ⟨false, 1⟩) 18) #[-19, -29] ∧
    stores (overlapped none 1000) #[-10, -20] := by decide +kernel

end Overlap

end TensorGraph
