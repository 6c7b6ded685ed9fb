import TensorGraph.Proofs.Executable.Results

/-! Whole calls. A call that succeeds gives the values of its outputs and has written those of its updates; a call
that fails has changed no persistent value and leaves the executable as if it had never been called. -/
namespace TensorGraph

open Checked TensorGraph.Action

namespace Calling

theorem checkInputs_ok {i : Nat} {expected : List (Site × Ty)} {ts : List Tensor}
    (lengths : ts.length = expected.length) (accepted : checkInputs i expected ts = .ok ()) :
    List.Forall₂ (fun e (t : Tensor) => t.kind = e.2.kind ∧ t.rank = e.2.rank) expected ts := by
  induction expected generalizing i ts with
  | nil =>
    obtain rfl := List.length_eq_zero_iff.mp lengths
    exact .nil
  | cons e expected ih =>
    cases ts with
    | nil => cases lengths
    | cons t ts =>
      obtain ⟨x, ty⟩ := e
      unfold checkInputs at accepted
      by_cases kind : t.kind = ty.kind
      swap
      · simp [kind] at accepted
      by_cases rank : t.rank = ty.rank
      swap
      · simp [kind, rank] at accepted
      simp only [kind, rank, ne_eq, not_true_eq_false, ↓reduceIte] at accepted
      exact .cons ⟨kind, rank⟩ (ih (Nat.succ.inj lengths) accepted)

/-- Arguments that are accepted are those that the program takes. -/
theorem accept_ok {s : Schedule} {c : Context} {scope : Scope} {l : Layout} (laid : s.LaidOut c scope l)
    {ts : List Tensor} (accepted : accept s ts = .ok ()) : s.program.Takes ts := by
  unfold accept at accepted
  by_cases lengths : ts.length = s.inputs.length
  swap
  · simp [lengths] at accepted
  simp only [lengths, ne_eq, not_true_eq_false, ↓reduceIte] at accepted
  rw [Program.Takes, ← List.forall₂_eq_eq_eq, List.forall₂_map_left_iff, List.forall₂_map_right_iff]
  refine forall₂_through laid.inputs (checkInputs_ok lengths accepted) fun v e t known fits => ?_
  obtain ⟨-, x, atV, ty⟩ := known
  rw [Program.typeOf, atV, Option.map_some, fits.1, fits.2, ty]

theorem invalid_of_checkInputs {i : Nat} {expected : List (Site × Ty)} {ts : List Tensor} {e : Error}
    (refused : checkInputs i expected ts = .error e) : ∃ text, e = .invalidCall text := by
  induction expected generalizing i ts with
  | nil => cases refused
  | cons x expected ih =>
    obtain ⟨x, ty⟩ := x
    cases ts with
    | nil => cases refused
    | cons t ts =>
      unfold checkInputs at refused
      by_cases kind : t.kind = ty.kind
      · by_cases rank : t.rank = ty.rank
        · simp only [kind, rank, ne_eq, not_true_eq_false, ↓reduceIte] at refused
          exact ih refused
        · simp only [kind, rank, ne_eq, not_true_eq_false, not_false_eq_true, ↓reduceIte] at refused
          cases refused
          exact ⟨_, rfl⟩
      · simp only [kind, ne_eq, not_false_eq_true, ↓reduceIte] at refused
        cases refused
        exact ⟨_, rfl⟩

/-- A call that is refused for its arguments is invalid. -/
theorem invalid_of_accept {s : Schedule} {ts : List Tensor} {e : Error} (refused : accept s ts = .error e) :
    ∃ text, e = .invalidCall text := by
  unfold accept at refused
  split at refused
  · cases refused
    exact ⟨_, rfl⟩
  · exact invalid_of_checkInputs refused

/-- The results and the new values, once all commands have run. -/
def answer (s : Schedule) (c : Context) (f : ExecutableId) (borrow : Bool) (call : Nat) :
    Calling (List Output × List (Cell × Tensor)) := do
  if !borrow || !s.updates.isEmpty then enter .syncing
  let outputs ← s.outputs.mapM (output c f borrow call)
  let values ← newValues s c
  return (outputs, values)

/-- What a call computes and reads before it writes anything that outlives it. -/
def readings (s : Schedule) (c : Context) (f : ExecutableId) (inputs : List Tensor) (borrow : Bool) (call : Nat) :
    Calling (List Output × List (Cell × Tensor)) := do
  begin s inputs
  s.commands.forM (execute s c)
  if !borrow || !s.updates.isEmpty then enter .syncing
  let outputs ← s.outputs.mapM (output c f borrow call)
  let values ← newValues s c
  return (outputs, values)

/-- The new values are written, and the results are handed out. -/
def commit (s : Schedule) (results : List Output × List (Cell × Tensor)) : Calling (List Output) := do
  results.2.forM fun (cell, t) => onMachine (cell.write t)
  modify fun a => { a with machine := results.1.foldl (fun m o => o.retain m) a.machine }
  dropBorrowed s
  enter .complete
  return results.1

theorem readings_eq (s : Schedule) (c : Context) (f : ExecutableId) (inputs : List Tensor) (borrow : Bool)
    (call : Nat) : readings s c f inputs borrow call = (do
      begin s inputs
      s.commands.forM (execute s c)
      answer s c f borrow call) := rfl

theorem run_eq (s : Schedule) (c : Context) (f : ExecutableId) (inputs : List Tensor) (borrow : Bool) (call : Nat) :
    run s c f inputs borrow call = readings s c f inputs borrow call >>= commit s := by
  unfold run readings commit
  simp only [bind_assoc]
  refine bind_congr fun _ => bind_congr fun _ => ?_
  split <;> simp only [bind_assoc, pure_bind]

end Calling

variable [BlockRoutine]

/-- Waiting for the devices of a context alters nothing. -/
theorem Context.synchronize_meets (c : Context) {m : Machine} (sane : m.Sane) (has : ∀ d, c.Owns d → m.Has d) :
    c.synchronize.Meets m (fun _ m' => m.Alters m' (fun _ => False) False ∧ ¬ c.Reliable m)
      fun _ m' => m.Alters m' (fun _ => False) False := by
  unfold Context.synchronize
  cases accelerator : c.accelerator with
  | none => exact .refl _
  | some d =>
    refine (Device.synchronize_meets sane (has d (.inr accelerator))).mono ?_ fun _ _ held => held
    exact fun _ m ⟨alters, ill⟩ => ⟨alters, fun reliable => ill (reliable.serves d (.inr accelerator))⟩

namespace Course

variable {r : Course} {scope : Scope} {l : Layout} {ext : Key → Nat} {a a' : Activation} {f : ExecutableId}
  {call : Nat} {borrow : Bool}

/-- Persistent values after some updates. -/
def written (r : Course) (us : List (Cell × Site)) (cells : Array Tensor) : Array Tensor :=
  us.foldl (fun cells u => match r.value u.2.var with
    | some t => cells.setIfInBounds u.1.id t
    | none => cells) cells

/-- The persistent values after the call. -/
def after (r : Course) : Array Tensor := r.written r.schedule.updates r.start.cells

/-- What is not updated stays. -/
theorem written_other {us : List (Cell × Site)} {i : Nat} (other : ∀ u ∈ us, u.1.id ≠ i) (cells : Array Tensor) :
    (r.written us cells)[i]? = cells[i]? := by
  induction us generalizing cells with
  | nil => rfl
  | cons u us ih =>
    rw [written, List.foldl_cons, ← written, ih fun v member => other v (List.mem_cons_of_mem _ member)]
    split
    · exact Array.getElem?_setIfInBounds_ne (other u (List.mem_cons_self ..))
    · rfl

/-- What is updated once has its new value. -/
theorem written_updated {us : List (Cell × Site)} (distinct : (us.map fun u => u.1.id).Nodup) {u : Cell × Site}
    (member : u ∈ us) {t : Tensor} (value : r.value u.2.var = some t) {cells : Array Tensor}
    (inRange : u.1.id < cells.size) : (r.written us cells)[u.1.id]? = some t := by
  induction us generalizing cells with
  | nil => cases member
  | cons v us ih =>
    obtain ⟨once, distinct⟩ := List.nodup_cons.mp distinct
    rw [written, List.foldl_cons, ← written]
    rcases List.mem_cons.mp member with rfl | later
    · rw [written_other fun v' member' same => once (List.mem_map.mpr ⟨v', member', same⟩), value]
      exact Array.getElem?_setIfInBounds_self_of_lt inRange
    · refine ih distinct later ?_
      split
      · rwa [Array.size_setIfInBounds]
      · exact inRange

/-- The machine that the call starts on, with the persistent values that it leaves. -/
def updated (r : Course) : Machine := { r.start with cells := r.after }

/-- A call that succeeded. -/
structure Ends (r : Course) (ext : Key → Nat) (f : ExecutableId) (call : Nat) (borrow : Bool) (os : List Output)
    (a : Activation) : Prop where
  settled : r.schedule.Settled r.context (fun k => ext k + Output.holdsAll os k) a
  poisoned : a.frame.poisoned = none
  lasts : r.updated.Lasts a.machine True
  quiet : r.context.Reliable r.start → r.updated.Lasts a.machine False
  sees : ∀ k, 0 < ext k → a.machine.sees k = r.start.sees k
  outputs : List.Forall₂ (fun (x : Site) o => ∃ t, r.value x.var = some t ∧
    Output.Gives o r.context a.machine f call borrow t) r.schedule.outputs os
  handles : ∀ o ∈ os, ∀ h, o = .borrowed h → ∀ b, h.buffer = .owned b → a.machine.Backs b
  values : ∀ u ∈ r.schedule.updates, (r.value u.2.var).isSome
  heard : borrow = false → ∀ id, ¬ a.machine.Blamed id (r.start.accelerator id).launches

/-- A call that failed after it was accepted. -/
structure Aborts (r : Course) (ext : Key → Nat) (e : Error) (a : Activation) : Prop where
  settled : r.schedule.Settled r.context ext a
  lasts : r.start.Lasts a.machine True
  quiet : r.context.Reliable r.start → r.start.Lasts a.machine False ∧ a.frame.poisoned = none
  sees : ∀ k, 0 < ext k → a.machine.sees k = r.start.sees k
  notVacant : ¬ e.Vacant
  stops : r.context.Reliable r.start → r.StopsWith e

/-- What is updated is a persistent value of the program. -/
theorem Fits.update_cell (fits : r.Fits scope l) {u : Cell × Site} (member : u ∈ r.schedule.updates) :
    scope.cell u.1 := by
  obtain ⟨v, -, -, y, atTarget, cell⟩ := partner_of fits.laid.updates member
  have fit := fits.laid.valid.graph.leaf atTarget
  cases origin : y.origin with
  | shared c =>
    rw [Var.Fits, origin] at fit
    obtain rfl : c = u.1 := by simpa [Var.cell?, origin] using cell
    exact fit.2.1
  | _ => simp [Var.cell?, origin] at cell

/-- The new value of a persistent value has its kind and rank. -/
theorem Fits.update_typed (fits : r.Fits scope l) {u : Cell × Site} (member : u ∈ r.schedule.updates) {t : Tensor}
    (value : r.value u.2.var = some t) : t.kind = u.1.kind ∧ t.rank = u.1.rank := by
  obtain ⟨v, inUpdates, ⟨same, -⟩, y, atTarget, cell⟩ := partner_of fits.laid.updates member
  obtain ⟨x, z, c, atTarget', atValue, origin, alike⟩ := fits.laid.valid.updates v inUpdates
  obtain rfl : y = x := Option.some.inj (atTarget.symm.trans atTarget')
  obtain rfl : c = u.1 := by simpa [Var.cell?, origin] using cell
  have fit := fits.laid.valid.graph.leaf atTarget
  rw [Var.Fits, origin] at fit
  rw [same] at value
  have has := fits.laid.valid.graph.value_hasType fits.binds atValue value
  have alike := alike fits.typed
  exact ⟨has.1.trans (alike.1.symm.trans fit.2.2.1.symm), has.2.trans (alike.2.symm.trans fit.2.2.2.symm)⟩

omit [BlockRoutine] in
/-- No new value is refused. -/
theorem writes_meet {vs : List (Cell × Tensor)} (typed : ∀ v ∈ vs, v.2.kind = v.1.kind ∧ v.2.rank = v.1.rank)
    {fails : Error → Activation → Prop} :
    (vs.forM fun (v : Cell × Tensor) => Calling.onMachine (v.1.write v.2)).Meets a fails fun _ a' =>
      a' = { a with machine := { a.machine with
        cells := vs.foldl (fun cells v => cells.setIfInBounds v.1.id v.2) a.machine.cells } } := by
  refine meets_forM (fun before _ a' => a' = { a with machine := { a.machine with
    cells := before.foldl (fun cells v => cells.setIfInBounds v.1.id v.2) a.machine.cells } }) _ rfl ?_
    fun _ held => held
  rintro before v after a₁ whole rfl
  obtain ⟨kind, rank⟩ := typed v (by rw [whole]; simp)
  have wrote : (v.1.write v.2).Meets { a.machine with
      cells := before.foldl (fun cells v => cells.setIfInBounds v.1.id v.2) a.machine.cells } (fun _ _ => False)
      fun _ m => m = { a.machine with
          cells := (before ++ [v]).foldl (fun cells v => cells.setIfInBounds v.1.id v.2) a.machine.cells } := by
    unfold Cell.write
    simp only [kind, rank, ne_eq, not_true_eq_false, ↓reduceIte]
    rw [meets_modify, List.foldl_append]
    rfl
  exact Calling.onMachine_meets wrote (fun _ _ => False.elim) fun _ m same => by rw [same]

theorem foldl_updates {us : List (Cell × Site)} {vs : List (Cell × Tensor)}
    (each : List.Forall₂ (fun u v => v.1 = u.1 ∧ r.value u.2.var = some v.2) us vs) (cells : Array Tensor) :
    vs.foldl (fun cells v => cells.setIfInBounds v.1.id v.2) cells = r.written us cells := by
  induction each generalizing cells with
  | nil => rfl
  | cons here _ ih =>
    obtain ⟨same, value⟩ := here
    rw [List.foldl_cons, ih, written, written, List.foldl_cons, same, value]

omit [BlockRoutine] in
/-- What holds of a machine holds of it with other persistent values. -/
theorem lasts_with_cells {m m' : Machine} {loud : Prop} (lasts : m.Lasts m' loud) (cells : Array Tensor) :
    Machine.Lasts { m with cells } { m' with cells } loud := { lasts with cells := rfl }

theorem settled_with_cells {s : Schedule} {c : Context} (settled : s.Settled c ext a) (cells : Array Tensor) :
    s.Settled c ext { a with machine := { a.machine with cells } } := by
  refine ⟨⟨settled.tidy.held, settled.tidy.owned, settled.tidy.has, settled.tidy.sane⟩, settled.slots,
    settled.shapes, fun cmd member kept b at_ => ?_⟩
  obtain ⟨clean, shown⟩ := settled.keeps cmd member kept b at_
  exact ⟨clean, fun args start => (shown args start).of_sees at_ fun _ _ => rfl⟩

/-- Data of the caller is given up, and what was handed out stays as it is. -/
theorem dropBorrowed_meets {s : Schedule} {c : Context} (settled : s.Settled c ext a)
    {fails : Error → Activation → Prop} : (Calling.dropBorrowed s).Meets a fails fun _ a' =>
      s.Settled c ext a' ∧ a.machine.Lasts a'.machine False ∧ (∀ k, 0 < ext k → a'.machine.sees k = a.machine.sees k) ∧
        a'.frame.poisoned = a.frame.poisoned := by
  refine (Calling.drop_meets s settled.tidy _).post ?_
  rintro _ a' ⟨tidy, sheds⟩
  refine ⟨⟨tidy, sheds.size.trans settled.slots, (congrArg Array.size sheds.shapes).trans settled.shapes, ?_⟩,
    sheds.lasts, sheds.others, sheds.poisoned⟩
  intro cmd member kept b at_
  have still : a.frame.buffer? cmd.output.slot = some b := by
    rw [← sheds.stays _ fun gone => ?_]
    · exact at_
    · rw [sheds.given _ gone] at at_
      cases at_
  have sees : ∀ k, Buffer.isIn k (some b) → a'.machine.sees k = a.machine.sees k := fun k isIn =>
    sheds.slots k _ (at_ ▸ isIn)
  obtain ⟨clean, shown⟩ := settled.keeps cmd member kept b still
  exact ⟨(Machine.contents_congr sees).2.trans clean, fun args start => (shown args start).of_sees at_ sees⟩

/-- The holders of what is handed out are counted, and nothing else changes. -/
theorem retain_settled {s : Schedule} {c : Context} (settled : s.Settled c ext a) {os : List Output}
    (known : ∀ o ∈ os, ∀ h, o = .borrowed h → ∀ b, h.buffer = .owned b →
      ∃ slot, a.frame.buffer? slot = some (.owned b)) :
    s.Settled c (fun k => ext k + Output.holdsAll os k) ⟨a.frame, os.foldl (fun m o => o.retain m) a.machine⟩ ∧
      a.machine.Lasts (os.foldl (fun m o => o.retain m) a.machine) False ∧
      ∀ k, (os.foldl (fun m o => o.retain m) a.machine).sees k = a.machine.sees k := by
  obtain ⟨lasts, held, sees⟩ := Output.retained (m := a.machine) fun o member h isIt b owned => by
    obtain ⟨slot, at_⟩ := known o member h isIt b owned
    exact ⟨settled.tidy.has _ (settled.tidy.owned at_).1, (settled.tidy.owned at_).2⟩
  refine ⟨⟨⟨fun k => ?_, fun {x b} at_ => ?_, fun d owns => lasts.has (settled.tidy.has d owns),
    lasts.sane settled.tidy.sane⟩, settled.slots, settled.shapes, fun cmd member kept b at_ => ?_⟩, lasts, sees⟩
  · have before := settled.tidy.held k
    have now := held k
    simp only
    omega
  · obtain ⟨owns, backs⟩ := settled.tidy.owned at_
    exact ⟨owns, backs.of_sees (sees _)⟩
  · obtain ⟨clean, shown⟩ := settled.keeps cmd member kept b at_
    refine ⟨(Machine.contents_congr fun k _ => sees k).2.trans clean, fun args start => ?_⟩
    exact (shown args start).of_sees at_ fun k _ => sees k

/-- A call whose results are read: they are the values of their variables, and so are the new values. -/
structure Answered (r : Course) (ext : Key → Nat) (f : ExecutableId) (call : Nat) (borrow : Bool)
    (results : List Output × List (Cell × Tensor)) (a : Activation) : Prop where
  mid : r.Midway ext r.schedule.commands [] a
  handed : List.Forall₂ (r.Handed f call borrow a) r.schedule.outputs results.1
  clean : ∀ u ∈ r.schedule.updates, Clean a u.2
  values : List.Forall₂ (fun u v => v.1 = u.1 ∧ r.value u.2.var = some v.2) r.schedule.updates results.2

theorem Midway.answer_meets (fits : r.Fits scope l) (mid : r.Midway ext r.schedule.commands [] a) :
    (Calling.answer r.schedule r.context f borrow call).Meets a (fun e a' => r.Fails ext e a')
      fun results a' => r.Answered ext f call borrow results a' := by
  -- The phase does not matter.
  have read : ∀ phase, ((do
      let outputs ← r.schedule.outputs.mapM (Calling.output r.context f borrow call)
      let values ← Calling.newValues r.schedule r.context
      return (outputs, values) : Calling (List Output × List (Cell × Tensor)))).Meets
        { a with frame := { a.frame with phase } } (fun e a' => r.Fails ext e a') fun results a' =>
          r.Answered ext f call borrow results a' := by
    intro phase
    have mid' := mid.reframed (f := { a.frame with phase }) rfl rfl rfl
    rw [meets_bind]
    refine (mid'.outputs_meet fits).post ?_
    rintro os a₁ ⟨mid₁, handed⟩
    rw [meets_bind]
    refine (mid₁.newValues_meet fits).post ?_
    rintro vs a₂ ⟨mid₂, reads, clean, values⟩
    exact ⟨mid₂, handed.imp fun _ _ held => held.reads reads, clean, values⟩
  unfold Calling.answer
  split
  · rw [meets_bind]
    exact read .syncing
  · exact read a.frame.phase

/-- All commands run, and then the results are read. -/
theorem readings_meet (fits : r.Fits scope l) (settled : r.schedule.Settled r.context ext a)
    (same : a.machine = r.start) (usable : a.frame.poisoned = none) :
    (Calling.readings r.schedule r.context f r.args borrow call).Meets a (fun e a' => r.Fails ext e a')
      fun results a' => r.Answered ext f call borrow results a' := by
  rw [Calling.readings_eq, meets_bind]
  refine (begin_meets fits settled same usable).post ?_
  rintro _ a₁ ⟨mid, counts⟩
  rw [meets_bind]
  refine (mid.commands_meet fits (List.append_nil _).symm counts).post ?_
  rintro _ a₂ ⟨mid, -⟩
  exact mid.answer_meets fits

/-- The new values are written, and the data of the caller is given up. -/
theorem Answered.commit_meets (fits : r.Fits scope l) {results : List Output × List (Cell × Tensor)}
    (answered : r.Answered ext f call borrow results a) {fails : Error → Activation → Prop} :
    (Calling.commit r.schedule results).Meets a fails
      fun os a' => os = results.1 ∧ r.Ends ext f call borrow os a' := by
  obtain ⟨mid, handed, clean, values⟩ := answered
  unfold Calling.commit
  rw [meets_bind]
  refine (writes_meet fun v member => ?_).post ?_
  · obtain ⟨u, inUpdates, cell, value⟩ := partner_of values member
    rw [cell]
    exact fits.update_typed inUpdates value
  rintro _ a₁ rfl
  rw [mid.lasts.cells, foldl_updates values, ← after]
  have settled₁ := settled_with_cells ⟨mid.tidy, mid.slots, mid.shapes, mid.keeps⟩ r.after
  obtain ⟨settled₂, lasts₂, sees₂⟩ := retain_settled settled₁ fun o (member : o ∈ results.1) h isIt b owned => by
    obtain ⟨x, -, -, at_, -⟩ := partner_of handed member
    exact ⟨x.slot, (at_ h isIt).trans (congrArg some owned)⟩
  rw [meets_bind, meets_modify, meets_bind]
  refine (dropBorrowed_meets settled₂).post ?_
  rintro _ a₃ ⟨settled₃, lasts₃, sees₃, poisoned⟩
  rw [meets_bind]
  have onward : Machine.Lasts { a.machine with cells := r.after } a₃.machine False :=
    (lasts₂.trans lasts₃).mono (Or.rec id id)
  have still : ∀ k, 0 < ext k + Output.holdsAll results.1 k → a₃.machine.sees k = a.machine.sees k := fun k others =>
    (sees₃ k others).trans (sees₂ k)
  refine ⟨rfl, ⟨settled₃.tidy.reframed rfl, settled₃.slots, settled₃.shapes, keeps_reframed settled₃.keeps rfl⟩,
    poisoned.trans mid.poisoned, ?_, fun reliable => ?_, fun k others => ?_, ?_, fun o member h isIt b owned => ?_,
    fun u member => ?_, fun reading id blamed => ?_⟩
  · exact ((lasts_with_cells mid.lasts r.after).trans onward).mono fun _ => trivial
  · exact ((lasts_with_cells (mid.quiet reliable) r.after).trans onward).mono (Or.rec id id)
  · exact (still k (by omega)).trans (mid.sees k others)
  · refine List.forall₂_iff_get.mpr ⟨handed.length_eq, fun i inSites inOutputs => ?_⟩
    obtain ⟨⟨t, value, gives⟩, -⟩ := handed.get inSites inOutputs
    refine ⟨t, value, gives.of_sees fun k held => still k ?_⟩
    have least := Output.holds_le (List.get_mem results.1 ⟨i, inOutputs⟩) k
    omega
  · obtain ⟨x, -, -, at_, -⟩ := partner_of handed member
    obtain ⟨-, backs⟩ := mid.tidy.owned ((at_ h isIt).trans (congrArg some owned))
    refine backs.of_sees (still _ ?_)
    have least := Output.holds_le member b.key
    have one : o.holds b.key = 1 := by simp [isIt, Output.holds, Buffer.hold, owned, Buffer.isIn]
    omega
  · obtain ⟨v, -, -, value⟩ := partner values member
    rw [value]
    rfl
  · refine mid.heard (fun x root => ?_) id ((onward.blamed id _ blamed).resolve_right fun loud => loud)
    rcases List.mem_append.mp root with output | value
    · obtain ⟨o, -, -, -, clean'⟩ := partner handed output
      exact clean' reading
    · obtain ⟨u, member, rfl⟩ := List.mem_map.mp value
      exact clean u member

/-- A call that was accepted. -/
theorem run_meets (fits : r.Fits scope l) (settled : r.schedule.Settled r.context ext a)
    (same : a.machine = r.start) (usable : a.frame.poisoned = none) :
    (Calling.run r.schedule r.context f r.args borrow call).Meets a (fun e a' => r.Fails ext e a')
      fun os a' => r.Ends ext f call borrow os a' := by
  rw [Calling.run_eq, meets_bind]
  refine (readings_meet fits settled same usable).post fun results a' answered => ?_
  exact (answered.commit_meets fits).post fun _ _ ended => ended.2

/-- After a call that failed the slots are empty, and the executable is poisoned only if something fails or is
bound to. -/
theorem recover_meets {e : Error} (fails : r.Fails ext e a) {never : Error → Activation → Prop} :
    (Calling.recover r.schedule r.context e).Meets a never fun _ a' => r.Aborts ext e a' := by
  unfold Calling.recover Calling.reset
  rw [meets_bind, meets_bind]
  refine (Calling.drop_meets r.schedule fails.tidy _).post ?_
  rintro _ a₁ ⟨tidy₁, sheds⟩
  unfold Calling.onFrame
  rw [meets_modify, meets_bind, meets_attempt]
  have empty := sheds.empty fails.slots
  have silent : r.context.Reliable r.start → r.start.Lasts a₁.machine False := fun reliable =>
    ((fails.quiet reliable).trans sheds.lasts).mono (Or.rec id id)
  -- What is heard of earlier launches alters nothing.
  have rest : ∀ (m : Machine) (f : Frame), a₁.machine.Alters m (fun _ => False) False → f.slots = a₁.frame.slots →
      f.shapes = a₁.frame.shapes → (r.context.Reliable r.start → f.poisoned = a₁.frame.poisoned) →
      r.Aborts ext e ⟨f, m⟩ := by
    intro m f alters slots shapes poisoned
    have lasts : r.start.Lasts m True := ((fails.lasts.trans sheds.lasts).trans alters.toLasts).mono fun _ => trivial
    refine ⟨⟨(tidy₁.quiet alters).reframed slots, ?_, ?_, fun cmd member kept b at_ => ?_⟩, lasts, fun reliable => ?_,
      fun k others => ?_, fails.notVacant, fails.stops⟩
    · exact (congrArg Array.size slots).trans (sheds.size.trans fails.slots)
    · exact (congrArg Array.size (shapes.trans sheds.shapes)).trans fails.shapes
    · have none := empty cmd.output.slot
      rw [Frame.buffer?, ← slots] at none
      cases at_.symm.trans none
    · refine ⟨((silent reliable).trans alters.toLasts).mono (Or.rec id id), ?_⟩
      rw [poisoned reliable, sheds.poisoned]
      exact fails.poisoned
    · exact (alters.sees fun inside => inside).trans ((sheds.others k others).trans (fails.sees k others))
  refine Calling.onMachine_meets (r.context.synchronize_meets tidy₁.sane tidy₁.has) ?_ ?_
  · rintro d m ⟨alters, ill⟩
    have poisoned : ∀ reason, r.context.Reliable r.start → reason = a₁.frame.poisoned := fun _ reliable =>
      absurd (reliable.lasts (silent reliable) fun loud => loud) ill
    simp only
    split
    · exact rest m _ alters rfl rfl (poisoned _)
    · exact rest m _ alters rfl rfl fun _ => rfl
  · rintro _ m alters
    simp only [Bool.or_false]
    split
    · rename_i fatal
      refine rest m _ alters rfl rfl fun reliable => ?_
      rcases (fails.stops reliable).ofExtents with ⟨op, reason, rfl⟩ | rfl <;> cases fatal
    · exact rest m _ alters rfl rfl fun _ => rfl

/-- The next call of an executable. -/
def next (s : Schedule) (c : Context) (f : ExecutableId) (args : List Tensor) (m : Machine) : Course :=
  ⟨s, c, args, { m with calls := m.calls.modify f (· + 1) }⟩

/-- To count a call changes nothing else. -/
theorem settled_next {s : Schedule} {c : Context} (settled : s.Settled c ext a) (f : ExecutableId)
    (args : List Tensor) :
    s.Settled c ext { a with machine := (next s c f args a.machine).start } := by
  refine ⟨⟨settled.tidy.held, settled.tidy.owned, settled.tidy.has, settled.tidy.sane⟩, settled.slots,
    settled.shapes, fun cmd member kept b at_ => ?_⟩
  obtain ⟨clean, shown⟩ := settled.keeps cmd member kept b at_
  exact ⟨clean, fun args start => (shown args start).of_sees at_ fun _ _ => rfl⟩

/-- A call that did not start: the executable cannot be called any more, or the arguments do not fit. -/
def Refuses (s : Schedule) (args : List Tensor) (a : Activation) (e : Error) : Prop :=
  (∃ reason, a.frame.poisoned = some reason ∧ e = .poisoned reason) ∨
    (a.frame.poisoned = none ∧ Calling.accept s args = .error e)

/-- A call is refused, or it fails or succeeds as a whole. -/
theorem invoke_meets {s : Schedule} {c : Context} (laid : s.LaidOut c scope l) (honest : c.kernels.Honest)
    (typed : scope.typed) (cells : ∀ cell, scope.cell cell → cell.Typed a.machine.cells) (settled : s.Settled c ext a)
    (args : List Tensor) :
    (Calling.invoke s c f args borrow).Meets a
      (fun e a' => (a' = a ∧ Refuses s args a e) ∨ (a.frame.poisoned = none ∧ Calling.accept s args = .ok () ∧
        (next s c f args a.machine).Aborts ext e a'))
      fun os a' => a.frame.poisoned = none ∧ Calling.accept s args = .ok () ∧
        (next s c f args a.machine).Ends ext f ((next s c f args a.machine).start.callsOf f) borrow os a' := by
  unfold Calling.invoke
  rw [meets_bind, meets_get]
  cases poisoned : a.frame.poisoned with
  | some reason =>
    simp only
    rw [meets_bind, meets_throw]
    exact .inl ⟨rfl, .inl ⟨reason, poisoned, rfl⟩⟩
  | none =>
    simp only
    rw [meets_bind, meets_lift]
    cases accepted : Calling.accept s args with
    | error e => exact .inl ⟨rfl, .inr ⟨poisoned, accepted⟩⟩
    | ok _ =>
      have fits : (next s c f args a.machine).Fits scope l :=
        ⟨laid, honest, typed, Calling.accept_ok laid accepted, cells⟩
      simp only
      unfold Calling.nextCall
      rw [meets_bind, meets_bind, meets_modify, meets_bind, meets_get, meets_pure, meets_bind, meets_attempt]
      refine (run_meets fits (settled_next settled f args) rfl poisoned).mono ?_ ?_
      · intro e a' fails
        simp only
        rw [meets_bind]
        refine (recover_meets fails).post ?_
        rintro _ a'' aborts
        rw [meets_throw]
        exact .inr ⟨trivial, trivial, aborts⟩
      · intro os a' ends
        exact ⟨trivial, trivial, ends⟩

end Course

end TensorGraph
