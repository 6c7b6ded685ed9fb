import TensorGraph.Proofs.Executable.Ledger

/-! Which slots hold buffers after a call. With collection on, every buffer that a command made is given back when the
last read of its slot is done, so what is left is pinned; without it, every buffer that was made is left. Data of the
caller is left in neither case, and nothing at all after a failure. -/
namespace TensorGraph

open Checked TensorGraph.Action

namespace Schedule

/-- A command puts its output into the slot. -/
def Writes (s : Schedule) (slot : SlotId) : Prop := ∃ cmd ∈ s.commands, cmd.output.slot = slot

/-- The slot is for a result, for the new value of a persistent value, or for the upload of a constant that is kept. -/
def Retains (s : Schedule) (slot : SlotId) : Prop :=
  (∃ x ∈ s.rootSites, x.slot = slot) ∨ ∃ cmd ∈ s.commands, cmd.isKept ∧ cmd.output.slot = slot

namespace LaidOut

variable {s : Schedule} {c : Context} {scope : Scope} {l : Layout} {cmd : Command} {slot : SlotId}

/-- A mark is on an operand in the slot of the output. -/
theorem marked (laid : s.LaidOut c scope l) (member : cmd ∈ s.commands) : cmd.Marked := by
  obtain ⟨n, live, does⟩ := laid.node member
  refine ⟨fun i mark => ?_, fun kept work => ?_⟩
  · rw [does.inPlace] at mark
    obtain ⟨v, atI, -⟩ := laid.safely n live i mark
    obtain ⟨x, atX, -, slotX⟩ := forall₂_getElem? does.inputs atI
    have slots := (laid.slotted n live).inPlace mark atI
    rw [does.output.2, slotX] at slots
    exact ⟨x, atX, (Option.some.inj slots).symm⟩
  · have moves := does.work
    rw [work] at moves
    obtain ⟨tys, ty, y, known⟩ := laid.valid.operation live
    rw [does.inPlace]
    cases mark : n.inPlace with
    | none => rfl
    | some i => exact absurd moves.1 (known.rule.2 i mark).1

/-- Data of the caller is not where commands put their outputs. -/
theorem leaf_unwritten (laid : s.LaidOut c scope l) {x : Site} (leaf : x ∈ s.leafSites) : ¬ s.Writes x.slot := by
  rintro ⟨cmd, member, same⟩
  have alone := laid.leaf_alone leaf ((laid.output_sited member).trans (congrArg some same))
  obtain ⟨done, rest, split⟩ := List.append_of_mem member
  exact laid.fresh split (.inl ⟨x, leaf, alone.symm⟩)

theorem writes_inside (laid : s.LaidOut c scope l) (writes : s.Writes slot) : slot < s.slotCount := by
  obtain ⟨cmd, member, rfl⟩ := writes
  rw [laid.slotCount_eq]
  exact laid.fair.inRange (laid.output_sited member)

theorem pinned_iff (laid : s.LaidOut c scope l) (inside : slot < s.slotCount) :
    s.pinned.getD slot false = true ↔ s.Retains slot := by
  rw [laid.pinned_at (laid.slotCount_eq ▸ inside)]
  simp [isPinned, Retains]

theorem bound_unwritten (laid : s.LaidOut c scope l) {inputs : List Tensor} (bound : slot ∈ s.boundSlots inputs) :
    ¬ s.Writes slot := by
  have leaf : ∃ x ∈ s.leafSites, x.slot = slot := by
    unfold boundSlots at bound
    unfold leafSites
    rcases List.mem_append.mp bound with bound | cell
    · rcases List.mem_append.mp bound with input | constant
      · obtain ⟨e, member, rfl⟩ := List.mem_map.mp input
        exact ⟨e.1, by simp [(List.of_mem_zip member).1], rfl⟩
      · obtain ⟨e, member, rfl⟩ := List.mem_map.mp constant
        exact ⟨e.1, by simp [List.mem_map_of_mem member], rfl⟩
    · obtain ⟨e, member, rfl⟩ := List.mem_map.mp cell
      exact ⟨e.1, by simp [List.mem_map_of_mem member], rfl⟩
  obtain ⟨x, leaf, rfl⟩ := leaf
  exact laid.leaf_unwritten leaf

end LaidOut

end Schedule

namespace Ledger

variable {l l' : Ledger} {s : Schedule} {collect : Bool} {slot x : SlotId} {busy filled : SlotId → Prop} {cmd : Command}
  {m : Machine}

/-- A ledger during a call. Data of the caller is in none of the slots that commands write, and buffers are in no other
ones. With collection on, a buffer that is not pinned waits for a read; only the slot of the running command may wait
for none. Slots that are filled keep their buffers if they are pinned, or if nothing is collected. -/
structure Tended (l : Ledger) (s : Schedule) (collect : Bool) (busy filled : SlotId → Prop) : Prop where
  size : l.slots.size = s.slotCount
  lent : ∀ {x : SlotId} {data : Data}, l.buffer? x = some (.borrowed data) → ¬ s.Writes x
  made : ∀ {x : SlotId} {r : BlockRef}, l.buffer? x = some (.owned r) → s.Writes x
  awaited : collect = true → ∀ {x : SlotId} {r : BlockRef}, l.buffer? x = some (.owned r) → ¬ busy x →
    s.pinned.getD x false = false → 0 < l.counts.getD x 0
  filled : ∀ x, filled x → s.pinned.getD x false = true ∨ collect = false → ∃ r, l.buffer? x = some (.owned r)

/-- A ledger between calls: every buffer is one that a command made, and with collection on it is pinned. -/
structure AtRest (l : Ledger) (s : Schedule) (collect : Bool) : Prop where
  size : l.slots.size = s.slotCount
  kept : ∀ {x : SlotId} {b : Buffer}, l.buffer? x = some b →
    b.isOwned ∧ s.Writes x ∧ (collect = true → s.pinned.getD x false = true)

/-- A ledger that holds every buffer that it should hold after a call. -/
structure Occupied (l : Ledger) (s : Schedule) (collect : Bool) : Prop extends l.AtRest s collect where
  full : ∀ x, s.Writes x → (collect = true → s.pinned.getD x false = true) → (l.buffer? x).isSome

theorem atRest_of_empty (size : l.slots.size = s.slotCount) (empty : ∀ x, l.buffer? x = none) : l.AtRest s collect where
  size := size
  kept {x b} at_ := by
    rw [empty x] at at_
    cases at_

theorem Tended.mono {busy' filled' : SlotId → Prop} (tended : l.Tended s collect busy filled)
    (busier : ∀ x, busy x → busy' x) (fewer : ∀ x, filled' x → filled x) : l.Tended s collect busy' filled' :=
  { tended with
    awaited := fun on {_ _} at_ idle => tended.awaited on at_ fun here => idle (busier _ here)
    filled := fun x held => tended.filled x (fewer x held) }

/-- A slot that is full can be counted as filled. -/
theorem Tended.fill (tended : l.Tended s collect busy filled) {r : BlockRef} (at_ : l.buffer? slot = some (.owned r)) :
    l.Tended s collect busy fun x => filled x ∨ x = slot :=
  { tended with
    filled := fun x held keeps => by
      rcases held with old | rfl
      · exact tended.filled x old keeps
      · exact ⟨r, at_⟩ }

/-- A call starts with data of the caller in the slots of leaves. -/
theorem AtRest.tended (rest : l.AtRest s collect) {bound : List SlotId} (unwritten : ∀ x ∈ bound, ¬ s.Writes x)
    (lends : Lends bound { l with counts := s.reads } l') :
    l'.Tended s collect (fun _ => False) fun _ => False := by
  have old {x : SlotId} (outside : x ∉ bound) : l'.buffer? x = l.buffer? x := lends.others x outside
  have inside {x : SlotId} {b : Buffer} (at_ : l'.buffer? x = some b) : x < l.slots.size :=
    lends.size ▸ inside_of_buffer at_
  refine ⟨lends.size.trans rest.size, ?_, ?_, ?_, ?_⟩
  · intro x data at_
    by_cases member : x ∈ bound
    · exact unwritten x member
    · rw [old member] at at_
      cases (rest.kept at_).1
  · intro x r at_
    by_cases member : x ∈ bound
    · obtain ⟨data, lent⟩ := lends.lent x member (inside at_)
      cases lent.symm.trans at_
    · rw [old member] at at_
      exact (rest.kept at_).2.1
  · intro on x r at_ idle unpinned
    by_cases member : x ∈ bound
    · obtain ⟨data, lent⟩ := lends.lent x member (inside at_)
      cases lent.symm.trans at_
    · rw [old member] at at_
      cases unpinned.symm.trans ((rest.kept at_).2.2 on)
  · intro x wrong
    cases wrong

/-- The slot of a command has a buffer once the command has run. -/
theorem Takes.holds {kind : Kind} {n : Nat} {again : Prop} (takes : l.Takes m slot kind n again l')
    (inside : slot < l.slots.size) : ∃ r, l'.buffer? slot = some (.owned r) := by
  cases takes with
  | reused held there => exact ⟨_, there⟩
  | @allocated r refused same room new =>
    have at_ : (l.put slot (some (.owned r))).buffer? slot = _ := buffer?_put inside
    exact ⟨r, at_.trans (if_pos rfl)⟩

theorem Takes.other {kind : Kind} {n : Nat} {again : Prop} (takes : l.Takes m slot kind n again l') (other : x ≠ slot) :
    l'.buffer? x = l.buffer? x := by
  cases takes with
  | reused held there => rfl
  | @allocated r refused same room new =>
    by_cases inside : slot < l.slots.size
    · have at_ : (l.put slot (some (.owned r))).buffer? x = _ := buffer?_put inside
      exact at_.trans (if_neg other)
    · simp [buffer?, put, Array.setIfInBounds, inside]

theorem Takes.same {kind : Kind} {n : Nat} {again : Prop} (takes : l.Takes m slot kind n again l') :
    l'.slots.size = l.slots.size ∧ l'.counts = l.counts := by
  cases takes with
  | reused held there => exact ⟨rfl, rfl⟩
  | allocated refused same room new => exact ⟨size_put, rfl⟩

theorem Tended.takes {kind : Kind} {n : Nat} {again : Prop} (tended : l.Tended s collect (fun _ => False) filled)
    (writes : s.Writes slot) (inside : slot < s.slotCount) (takes : l.Takes m slot kind n again l') :
    l'.Tended s collect (· = slot) fun x => filled x ∨ x = slot := by
  obtain ⟨r, here⟩ := takes.holds (tended.size ▸ inside)
  obtain ⟨size, counts⟩ := takes.same
  refine Tended.fill (r := r) ⟨size.trans tended.size, ?_, ?_, ?_, ?_⟩ here
  · intro x data at_
    by_cases same : x = slot
    · rw [same, here] at at_
      cases at_
    · exact tended.lent (takes.other same ▸ at_)
  · intro x r' at_
    by_cases same : x = slot
    · exact same ▸ writes
    · exact tended.made (takes.other same ▸ at_)
  · intro on x r' at_ idle unpinned
    rw [counts]
    exact tended.awaited on (takes.other idle ▸ at_) id unpinned
  · intro x held keeps
    by_cases same : x = slot
    · exact ⟨r, same ▸ here⟩
    · rw [takes.other same]
      exact tended.filled x held keeps

/-- What is given back was kept for nothing. -/
theorem Tended.freed (tended : l.Tended s collect busy filled) :
    (l.freed s collect slot).Tended s collect busy filled where
  size := size_freed.trans tended.size
  lent at_ := tended.lent (of_freed at_)
  made at_ := tended.made (of_freed at_)
  awaited on {x r} at_ idle unpinned := by
    rw [counts_freed]
    exact tended.awaited on (of_freed at_) idle unpinned
  filled x held keeps := by
    obtain ⟨r, at_⟩ := tended.filled x held keeps
    by_cases same : x = slot
    · subst same
      exact ⟨r, by rw [freed_kept keeps at_, at_]⟩
    · exact ⟨r, by rw [freed_other same, at_]⟩

/-- After the last read of a slot nothing in it waits. -/
theorem Tended.settled (tended : l.Tended s collect (fun x => busy x ∨ x = slot) filled) :
    (l.settled s collect slot).Tended s collect busy filled := by
  unfold Ledger.settled
  split
  · refine { tended.freed with awaited := fun on {x r} at_ idle unpinned => ?_ }
    by_cases same : x = slot
    · subst same on
      exact absurd at_ (freed_vacant unpinned r)
    · exact tended.freed.awaited on at_ (fun here => here.elim idle same) unpinned
  · rename_i waits
    refine { tended with awaited := fun on {x r} at_ idle unpinned => ?_ }
    by_cases same : x = slot
    · rw [same]
      exact Nat.pos_of_ne_zero waits
    · exact tended.awaited on at_ (fun here => here.elim idle same) unpinned

/-- One read of a slot is over. -/
theorem Tended.released (tended : l.Tended s collect busy filled) :
    (l.released s collect slot).Tended s collect busy filled := by
  refine Tended.settled (l := l.counted slot) { tended with awaited := fun on {x r} at_ idle unpinned => ?_ }
  rw [not_or] at idle
  have waits := tended.awaited on at_ idle.1 unpinned
  simp only [counted, Array.getD_eq_getD_getElem?, Array.getElem?_modify, if_neg (Ne.symm idle.2)] at waits ⊢
  exact waits

theorem Tended.finished (tended : l.Tended s collect (· = cmd.output.slot) filled) :
    (l.finished s collect cmd).Tended s collect (fun _ => False) filled := by
  have released : ∀ (xs : List Site) (l : Ledger), l.Tended s collect (· = cmd.output.slot) filled →
      (xs.foldl (fun l x => l.released s collect x.slot) l).Tended s collect (· = cmd.output.slot) filled := by
    intro xs
    induction xs with
    | nil => exact fun _ held => held
    | cons x xs ih => exact fun l held => ih _ held.released
  exact ((released _ _ tended).mono (fun _ => .inr) fun _ => id).settled

/-- The reads of a command are counted. -/
theorem counts_finished (x : SlotId) : (l.finished s collect cmd).counts.getD x 0 =
    l.counts.getD x 0 - cmd.inputs.countP fun e => e.slot == x := by
  have released : ∀ (xs : List Site) (l : Ledger),
      (xs.foldl (fun l e => l.released s collect e.slot) l).counts.getD x 0 =
        l.counts.getD x 0 - xs.countP fun e => e.slot == x := by
    intro xs
    induction xs with
    | nil => simp
    | cons e xs ih =>
      intro l
      rw [List.foldl_cons, ih, counts_released, List.countP_cons]
      by_cases same : x = e.slot
      · simp [same]
        omega
      · simp [same, Ne.symm same]
  rw [finished, counts_settled]
  exact released _ _

/-- The data of the caller is given up at the end. -/
theorem Tended.occupied (tended : l.Tended s collect (fun _ => False) filled) (all : ∀ x, s.Writes x → filled x)
    (read : ∀ x, l.counts.getD x 0 = 0) (sheds : l.Sheds s (fun b => !b.isOwned) l') : l'.Occupied s collect := by
  have owned : ∀ {x : SlotId} {b : Buffer}, l'.buffer? x = some b →
      ∃ r, b = .owned r ∧ l.buffer? x = some (.owned r) := by
    intro x b at_
    rw [sheds.buffers] at at_
    split at at_
    · cases at_
    · rename_i stays
      cases b with
      | owned r => exact ⟨r, rfl, at_⟩
      | borrowed data =>
        refine absurd ⟨?_, ?_⟩ stays
        · rw [← tended.size]
          exact inside_of_buffer at_
        · rw [at_]
          rfl
  refine ⟨⟨sheds.size.trans tended.size, fun {x b} at_ => ?_⟩, fun x writes keeps => ?_⟩
  · obtain ⟨r, rfl, before⟩ := owned at_
    refine ⟨rfl, tended.made before, fun on => ?_⟩
    by_contra unpinned
    have waits := tended.awaited on before id (Bool.eq_false_iff.mpr unpinned)
    rw [read x] at waits
    exact Nat.lt_irrefl 0 waits
  · obtain ⟨r, at_⟩ := tended.filled x (all x writes) (by
      cases collect with
      | true => exact .inl (keeps rfl)
      | false => exact .inr rfl)
    rw [sheds.buffers, at_]
    simp [Buffer.isOwned]

end Ledger

namespace Calling

variable {a : Activation} {s : Schedule} {c : Context} {scope : Scope} {l : Layout} {inputs : List Tensor}
  {borrow : Bool} {f : ExecutableId} {call : Nat} {cmd : Command} {done rest : List Command}

/-- A command fills its slot, and gives up what nobody reads any more. -/
theorem execute_tends (laid : s.LaidOut c scope l) (member : cmd ∈ s.commands) {filled : SlotId → Prop}
    (tended : a.frame.ledger.Tended s c.config.collect (fun _ => False) filled) : (execute s c cmd).Moves a fun l' =>
      l'.Tended s c.config.collect (fun _ => False) (fun x => filled x ∨ x = cmd.output.slot) ∧
        ∀ x, l'.counts.getD x 0 = a.frame.ledger.counts.getD x 0 - cmd.inputs.countP fun e => e.slot == x := by
  have writes : s.Writes cmd.output.slot := ⟨cmd, member, rfl⟩
  refine (execute_moves (laid.marked member) s).mono fun l' ran => ?_
  obtain ⟨shapes, shape, l₁, -, -, performs, rfl⟩ := ran
  have done : l₁.Tended s c.config.collect (· = cmd.output.slot) (fun x => filled x ∨ x = cmd.output.slot) ∧
      l₁.counts = a.frame.ledger.counts := by
    cases performs with
    | present kept there =>
      obtain ⟨b, at_⟩ := Option.isSome_iff_exists.mp there
      cases b with
      | borrowed data => exact absurd writes (tended.lent at_)
      | owned r => exact ⟨(tended.fill at_).mono (fun _ => False.elim) fun _ => id, rfl⟩
    | takes missing takes => exact ⟨tended.takes writes (laid.writes_inside writes) takes, takes.same.2⟩
  refine ⟨done.1.finished, fun x => ?_⟩
  rw [Ledger.counts_finished, done.2]

/-- After some commands their slots are filled, and the reads of the others are to come. -/
theorem commands_tend (laid : s.LaidOut c scope l)
    (tended : a.frame.ledger.Tended s c.config.collect (fun _ => False) fun _ => False)
    (counts : ∀ x, a.frame.ledger.counts.getD x 0 = Schedule.readsOf s.commands x) :
    (s.commands.forM (execute s c)).Moves a fun l' =>
      l'.Tended s c.config.collect (fun _ => False) s.Writes ∧ ∀ x, l'.counts.getD x 0 = 0 := by
  refine meets_forM (fun done rest a' => a'.frame.slots.size = a.frame.slots.size ∧
    a'.frame.ledger.Tended s c.config.collect (fun _ => False) (fun x => ∃ cmd ∈ done, cmd.output.slot = x) ∧
      ∀ x, a'.frame.ledger.counts.getD x 0 = Schedule.readsOf rest x) _ ?_ ?_ ?_
  · exact ⟨rfl, tended.mono (fun _ => id) (by simp), counts⟩
  · rintro done cmd rest a' split ⟨size, tended, counts⟩
    have member : cmd ∈ s.commands := by simp [split]
    refine Meets.mono (execute_tends laid member tended) (fun _ _ same => Eq.trans same size) ?_
    rintro _ a₁ ⟨⟨tended, counted⟩, same⟩
    refine ⟨same.trans size, tended.mono (fun _ => id) ?_, fun x => ?_⟩
    · rintro x ⟨cmd', inDone, rfl⟩
      rcases List.mem_append.mp inDone with before | here
      · exact .inl ⟨cmd', before, rfl⟩
      · exact .inr (by rw [List.mem_singleton.mp here])
    · rw [counted, counts, Schedule.readsOf, Schedule.readsOf, List.flatMap_cons, List.countP_append]
      omega
  · rintro a' ⟨size, tended, counts⟩
    exact ⟨⟨tended, counts⟩, size⟩

/-- Until the data of the caller is given up, every slot that a command writes is kept for what comes. -/
theorem readings_tend (laid : s.LaidOut c scope l) (rests : a.frame.ledger.AtRest s c.config.collect) :
    (readings s c f inputs borrow call).Moves a fun l' =>
      l'.Tended s c.config.collect (fun _ => False) s.Writes ∧ ∀ x, l'.counts.getD x 0 = 0 := by
  rw [readings_eq]
  refine (begin_moves s inputs).bind fun _ a₁ lends _ => ?_
  have tended := rests.tended (fun _ => laid.bound_unwritten) lends
  have counts : ∀ x, a₁.frame.ledger.counts.getD x 0 = Schedule.readsOf s.commands x := fun x => by
    rw [lends.counts]
    exact laid.reads_at x
  exact (commands_tend laid tended counts).silently fun _ => silent_answer s

/-- A call that is accepted leaves the buffers that should be there, or none if it fails. -/
theorem invoke_occupies (laid : s.LaidOut c scope l) (rests : a.frame.ledger.AtRest s c.config.collect) :
    (invoke s c f inputs borrow).Meets a
      (fun _ a' => a'.frame = a.frame ∧ (a.frame.poisoned ≠ none ∨ accept s inputs ≠ .ok ()) ∨
        a'.frame.slots.size = s.slotCount ∧ ∀ x, a'.frame.buffer? x = none)
      fun _ a' => a'.frame.ledger.Occupied s c.config.collect := by
  unfold invoke
  rw [meets_bind, meets_get]
  cases poisoned : a.frame.poisoned with
  | some reason => exact .inl ⟨rfl, .inl nofun⟩
  | none =>
    simp only
    rw [meets_bind, meets_lift]
    cases accepted : accept s inputs with
    | error e => exact .inl ⟨rfl, .inr nofun⟩
    | ok u =>
      simp only
      unfold nextCall
      rw [meets_bind, meets_bind, meets_modify, meets_bind, meets_get, meets_pure, meets_bind, meets_attempt, run_eq,
        meets_bind]
      refine Meets.mono (readings_tend laid rests) ?_ ?_
      · intro e a₁ size
        simp only
        rw [meets_bind]
        refine (recover_empties s e (size.trans rests.size)).post ?_
        rintro _ a₂ emptied
        exact .inr ⟨emptied.size, emptied.vacant⟩
      · rintro results a₁ ⟨⟨tended, read⟩, size⟩
        refine Meets.mono (commit_moves s results) ?_ ?_
        · intro e a₂ size₂
          simp only
          rw [meets_bind]
          refine (recover_empties s e (size₂.trans tended.size)).post ?_
          rintro _ a₃ emptied
          exact .inr ⟨emptied.size, emptied.vacant⟩
        · rintro outputs a₂ ⟨sheds, -⟩
          exact tended.occupied (fun _ => id) read sheds

/-- Waiting for the devices moves no buffer. -/
theorem synchronize_moves : (synchronize c).Meets a (fun _ a' => a'.frame.ledger = a.frame.ledger)
    fun _ a' => a'.frame.ledger = a.frame.ledger := by
  unfold synchronize countSync count onFrame onMachine
  rw [meets_bind, meets_modify, meets_bind, meets_attempt, meets_onPart]
  refine (c.synchronize.meets_start a.machine).mono (fun e m _ => ?_) fun _ m _ => ?_
  · simp only
    split
    · exact rfl
    · exact rfl
  · exact rfl

end Calling

end TensorGraph
