import TensorGraph.Proofs.World.Basic

/-! Every operation keeps what is so after any history. Those that call an executable alter only blocks that it
alone refers to, so all the others stay ready. -/
namespace TensorGraph

open Checked TensorGraph.Action

namespace Machine

/-- No block was touched, and nothing has failed that had not failed before. -/
structure Unmoved (m m' : Machine) : Prop where
  sane : m.Sane → m'.Sane
  view : ∀ k, m'.view k = m.view k
  size : m.accelerators.size ≤ m'.accelerators.size
  healthy : ∀ id, id < m.accelerators.size → (m.accelerator id).Healthy → (m'.accelerator id).Healthy

variable {m m' : Machine}

theorem Unmoved.sees (unmoved : m.Unmoved m') (k : Key) : m'.sees k = m.sees k := by
  rw [Machine.sees, Machine.sees, unmoved.view]

theorem Unmoved.held (unmoved : m.Unmoved m') (k : Key) : m'.held k = m.held k := by
  rw [Machine.held, Machine.held, unmoved.view]

theorem Unmoved.has (unmoved : m.Unmoved m') {d : Device} (has : m.Has d) : m'.Has d := fun id home =>
  Nat.lt_of_lt_of_le (has id home) unmoved.size

/-- Leases, persistent values and counts have nothing to do with blocks. -/
theorem unmoved_of_same (host : m'.host = m.host) (accelerators : m'.accelerators = m.accelerators) : m.Unmoved m' := by
  have same : ∀ id, m'.accelerator id = m.accelerator id := fun id => by
    rw [accelerator, accelerator, accelerators]
  refine ⟨fun sane id => same id ▸ sane id, fun k => ?_, Nat.le_of_eq (by rw [accelerators]), fun id _ held => ?_⟩
  · obtain ⟨home, b⟩ := k
    cases home with
    | none => simp only [Machine.view, host]
    | some id => simp only [Machine.view, same]
  · rw [same]
    exact held

theorem accelerator_push_self (m : Machine) (a : Accelerator) :
    Machine.accelerator { m with accelerators := m.accelerators.push a } m.accelerators.size = a := by
  simp [accelerator]

/-- Another accelerator has no blocks yet. -/
theorem unmoved_of_push (m : Machine) {a : Accelerator} (prompt : a.Prompt) (memory : a.memory = {})
    (hazards : a.hazards = {}) :
    m.Unmoved { m with accelerators := m.accelerators.push a } := by
  have old : ∀ id, id ≠ m.accelerators.size →
      Machine.accelerator { m with accelerators := m.accelerators.push a } id = m.accelerator id := fun id other => by
    simp only [accelerator, Array.getD_eq_getD_getElem?, Array.getElem?_push, if_neg other]
  refine ⟨fun sane id => ?_, fun k => ?_, by simp, fun id known held => ?_⟩
  · by_cases new : id = m.accelerators.size
    · rw [new, accelerator_push_self]
      refine ⟨prompt, fun {b l} writer => ?_, fun {b} _ => ?_⟩
      · rw [hazards] at writer
        cases writer
      · rw [hazards]
        rfl
    · rw [old id new]
      exact sane id
  · obtain ⟨home, b⟩ := k
    cases home with
    | none => rfl
    | some id =>
      by_cases new : id = m.accelerators.size
      · have beyond : m.accelerator m.accelerators.size = default := by simp [accelerator]
        simp only [Machine.view, new, accelerator_push_self, beyond, Accelerator.view, Accelerator.tainted, memory,
          hazards]
        rfl
      · simp only [Machine.view, old id new]
  · rw [old id (Nat.ne_of_lt known)]
    exact held

theorem unmoved_of_alters (alters : m.Alters m' (fun _ => False) False) : m.Unmoved m' where
  sane := alters.sane
  view k := alters.view k fun inside => inside
  size := Nat.le_of_eq alters.size.symm
  healthy id _ held := (alters.healthy id held).resolve_right fun loud => loud

end Machine

namespace Context

/-- A context is released without harm to any block. -/
theorem release_same (c : Context) (m : Machine) : (c.release m).host = m.host ∧
    (c.release m).accelerators = m.accelerators ∧ (c.release m).cells = m.cells ∧ (c.release m).calls = m.calls := by
  unfold release
  simp only
  split <;> exact ⟨rfl, rfl, rfl, rfl⟩

variable {c : Context} {m m' : Machine}

theorem Reliable.unmoved [BlockRoutine] (reliable : c.Reliable m) (unmoved : m.Unmoved m') (has : ∀ d, c.Owns d → m.Has d) :
    c.Reliable m' :=
  ⟨reliable.kernels, fun d owns id home => unmoved.healthy id (has d owns id home) (reliable.serves d owns id home)⟩

end Context

namespace World

variable {faultless : Prop} {w : World} {m : Machine}

/-- What touches no block keeps everything. -/
theorem Good.moved [BlockRoutine] (good : Good faultless w) (unmoved : w.machine.Unmoved m)
    (typed : ∀ c ∈ w.cells, c.id < m.cells.size ∧ c.Typed m.cells)
    (counted : w.machine.calls.size ≤ m.calls.size) : Good faultless { w with machine := m } where
  sane := unmoved.sane good.sane
  held k := (unmoved.held k).trans (good.held k)
  has c uses d owns := unmoved.has (good.has c uses d owns)
  honest := good.honest
  laid := good.laid
  rests f member := (good.rests f member).of_sees fun k _ => unmoved.sees k
  handles o member h isIt := by
    obtain ⟨has, t, carries, shape⟩ := good.handles o member h isIt
    exact ⟨unmoved.has has, t, carries.of_sees fun k _ => unmoved.sees k, shape⟩
  typed := typed
  numbered := good.numbered
  counted f member := Nat.lt_of_lt_of_le (good.counted f member) counted
  reliable sound c uses := (good.reliable sound c uses).unmoved unmoved (good.has c uses)
  usable := good.usable

theorem Good.quiet [BlockRoutine] (good : Good faultless w) (alters : w.machine.Alters m (fun _ => False) False) :
    Good faultless { w with machine := m } :=
  good.moved (Machine.unmoved_of_alters alters) (by rw [alters.cells]; exact good.typed)
    (Nat.le_of_eq (by rw [alters.calls]))

section Cells

/-- A new persistent value has a number of its own. -/
theorem Good.create [BlockRoutine] (good : Good faultless w) {c : Cell} {t : Tensor}
    (ran : (Cell.create t).start w.machine = (.ok c, m)) :
    Good faultless { w with machine := m, cells := c :: w.cells } := by
  obtain ⟨rfl, rfl⟩ : m = { w.machine with cells := w.machine.cells.push t } ∧
      c = ⟨w.machine.cells.size, t.kind, t.rank⟩ := by
    cases ran
    exact ⟨rfl, rfl⟩
  have kept : ∀ c ∈ w.cells, c.id < (w.machine.cells.push t).size ∧ c.Typed (w.machine.cells.push t) := by
    intro c member
    obtain ⟨inRange, typed⟩ := good.typed c member
    refine ⟨by rw [Array.size_push]; exact Nat.lt_succ_of_lt inRange, ?_⟩
    unfold Cell.Typed at typed ⊢
    rwa [Array.getD_eq_getD_getElem?, Array.getElem?_push, if_neg (Nat.ne_of_lt inRange),
      ← Array.getD_eq_getD_getElem?]
  have moved := good.moved (m := { w.machine with cells := w.machine.cells.push t })
    (Machine.unmoved_of_same rfl rfl) kept (Nat.le_refl _)
  refine { moved with
    laid := fun f member => ?_
    typed := fun c member => ?_
    numbered := fun c member c' member' same => ?_ }
  · exact (good.laid f member).mono (List.subset_cons_self _ _)
  · rcases List.mem_cons.mp member with rfl | old
    · exact ⟨by simp, by simp [Cell.Typed]⟩
    · exact kept c old
  · have before : ∀ c ∈ w.cells, c.id ≠ w.machine.cells.size := fun c member =>
      Nat.ne_of_lt (good.typed c member).1
    rcases List.mem_cons.mp member with rfl | old <;> rcases List.mem_cons.mp member' with rfl | old'
    · rfl
    · exact absurd same.symm (before c' old')
    · exact absurd same (before c old)
    · exact good.numbered c old c' old' same

/-- A value of the kind and rank of its persistent value leaves all of them typed. -/
theorem typed_set {cells : Array Tensor} {known : List Cell}
    (numbered : ∀ c ∈ known, ∀ c' ∈ known, c.id = c'.id → c = c')
    {u : Cell} (member : u ∈ known) {t : Tensor} (fits : t.kind = u.kind ∧ t.rank = u.rank)
    (typed : ∀ c ∈ known, c.id < cells.size ∧ c.Typed cells) :
    ∀ c ∈ known, c.id < (cells.setIfInBounds u.id t).size ∧ c.Typed (cells.setIfInBounds u.id t) := by
  intro c inKnown
  obtain ⟨inRange, typed⟩ := typed c inKnown
  refine ⟨by rw [Array.size_setIfInBounds]; exact inRange, ?_⟩
  unfold Cell.Typed at typed ⊢
  by_cases same : u.id = c.id
  · obtain rfl := numbered u member c inKnown same
    simp [Array.getD_eq_getD_getElem?, inRange, fits]
  · rwa [Array.getD_eq_getD_getElem?, Array.getElem?_setIfInBounds_ne same, ← Array.getD_eq_getD_getElem?]

/-- A value of another kind or rank is refused. -/
theorem write_meets (c : Cell) (t : Tensor) : (c.write t).Meets m (fun _ m' => m' = m) fun _ m' =>
    t.kind = c.kind ∧ t.rank = c.rank ∧ m' = { m with cells := m.cells.setIfInBounds c.id t } := by
  unfold Cell.write
  by_cases kind : t.kind = c.kind
  swap
  · simp only [kind, ne_eq, not_false_eq_true, ↓reduceIte]
    rfl
  by_cases rank : t.rank = c.rank
  swap
  · simp only [kind, rank, ne_eq, not_true_eq_false, not_false_eq_true, ↓reduceIte]
    rfl
  simp only [kind, rank, ne_eq, not_true_eq_false, ↓reduceIte]
  exact ⟨trivial, trivial, rfl⟩

/-- Persistent values have no blocks. -/
theorem unmoved_of_write {c : Cell} {t : Tensor} {result : Except Error Unit} {m' : Machine}
    (ran : (c.write t).start m = (result, m')) : m.Unmoved m' := by
  cases result with
  | error e =>
    obtain rfl := (write_meets c t).of_error ran
    exact Machine.unmoved_of_same rfl rfl
  | ok _ =>
    obtain ⟨-, -, rfl⟩ := (write_meets c t).of_ok ran
    exact Machine.unmoved_of_same rfl rfl

theorem Good.write [BlockRoutine] (good : Good faultless w) {c : Cell} (known : c ∈ w.cells) {t : Tensor} {result : Except Error Unit}
    (ran : (c.write t).start w.machine = (result, m)) : Good faultless { w with machine := m } := by
  cases result with
  | error e =>
    obtain rfl := (write_meets c t).of_error ran
    exact good
  | ok _ =>
    obtain ⟨kind, rank, rfl⟩ := (write_meets c t).of_ok ran
    exact good.moved (Machine.unmoved_of_same rfl rfl)
      (typed_set good.numbered known ⟨kind, rank⟩ good.typed) (Nat.le_refl _)

end Cells

section Contexts

/-- What opening a context does to the machine. -/
structure Opened (m m' : Machine) : Prop where
  unmoved : m.Unmoved m'
  cells : m'.cells = m.cells
  calls : m'.calls = m.calls

/-- The device of a configuration is there, and works unless it is to fail. -/
def Equipped (config : Config) (d : Option Device) (m : Machine) : Prop :=
  ∀ d', d = some d' → m.Has d' ∧
    ((∀ n, config.target = .sim n → config.sim.fault = none ∧ config.sim.memory = none) → m.Serves d')

theorem openTarget_meets {config : Config} {custom : Option Table} :
    (Context.openTarget config custom).Meets m (fun _ m' => Opened m m')
      fun result m' => Opened m m' ∧ Equipped config result.1 m' := by
  have chosen : ∀ (d : Option Device) (m' : Machine), Opened m m' → Equipped config d m' →
      ((do return (d, ← Context.chooseTable d custom) : Action Machine (Option Device × Option Table))).Meets m'
        (fun _ m' => Opened m m') fun result m' => Opened m m' ∧ Equipped config result.1 m' := by
    intro d m' opened equipped
    rw [meets_bind, meets_lift]
    cases Context.chooseTable d custom with
    | ok table => exact ⟨opened, equipped⟩
    | error e => exact opened
  unfold Context.openTarget
  have same : Opened m m := ⟨Machine.unmoved_of_same rfl rfl, rfl, rfl⟩
  cases aimed : config.target with
  | host => exact chosen none m same fun d wrong => by cases wrong
  | cuda n => exact same
  | sim n =>
    refine chosen (some (.sim m.accelerators.size n)) _ ⟨m.unmoved_of_push ⟨rfl, rfl⟩ rfl rfl, rfl, rfl⟩ ?_
    rintro d ⟨⟩
    refine ⟨?_, fun sound => ?_⟩
    · rintro id ⟨⟩
      simp
    · obtain ⟨fault, memory⟩ := sound n aimed
      rintro id ⟨⟩
      rw [Machine.accelerator_push_self]
      exact ⟨memory, fault, rfl, rfl, fun l => rfl, fun {b block} wrong => by cases wrong⟩

theorem Opened.trans {m₁ m₂ : Machine} (first : Opened m m₁) (second : Opened m₁ m₂) : Opened m m₂ where
  unmoved :=
    { sane := second.unmoved.sane ∘ first.unmoved.sane
      view := fun k => (second.unmoved.view k).trans (first.unmoved.view k)
      size := Nat.le_trans first.unmoved.size second.unmoved.size
      healthy := fun id known held => second.unmoved.healthy id (Nat.lt_of_lt_of_le known first.unmoved.size)
        (first.unmoved.healthy id known held) }
  cells := second.cells.trans first.cells
  calls := second.calls.trans first.calls

theorem Opened.of_same {m' : Machine} (opened : Opened m m') (leases : Leases) (owners : Array Nat) :
    Opened m { m' with leases, owners } :=
  opened.trans ⟨Machine.unmoved_of_same rfl rfl, rfl, rfl⟩

/-- A context is opened on devices that are there, with the kernels that it was to have. -/
theorem build_meets (config : Config) (tables : List Table) (kernels : Kernels) :
    (Context.build config tables kernels).Meets m (fun _ m' => Opened m m') fun c m' => Opened m m' ∧
      c.kernels = kernels ∧ Equipped config c.accelerator m' := by
  have same : Opened m m := ⟨Machine.unmoved_of_same rfl rfl, rfl, rfl⟩
  have target : ∀ m₁ custom, Opened m m₁ → (Context.openTarget config custom).attempt.Meets m₁ (fun _ m' => Opened m m')
      fun result m₂ => Opened m m₂ ∧ ∀ r, result = .ok r → Equipped config r.1 m₂ := by
    intro m₁ custom opened₁
    rw [meets_attempt]
    refine openTarget_meets.mono (fun e m₂ opened₂ => ⟨opened₁.trans opened₂, fun _ wrong => by cases wrong⟩) ?_
    rintro r m₂ ⟨opened₂, equipped⟩
    refine ⟨opened₁.trans opened₂, ?_⟩
    rintro _ ⟨⟩
    exact equipped
  unfold Context.build
  cases config.target.ordinal? with
  | none =>
    rw [meets_bind]
    refine (target m _ same).post ?_
    rintro (e | r) m₂ ⟨opened, equipped⟩
    · exact opened
    · exact ⟨opened.of_same _ _, rfl, equipped r rfl⟩
  | some n =>
    simp only
    unfold Context.lease
    rw [meets_bind, meets_bind, meets_get, meets_bind, meets_lift]
    cases m.leases.acquire n with
    | error e => exact same
    | ok leases =>
      simp only [meets_modify]
      rw [meets_bind]
      refine (target _ _ (same.of_same leases m.owners)).post ?_
      rintro (e | r) m₂ ⟨opened, equipped⟩
      · exact opened.of_same _ m₂.owners
      · exact ⟨opened.of_same _ _, rfl, equipped r rfl⟩

/-- A new context works unless something in it is to fail. -/
theorem Good.context [BlockRoutine] (good : Good faultless w) {config : Config} {tables : List Table} {kernels : Kernels}
    (honest : kernels.Honest) (sound : faultless → config.Faultless kernels) {result : Except Error Context}
    (ran : (Context.build config tables kernels).start w.machine = (result, m)) :
    Good faultless { w with machine := m, contexts := gained result ++ w.contexts } := by
  have met := build_meets (m := w.machine) config tables kernels
  cases result with
  | error e =>
    have opened := met.of_error ran
    exact good.moved opened.unmoved (by rw [opened.cells]; exact good.typed) (Nat.le_of_eq (by rw [opened.calls]))
  | ok c =>
    obtain ⟨opened, same, equipped⟩ := met.of_ok ran
    have moved := good.moved opened.unmoved (by rw [opened.cells]; exact good.typed)
      (Nat.le_of_eq (by rw [opened.calls]))
    -- The contexts in use are the new one and the old ones.
    have cases_ : ∀ c', Uses { w with machine := m, contexts := c :: w.contexts } c' → c' = c ∨ w.Uses c' := by
      rintro c' (member | held)
      · exact (List.mem_cons.mp member).imp_right .inl
      · exact .inr (.inr held)
    have owned : ∀ d, c.Owns d → m.Has d ∧
        ((∀ n, config.target = .sim n → config.sim.fault = none ∧ config.sim.memory = none) → m.Serves d) := by
      rintro d (rfl | accelerator)
      · exact ⟨fun id wrong => (by cases wrong), fun _ id wrong => (by cases wrong)⟩
      · exact equipped d accelerator
    refine { moved with
      has := fun c' uses d owns => ?_
      honest := fun c' uses => ?_
      reliable := fun holds c' uses => ?_ }
    · rcases cases_ c' uses with rfl | old
      · exact (owned d owns).1
      · exact moved.has c' old d owns
    · rcases cases_ c' uses with rfl | old
      · rw [same]
        exact honest
      · exact moved.honest c' old
    · rcases cases_ c' uses with rfl | old
      · obtain ⟨reference, faultless⟩ := sound holds
        exact ⟨same.trans reference, fun d owns => (owned d owns).2 faultless⟩
      · exact moved.reliable holds c' old

end Contexts

end World

end TensorGraph
