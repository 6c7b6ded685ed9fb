import TensorGraph.Proofs.World.Steps

/-! After any history all that was promised of worlds still holds. What an executable does concerns the blocks that it
alone refers to; results that were handed out are held, so nobody writes them. -/
namespace TensorGraph

open Checked TensorGraph.Action

namespace World

variable {faultless : Prop} {w : World} {m : Machine}

variable [BlockRoutine]

section Executables

/-- A new executable for a context in use. -/
theorem Good.created (good : Good faultless w) {s : Schedule} {c : Context} (uses : w.Uses c) {scope : Scope}
    {l : Layout} (laid : s.LaidOut c scope l) (typed : scope.typed)
    (known : ∀ cell, scope.cell cell → cell ∈ w.cells) {f : Executable}
    (ran : (Executable.create s c).start w.machine = (.ok f, m)) :
    Good faultless { w with machine := m, executables := f :: w.executables } := by
  obtain ⟨rfl, rfl⟩ : m = c.retain { w.machine with calls := w.machine.calls.push 0 } ∧
      f = ⟨w.machine.calls.size, s, c, .fresh s⟩ := by
    cases ran
    exact ⟨rfl, rfl⟩
  have moved := good.moved (m := c.retain { w.machine with calls := w.machine.calls.push 0 })
    (Machine.unmoved_of_same rfl rfl) good.typed (by simp [Context.retain])
  have older : ∀ c', Uses { w with executables := ⟨w.machine.calls.size, s, c, .fresh s⟩ :: w.executables } c' →
      w.Uses c' := by
    rintro c' (member | ⟨f, member, rfl⟩)
    · exact .inl member
    · rcases List.mem_cons.mp member with rfl | old
      · exact uses
      · exact .inr ⟨f, old, rfl⟩
  refine { moved with
    held := fun k => ?_
    has := fun c' u => ?_
    honest := fun c' u => ?_
    laid := fun f member => ?_
    rests := fun f member => ?_
    counted := fun f member => ?_
    reliable := fun holds c' u => ?_
    usable := fun holds f member => ?_ }
  · have same := moved.held k
    simp only [refsOf, List.map_cons, List.sum_cons, Frame.refs_eq_zero (Executable.buffer?_fresh s),
      Nat.zero_add] at same ⊢
    exact same
  · exact moved.has c' (older c' u)
  · exact moved.honest c' (older c' u)
  · rcases List.mem_cons.mp member with rfl | old
    · exact ⟨scope, l, laid, typed, known⟩
    · exact moved.laid f old
  · rcases List.mem_cons.mp member with rfl | old
    · exact Executable.rests_fresh
    · exact moved.rests f old
  · rcases List.mem_cons.mp member with rfl | old
    · simp [Context.retain]
    · exact moved.counted f old
  · exact moved.reliable holds c' (older c' u)
  · rcases List.mem_cons.mp member with rfl | old
    · rfl
    · exact moved.usable holds f old

/-- What a program was compiled to lies on the persistent values that its graph names. -/
theorem Fresh.compiles {p : Program} (fresh : w.Fresh p) {c : Context} (honest : c.kernels.Honest) {s : Schedule}
    (compiled : p.schedule c = .ok s) : ∃ p' l, p.CompilesTo c ⟨fun _ _ => True, (· ∈ w.cells), True⟩ p' s l :=
  (Program.compilesTo_of_honest (fresh.built.sound.fresh (fun _ _ _ _ => trivial) fresh.cells) honest compiled).2

theorem Good.compile (good : Good faultless w) {c : Context} (known : c ∈ w.contexts) {p : Program} (fresh : w.Fresh p)
    {result : Except Error Executable} (ran : (p.compile c).start w.machine = (result, m)) :
    Good faultless { w with machine := m, executables := gained result ++ w.executables } := by
  unfold Program.compile at ran
  cases scheduled : p.schedule c with
  | error e =>
    rw [scheduled] at ran
    obtain ⟨rfl, rfl⟩ := Prod.mk.inj ran
    exact good
  | ok s =>
    rw [scheduled] at ran
    obtain ⟨p', l, compiles⟩ := fresh.compiles (good.honest c (.inl known)) scheduled
    cases result with
    | error e => cases ran
    | ok f => exact good.created (.inl known) compiles.laid trivial (fun _ held => held) ran

theorem Good.fork (good : Good faultless w) {f : Executable} (known : f ∈ w.executables)
    {result : Except Error Executable} (ran : f.fork.start w.machine = (result, m)) :
    Good faultless { w with machine := m, executables := gained result ++ w.executables } := by
  obtain ⟨scope, l, laid, typed, cells⟩ := good.laid f known
  cases result with
  | error e => cases ran
  | ok g => exact good.created (.inr ⟨f, known, rfl⟩) laid typed cells ran

end Executables

section Updates

/-- How many others than an executable refer to a block. -/
def others (fs : List Executable) (os : List Output) (k : Key) : Nat := refsOf fs k + Output.holdsAll os k

omit [BlockRoutine] in
theorem refsOf_split (before after : List Executable) (f : Executable) (k : Key) :
    refsOf (before ++ f :: after) k = f.frame.refs k + refsOf (before ++ after) k := by
  simp only [refsOf, List.map_append, List.map_cons, List.sum_append, List.sum_cons]
  omega

omit [BlockRoutine] in
theorem refs_le_refsOf {fs : List Executable} {f : Executable} (member : f ∈ fs) (k : Key) :
    f.frame.refs k ≤ refsOf fs k :=
  List.single_le_sum (fun _ _ => Nat.zero_le _) _ (List.mem_map_of_mem member)

variable {before after : List Executable} {f : Executable}

/-- An executable between its calls, as one of many. -/
theorem Good.settled (good : Good faultless w) (split : w.executables = before ++ f :: after) :
    f.schedule.Settled f.context (others (before ++ after) w.outputs) ⟨f.frame, w.machine⟩ := by
  have member : f ∈ w.executables := by simp [split]
  have rests := good.rests f member
  refine ⟨⟨fun k => ?_, rests.owned, good.has _ (.inr ⟨f, member, rfl⟩), good.sane⟩, rests.slots, rests.shapes,
    rests.keeps⟩
  have held := good.held k
  rw [split, refsOf_split] at held
  simp only [others]
  omega

/-- What an executable did to itself and to blocks of its own keeps everything. -/
theorem Good.updated (good : Good faultless w) (split : w.executables = before ++ f :: after)
    (os : List Output) {a : Activation}
    (settled : f.schedule.Settled f.context (fun k => others (before ++ after) w.outputs k + Output.holdsAll os k) a)
    (sees : ∀ k, 0 < others (before ++ after) w.outputs k → a.machine.sees k = w.machine.sees k)
    (size : w.machine.accelerators.size ≤ a.machine.accelerators.size)
    (typed : ∀ c ∈ w.cells, c.id < a.machine.cells.size ∧ c.Typed a.machine.cells)
    (counted : w.machine.calls.size ≤ a.machine.calls.size)
    (handles : ∀ o ∈ os, ∀ h, o = .borrowed h → h.Lives a.machine)
    (quiet : faultless → (∀ id, (w.machine.accelerator id).Healthy → (a.machine.accelerator id).Healthy) ∧
      a.frame.poisoned = none) :
    Good faultless { w with machine := a.machine, executables := before ++ { f with frame := a.frame } :: after,
                            outputs := os ++ w.outputs } := by
  have member : f ∈ w.executables := by simp [split]
  -- The executables are the one that changed and the others, which are as they were.
  have either : ∀ g, g ∈ before ++ { f with frame := a.frame } :: after →
      g = { f with frame := a.frame } ∨ (g ∈ w.executables ∧ ∀ k, g.frame.refs k ≤ refsOf (before ++ after) k) := by
    intro g inList
    rw [List.mem_append, List.mem_cons] at inList
    have old : g ∈ before ++ after → g ∈ w.executables ∧ ∀ k, g.frame.refs k ≤ refsOf (before ++ after) k :=
      fun there => ⟨by rw [split]; simp only [List.mem_append, List.mem_cons] at there ⊢; tauto, refs_le_refsOf there⟩
    rcases inList with first | rfl | last
    · exact .inr (old (by simp [first]))
    · exact .inl rfl
    · exact .inr (old (by simp [last]))
  have contexts : ∀ c, Uses { w with executables := before ++ { f with frame := a.frame } :: after } c → w.Uses c := by
    rintro c (inContexts | ⟨g, inList, rfl⟩)
    · exact .inl inContexts
    · rcases either g inList with rfl | ⟨old, -⟩
      · exact .inr ⟨f, member, rfl⟩
      · exact .inr ⟨g, old, rfl⟩
  have has : ∀ {d : Device}, w.machine.Has d → a.machine.Has d := fun there id home =>
    Nat.lt_of_lt_of_le (there id home) size
  refine ⟨settled.tidy.sane, fun k => ?_, fun c uses d owns => has (good.has c (contexts c uses) d owns),
    fun c uses => good.honest c (contexts c uses), fun g inList => ?_, fun g inList => ?_, fun o inList h isIt => ?_,
    typed,
    good.numbered, fun g inList => ?_, fun holds c uses => ?_, fun holds g inList => ?_⟩
  · have held := settled.tidy.held k
    simp only [others] at held
    simp only [refsOf_split, Output.holdsAll, List.map_append, List.sum_append] at held ⊢
    omega
  · rcases either g inList with rfl | ⟨old, -⟩
    · exact good.laid f member
    · exact good.laid g old
  · rcases either g inList with rfl | ⟨old, least⟩
    · exact Executable.rests_of_settled settled
    · refine (good.rests g old).of_sees fun k refers => sees k ?_
      have := least k
      simp only [others]
      omega
  · rcases List.mem_append.mp inList with new | old
    · exact handles o new h isIt
    · obtain ⟨there, t, carries, shape⟩ := good.handles o old h isIt
      refine ⟨has there, t, carries.of_sees fun k isIn => sees k ?_, shape⟩
      have least := Output.holds_le old k
      have one : o.holds k = 1 := by simp [isIt, Output.holds, Buffer.hold, isIn]
      simp only [others]
      omega
  · rcases either g inList with rfl | ⟨old, -⟩
    · exact Nat.lt_of_lt_of_le (good.counted f member) counted
    · exact Nat.lt_of_lt_of_le (good.counted g old) counted
  · have reliable := good.reliable holds c (contexts c uses)
    exact ⟨reliable.kernels, fun d owns id home => (quiet holds).1 id (reliable.serves d owns id home)⟩
  · rcases either g inList with rfl | ⟨old, -⟩
    · exact (quiet holds).2
    · exact good.usable holds g old

end Updates

section Calls

variable {before after : List Executable} {f g : Executable}

omit [BlockRoutine] in
/-- What an action on an executable guarantees, as a claim about the executable. -/
theorem run_cases {α : Type} {act : Calling α} {m m' : Machine} {fails : Error → Activation → Prop}
    {post : α → Activation → Prop} (met : act.Meets ⟨f.frame, m⟩ fails post) {result : Except Error α}
    (ran : f.run act m = (result, g, m')) : ∃ a : Activation, g = { f with frame := a.frame } ∧ m' = a.machine ∧
      match result with
      | .ok x => post x a
      | .error e => fails e a := by
  unfold Executable.run at ran
  unfold Action.Meets at met
  rcases acted : act.start ⟨f.frame, m⟩ with ⟨outcome, a⟩
  rw [acted] at ran met
  obtain ⟨rfl, rfl, rfl⟩ : outcome = result ∧ { f with frame := a.frame } = g ∧ a.machine = m' := by simpa using ran
  refine ⟨a, rfl, rfl, ?_⟩
  cases outcome <;> exact met

/-- A call that is accepted is one that the theory of calls is about. -/
theorem Good.fits (good : Good faultless w) (member : f ∈ w.executables) (inputs : List Tensor) :
    ∃ scope l, (∀ c, scope.cell c → c ∈ w.cells) ∧ (f.Accepts inputs → (f.course inputs w.machine).Fits scope l) := by
  obtain ⟨scope, l, laid, typed, known⟩ := good.laid f member
  exact ⟨scope, l, known, fun accepts => ⟨laid, good.honest _ (.inr ⟨f, member, rfl⟩), typed,
    Calling.accept_ok laid accepts.inputs, fun c held => (good.typed c (known c held)).2⟩⟩

/-- A call is refused and changes nothing, or it fails or succeeds as a whole. -/
theorem Good.call_cases (good : Good faultless w) (split : w.executables = before ++ f :: after) {inputs : List Tensor}
    {borrow : Bool} {result : Except Error (List Output)} (ran : f.call inputs borrow w.machine = (result, g, m)) :
    ∃ a, g = { f with frame := a.frame } ∧ m = a.machine ∧
      match result with
      | .error e => (a = ⟨f.frame, w.machine⟩ ∧ Course.Refuses f.schedule inputs ⟨f.frame, w.machine⟩ e) ∨
          (f.Accepts inputs ∧ (f.course inputs w.machine).Aborts (others (before ++ after) w.outputs) e a)
      | .ok os => f.Accepts inputs ∧ (f.course inputs w.machine).Ends (others (before ++ after) w.outputs) f.id
          ((f.course inputs w.machine).start.callsOf f.id) borrow os a := by
  have member : f ∈ w.executables := by simp [split]
  obtain ⟨scope, l, laid, typed, known⟩ := good.laid f member
  obtain ⟨a, same, machine, met⟩ := run_cases (Course.invoke_meets laid
    (good.honest _ (.inr ⟨f, member, rfl⟩)) typed (fun c held => (good.typed c (known c held)).2) (good.settled split)
      inputs) ran
  refine ⟨a, same, machine, ?_⟩
  cases result with
  | error e => exact met.imp_right fun ⟨usable, accepted, aborts⟩ => ⟨⟨usable, accepted⟩, aborts⟩
  | ok os =>
    obtain ⟨usable, accepted, ends⟩ := met
    exact ⟨⟨usable, accepted⟩, ends⟩

/-- A call starts with nothing that is to fail if there never was anything. -/
theorem Good.course_reliable (good : Good faultless w) (member : f ∈ w.executables) (inputs : List Tensor)
    (holds : faultless) : f.context.Reliable (f.course inputs w.machine).start := by
  have context : w.Uses f.context := .inr ⟨f, member, rfl⟩
  exact (good.reliable holds _ context).unmoved (Machine.unmoved_of_same rfl rfl) (good.has _ context)

/-- The persistent values after a call are still typed. -/
theorem after_typed (numbered : ∀ c ∈ w.cells, ∀ c' ∈ w.cells, c.id = c'.id → c = c') {r : Course} {scope : Scope}
    {l : Layout} (fits : r.Fits scope l) (known : ∀ c, scope.cell c → c ∈ w.cells)
    (typed : ∀ c ∈ w.cells, c.id < r.start.cells.size ∧ c.Typed r.start.cells) :
    ∀ c ∈ w.cells, c.id < r.after.size ∧ c.Typed r.after := by
  unfold Course.after
  -- The updates are written one after the other.
  have each : ∀ us : List (Cell × Site), us ⊆ r.schedule.updates → ∀ cells : Array Tensor,
      (∀ c ∈ w.cells, c.id < cells.size ∧ c.Typed cells) →
      ∀ c ∈ w.cells, c.id < (r.written us cells).size ∧ c.Typed (r.written us cells) := by
    intro us
    induction us with
    | nil => exact fun _ _ typed => typed
    | cons u us ih =>
      intro inUpdates cells typed
      rw [Course.written, List.foldl_cons, ← Course.written]
      refine ih (fun x member => inUpdates (by simp [member])) _ ?_
      cases value : r.value u.2.var with
      | none => exact typed
      | some t =>
        have member := inUpdates (List.mem_cons_self ..)
        exact typed_set numbered (known _ (fits.update_cell member)) (fits.update_typed member value) typed
  exact each _ (List.Subset.refl _) _ typed

/-- A call keeps everything, whatever comes of it. -/
theorem Good.call (good : Good faultless w) (split : w.executables = before ++ f :: after) {inputs : List Tensor}
    {borrow : Bool} {result : Except Error (List Output)} (ran : f.call inputs borrow w.machine = (result, g, m)) :
    Good faultless { w with
      machine := m, executables := before ++ g :: after, outputs := results result ++ w.outputs } := by
  have member : f ∈ w.executables := by simp [split]
  obtain ⟨a, rfl, rfl, met⟩ := good.call_cases split ran
  have counted : w.machine.calls.size ≤ (f.course inputs w.machine).start.calls.size := by
    simp [Executable.course, Course.next]
  have reliable := good.course_reliable member inputs
  cases result with
  | error e =>
    rcases met with ⟨rfl, -⟩ | ⟨accepts, aborts⟩
    · have same : before ++ { f with frame := f.frame } :: after = w.executables := split.symm
      rw [same]
      exact good
    · refine good.updated split [] aborts.settled aborts.sees
        (Nat.le_of_eq aborts.lasts.size.symm) (by rw [aborts.lasts.cells]; exact good.typed)
        (by rw [aborts.lasts.calls]; exact counted) (fun o none => by cases none) fun holds => ?_
      obtain ⟨quiet, poisoned⟩ := aborts.quiet (reliable holds)
      exact ⟨fun id held => (quiet.healthy id held).resolve_right fun loud => loud, poisoned⟩
  | ok os =>
    obtain ⟨accepts, ends⟩ := met
    refine good.updated split os ends.settled ends.sees (Nat.le_of_eq ends.lasts.size.symm) ?_
      (by rw [ends.lasts.calls]; exact counted) (fun o inList h isIt => ?_) fun holds => ?_
    · obtain ⟨scope, l, known, fits⟩ := good.fits member inputs
      rw [ends.lasts.cells]
      exact after_typed good.numbered (fits accepts) known good.typed
    · obtain ⟨x, -, t, -, gives⟩ := partner_of ends.outputs inList
      rw [isIt] at gives
      obtain ⟨-, owns, carries, shape, -⟩ := gives
      exact ⟨ends.settled.tidy.has _ owns, t, carries, shape⟩
    · have quiet := ends.quiet (reliable holds)
      exact ⟨fun id held => (quiet.healthy id held).resolve_right fun loud => loud, ends.poisoned⟩

/-- Only the phase, the counters and the reason that calls are refused have changed. -/
structure Idles (a a' : Activation) : Prop where
  slots : a'.frame.slots = a.frame.slots
  shapes : a'.frame.shapes = a.frame.shapes
  alters : a.machine.Alters a'.machine (fun _ => False) False

/-- An executable whose accelerator was lost cannot be called any more. -/
theorem synchronize_meets {c : Context} {a : Activation} (sane : a.machine.Sane) (has : ∀ d, c.Owns d → a.machine.Has d) :
    (Calling.synchronize c).Meets a
      (fun _ a' => Idles a a' ∧ (c.Reliable a.machine → a'.frame.poisoned = a.frame.poisoned))
      fun _ a' => Idles a a' ∧ (c.Reliable a.machine → a'.frame.poisoned = a.frame.poisoned) := by
  unfold Calling.synchronize
  rw [meets_bind]
  refine Calling.count_meets _ fun stats => ?_
  rw [meets_bind, meets_attempt]
  refine Calling.onMachine_meets (c.synchronize_meets sane has) ?_ ?_
  · rintro e m ⟨alters, ill⟩
    simp only
    split
    · rw [meets_bind]
      exact ⟨⟨rfl, rfl, alters⟩, fun reliable => absurd reliable ill⟩
    · exact ⟨⟨rfl, rfl, alters⟩, fun _ => rfl⟩
  · rintro _ m alters
    exact ⟨⟨rfl, rfl, alters⟩, fun _ => rfl⟩

/-- Waiting keeps everything. -/
theorem Good.synchronize (good : Good faultless w) (split : w.executables = before ++ f :: after)
    {result : Except Error Unit} (ran : f.synchronize w.machine = (result, g, m)) :
    Good faultless { w with machine := m, executables := before ++ g :: after } := by
  have member : f ∈ w.executables := by simp [split]
  have context : w.Uses f.context := .inr ⟨f, member, rfl⟩
  have settled := good.settled split
  obtain ⟨a, rfl, rfl, ended⟩ := run_cases (synchronize_meets good.sane (good.has _ context)) ran
  obtain ⟨idles, poisoned⟩ : Idles ⟨f.frame, w.machine⟩ a ∧
      (f.context.Reliable w.machine → a.frame.poisoned = f.frame.poisoned) := by
    cases result <;> exact ended
  have sees : ∀ k, a.machine.sees k = w.machine.sees k := fun k => idles.alters.sees fun inside => inside
  refine good.updated split [] ?_ (fun k _ => sees k) (Nat.le_of_eq idles.alters.size.symm)
    (by rw [idles.alters.cells]; exact good.typed) (by rw [idles.alters.calls]) (fun o none => by cases none)
    fun holds => ?_
  · have tidy := (settled.tidy.quiet idles.alters).reframed idles.slots
    refine ⟨tidy, ?_, ?_, Course.keeps_reframed (a := ⟨f.frame, a.machine⟩) ?_ idles.slots⟩
    · exact (congrArg Array.size idles.slots).trans settled.slots
    · exact (congrArg Array.size idles.shapes).trans settled.shapes
    · intro cmd inCommands kept b at_
      obtain ⟨clean, shown⟩ := settled.keeps cmd inCommands kept b at_
      refine ⟨(Machine.contents_congr fun k _ => sees k).2.trans clean, fun args start => ?_⟩
      exact (shown args start).of_sees at_ fun k _ => sees k
  · exact ⟨fun id held => (idles.alters.healthy id held).resolve_right fun loud => loud,
      (poisoned (good.reliable holds _ context)).trans (good.usable holds f member)⟩

end Calls

section Results

/-- Reading a result alters nothing. -/
theorem Good.toHost_meets (good : Good faultless w) {o : Output} (known : o ∈ w.outputs) :
    o.toHost.Meets w.machine (fun _ m => w.machine.Alters m (fun _ => False) False)
      fun _ m => w.machine.Alters m (fun _ => False) False := by
  cases o with
  | host t => exact .refl _
  | borrowed h =>
    obtain ⟨has, t, carries, shape⟩ := good.handles _ known h rfl
    unfold Output.toHost Handle.toHost
    rw [meets_bind, meets_get]
    by_cases stale : w.machine.callsOf h.executable = h.call
    · simp only [stale, ne_eq, not_true_eq_false, ↓reduceIte, shape]
      exact (Device.materialize_meets good.sane has carries).mono (fun _ _ refused => refused.1)
        fun _ _ ⟨_, _, alters⟩ => alters
    · simp only [stale, ne_eq, not_false_eq_true, ↓reduceIte]
      exact .refl _

theorem Good.read (good : Good faultless w) {o : Output} (known : o ∈ w.outputs) {result : Except Error Tensor}
    (ran : o.toHost.start w.machine = (result, m)) : Good faultless { w with machine := m } :=
  good.quiet ((good.toHost_meets known).always ran)

theorem Good.wait_meets (good : Good faultless w) {c : Context} (known : c ∈ w.contexts) :
    c.synchronize.Meets w.machine (fun _ m => w.machine.Alters m (fun _ => False) False)
      fun _ m => w.machine.Alters m (fun _ => False) False :=
  (c.synchronize_meets good.sane (good.has c (.inl known))).mono (fun _ _ held => held.1) fun _ _ held => held

theorem Good.wait (good : Good faultless w) {c : Context} (known : c ∈ w.contexts) {result : Except Error Unit}
    (ran : c.synchronize.start w.machine = (result, m)) : Good faultless { w with machine := m } :=
  good.quiet ((good.wait_meets known).always ran)

end Results

section Drops

/-- What gives up results, executables and contexts keeps everything about those that are left. -/
theorem Good.fewer (good : Good faultless w) {w' : World} (cells : w'.cells = w.cells)
    (contexts : w'.contexts ⊆ w.contexts)
    (executables : w'.executables ⊆ w.executables) (outputs : w'.outputs ⊆ w.outputs)
    (lasts : w.machine.Lasts w'.machine False)
    (held : ∀ k, w'.machine.held k = others w'.executables w'.outputs k)
    (sees : ∀ k, 0 < others w'.executables w'.outputs k → w'.machine.sees k = w.machine.sees k) :
    Good faultless w' := by
  have older : ∀ c, w'.Uses c → w.Uses c := by
    rintro c (member | ⟨f, member, rfl⟩)
    · exact .inl (contexts member)
    · exact .inr ⟨f, executables member, rfl⟩
  have numbered : ∀ c ∈ w'.cells, c ∈ w.cells := fun c member => cells ▸ member
  refine ⟨lasts.sane good.sane, held, fun c uses d owns => lasts.has (good.has c (older c uses) d owns),
    fun c uses => good.honest c (older c uses), fun f member => ?_, fun f member => ?_, fun o member h isIt => ?_,
    fun c member => ?_, fun c member c' member' => good.numbered c (numbered c member) c' (numbered c' member'),
    fun f member => ?_, fun holds c uses => ?_, fun holds f member => good.usable holds f (executables member)⟩
  · rw [cells]
    exact good.laid f (executables member)
  · refine (good.rests f (executables member)).of_sees fun k refers => sees k ?_
    have := refs_le_refsOf member k
    simp only [others]
    omega
  · obtain ⟨there, t, carries, shape⟩ := good.handles o (outputs member) h isIt
    refine ⟨lasts.has there, t, carries.of_sees fun k isIn => sees k ?_, shape⟩
    have least := Output.holds_le member k
    have one : o.holds k = 1 := by simp [isIt, Output.holds, Buffer.hold, isIn]
    simp only [others]
    omega
  · rw [lasts.cells]
    exact good.typed c (numbered c member)
  · rw [lasts.calls]
    exact good.counted f (executables member)
  · exact (good.reliable holds c (older c uses)).lasts lasts fun loud => loud

/-- Blocks with other holders survive a result that is dropped. -/
theorem Good.dropped_output (good : Good faultless w) {before after : List Output} {o : Output}
    (split : w.outputs = before ++ o :: after) : w.machine.Lasts (o.release w.machine) False ∧
      (∀ k, (o.release w.machine).held k = others w.executables (before ++ after) k) ∧
      ∀ k, 0 < others w.executables (before ++ after) k → (o.release w.machine).sees k = w.machine.sees k := by
  have held : ∀ k, w.machine.held k = others w.executables (before ++ after) k + o.holds k := fun k => by
    have held := good.held k
    simp only [split, others, Output.holdsAll, List.map_append, List.map_cons, List.sum_append, List.sum_cons] at held ⊢
    omega
  cases o with
  | host t => exact ⟨.refl _, held, fun _ _ => rfl⟩
  | borrowed h =>
    obtain ⟨has, t, carries, -⟩ := good.handles (.borrowed h) (by simp [split]) h rfl
    obtain ⟨lasts, counted, sees⟩ := Machine.dropped_spec (m := w.machine) good.sane (b := some h.buffer)
      (fun r owned => by
        have on := carries.on
        rw [Option.some.inj owned] at on
        exact on ▸ has)
      fun k isIn => by
        have now := held k
        simp only [Output.holds, Buffer.hold, isIn, ↓reduceIte] at now
        omega
    refine ⟨lasts, fun k => ?_, fun k refers => sees k fun isIn => ?_⟩
    · have now := held k
      have then_ := counted k
      simp only [Output.holds] at now
      exact Nat.add_right_cancel (then_.trans now)
    · have now := held k
      simp only [Output.holds, Buffer.hold, isIn, ↓reduceIte] at now
      omega

theorem Good.dropOutput (good : Good faultless w) {before after : List Output} {o : Output}
    (split : w.outputs = before ++ o :: after) :
    Good faultless { w with machine := o.release w.machine, outputs := before ++ after } := by
  have fewer : before ++ after ⊆ w.outputs := by
    rw [split]
    exact ((List.sublist_cons_self o after).append_left before).subset
  obtain ⟨lasts, held, sees⟩ := good.dropped_output split
  exact good.fewer rfl (List.Subset.refl _) (List.Subset.refl _) fewer lasts held sees

omit [BlockRoutine] in
/-- What a context gives back are its leases. -/
theorem lasts_release (c : Context) (m : Machine) : m.Lasts (c.release m) False ∧
    (∀ k, (c.release m).held k = m.held k) ∧ ∀ k, (c.release m).sees k = m.sees k := by
  obtain ⟨host, accelerators, cells, calls⟩ := c.release_same m
  have unmoved := Machine.unmoved_of_same host accelerators
  have same : ∀ id, (c.release m).accelerator id = m.accelerator id := fun id => by
    rw [Machine.accelerator, Machine.accelerator, accelerators]
  refine ⟨⟨cells, calls, by rw [accelerators], unmoved.sane, fun id held => .inl ?_, fun id first blamed => .inl ?_,
    fun id first blamed => ?_, fun id => by rw [same]⟩, unmoved.held, unmoved.sees⟩
  · rwa [same]
  · rwa [Machine.Blamed, same] at blamed
  · rwa [Machine.Blamed, same]

/-- Blocks with other holders survive an executable that is dropped. -/
theorem Good.dropped_executable (good : Good faultless w) {before after : List Executable} {f : Executable}
    (split : w.executables = before ++ f :: after) : w.machine.Lasts (f.drop w.machine) False ∧
      (∀ k, (f.drop w.machine).held k = others (before ++ after) w.outputs k) ∧
      ∀ k, 0 < others (before ++ after) w.outputs k → (f.drop w.machine).sees k = w.machine.sees k := by
  have settled := good.settled split
  have met : (Calling.reset f.schedule).Meets ⟨f.frame, w.machine⟩ (fun _ _ => False) fun _ a =>
      w.machine.Lasts a.machine False ∧ (∀ k, a.machine.held k = others (before ++ after) w.outputs k) ∧
        ∀ k, 0 < others (before ++ after) w.outputs k → a.machine.sees k = w.machine.sees k := by
    unfold Calling.reset
    rw [meets_bind]
    refine (Calling.drop_meets f.schedule settled.tidy _).post ?_
    rintro _ a ⟨tidy, sheds⟩
    refine ⟨sheds.lasts, fun k => (tidy.held k).trans ?_, sheds.others⟩
    rw [Frame.refs_eq_zero (sheds.empty settled.slots), Nat.zero_add]
  unfold Executable.drop
  rcases ran : f.run (Calling.reset f.schedule) w.machine with ⟨result, g, m⟩
  obtain ⟨a, rfl, rfl, ended⟩ := run_cases met ran
  cases result with
  | error e => exact ended.elim
  | ok _ =>
    obtain ⟨lasts, held, sees⟩ := ended
    obtain ⟨lasts', held', sees'⟩ := lasts_release f.context a.machine
    exact ⟨(lasts.trans lasts').mono (Or.rec id id), fun k => (held' k).trans (held k),
      fun k refers => (sees' k).trans (sees k refers)⟩

theorem Good.dropExecutable (good : Good faultless w) {before after : List Executable} {f : Executable}
    (split : w.executables = before ++ f :: after) :
    Good faultless { w with machine := f.drop w.machine, executables := before ++ after } := by
  have fewer : before ++ after ⊆ w.executables := by
    rw [split]
    exact ((List.sublist_cons_self f after).append_left before).subset
  obtain ⟨lasts, held, sees⟩ := good.dropped_executable split
  exact good.fewer rfl (List.Subset.refl _) fewer (List.Subset.refl _) lasts held sees

theorem Good.dropContext (good : Good faultless w) {before after : List Context} {c : Context}
    (split : w.contexts = before ++ c :: after) :
    Good faultless { w with machine := c.release w.machine, contexts := before ++ after } := by
  have fewer : before ++ after ⊆ w.contexts := by
    rw [split]
    exact ((List.sublist_cons_self c after).append_left before).subset
  obtain ⟨lasts, held, sees⟩ := lasts_release c w.machine
  exact good.fewer rfl fewer (List.Subset.refl _) (List.Subset.refl _) lasts (fun k => (held k).trans (good.held k))
    fun k _ => sees k

end Drops

/-- Every operation keeps what is so. -/
theorem Step.good {w w' : World} (step : Step faultless w w') (good : Good faultless w) : Good faultless w' := by
  cases step with
  | create t ran => exact good.create ran
  | write known t ran => exact good.write known ran
  | context config tables honest sound ran => exact good.context honest sound ran
  | compile known p fresh ran => exact good.compile known fresh ran
  | fork known ran => exact good.fork known ran
  | call split inputs borrow ran => exact good.call split ran
  | synchronize split ran => exact good.synchronize split ran
  | read known ran => exact good.read known ran
  | wait known ran => exact good.wait known ran
  | dropOutput split => exact good.dropOutput split
  | dropExecutable split => exact good.dropExecutable split
  | dropContext split => exact good.dropContext split

/-- After any history the books are kept. -/
theorem Reachable.good (reachable : Reachable faultless w) : Good faultless w := by
  induction reachable with
  | start processors alert => exact good_start processors alert
  | step _ step ih => exact step.good ih

section Samples

/-- A program can be compiled for a new context. -/
theorem Reachable.holding {w : World} (reachable : Reachable faultless w) {config : Config} {tables : List Table}
    {kernels : Kernels} (honest : kernels.Honest) (sound : faultless → config.Faultless kernels) {c : Context}
    (opened : (Context.build config tables kernels).start w.machine = (.ok c, m)) {p : Program} (fresh : w.Fresh p)
    (compiles : (p.schedule c).isOk) : ∃ w' f, Reachable faultless w' ∧ w'.executables = f :: w.executables ∧
      f.context = c ∧ p.schedule c = .ok f.schedule ∧ f.frame.poisoned = none ∧ w'.cells = w.cells ∧
        w'.machine.cells = m.cells := by
  obtain ⟨s, scheduled⟩ := exists_of_isOk compiles
  have held := reachable.step (.context config tables honest sound opened)
  have ran : (p.compile c).start m =
      (.ok ⟨m.calls.size, s, c, .fresh s⟩, c.retain { m with calls := m.calls.push 0 }) := by
    rw [Program.compile_start, scheduled]
  exact ⟨_, _, held.step (.compile (List.mem_cons_self ..) p ⟨fresh.built, fresh.cells⟩ ran), rfl, rfl,
    scheduled, rfl, rfl, rfl⟩

omit [BlockRoutine] in
theorem fresh_negatedSum (w : World) : w.Fresh .negatedSum where
  built := Graph.built_negatedSum
  cells {v x c} atV origin := by
    have bound : Program.negatedSum.graph.vars.all (fun x => x.cell?.isNone) = true := by decide +kernel
    have none := Array.all_eq_true_iff_forall_mem.mp bound x (Array.mem_of_getElem? atV)
    simp [Var.cell?, origin] at none

/-- A world whose only executable negates sums and takes an argument. -/
theorem reachable_negatedSum (faultless : Prop) (config : Config) (c : Context) (t : Tensor)
    (sound : faultless → config.Faultless .host) (opened : (Context.build config [] .host).start {} = (.ok c, m))
    (takes : (Program.negatedSum.schedule c >>= fun s => Calling.accept s [t]).isOk) : ∃ w f, Reachable faultless w ∧
      w.executables = [f] ∧ f.context = c ∧ Program.negatedSum.schedule c = .ok f.schedule ∧ f.Accepts [t] ∧
        w.Fresh .negatedSum ∧ w.machine.cells = m.cells := by
  obtain ⟨⟨⟩, accepted⟩ := exists_of_isOk takes
  obtain ⟨s, compiled, accepted⟩ := bind_eq_ok.mp accepted
  obtain ⟨w, f, reachable, alone, context, scheduled, unpoisoned, -, cells⟩ :=
    (Reachable.start 4 false).holding Kernels.honest_host
    sound opened (fresh_negatedSum {}) (by rw [compiled]; rfl)
  obtain rfl := Except.ok.inj (compiled.symm.trans scheduled)
  exact ⟨w, f, reachable, alone, context, scheduled, ⟨unpoisoned, accepted⟩, fresh_negatedSum w, cells⟩

omit [BlockRoutine] in
theorem fresh_exchange {w : World} {c c' : Cell} (known : c ∈ w.cells) (known' : c' ∈ w.cells) :
    w.Fresh (.exchange c c') where
  built := .shared (.shared (.empty _) _) _
  cells {v x d} atV origin := by
    have leaves : (Program.exchange c c').graph.vars = #[⟨{ kind := c.kind, rank := c.rank }, .shared c, none⟩,
      ⟨{ kind := c'.kind, rank := c'.rank }, .shared c', none⟩] := rfl
    have inList := Array.mem_of_getElem? (leaves ▸ atV)
    rcases (by simpa using inList : _ ∨ _) with rfl | rfl <;> cases origin
    · exact known
    · exact known'

end Samples

end World

end TensorGraph
