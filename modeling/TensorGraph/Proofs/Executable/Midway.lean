import TensorGraph.Proofs.Executable.Course

/-! A call between two of its commands. What is there and still needed is in its slot, uploads that are kept carry
their constants, and a launch of the call that failed has left its trace in something that is still needed. -/
namespace TensorGraph

open Checked TensorGraph.Action

variable [BlockRoutine]

/-- Uploads that are kept carry their constants, which are the same in every call. -/
def Schedule.Keeps (s : Schedule) (c : Context) (a : Activation) : Prop :=
  ∀ cmd ∈ s.commands, cmd.isKept → ∀ b, a.frame.buffer? cmd.output.slot = some b →
    a.machine.taints b = false ∧ ∀ args start, Course.Shows ⟨s, c, args, start⟩ a cmd.output b

/-- An executable between its calls. -/
structure Schedule.Settled (s : Schedule) (c : Context) (ext : Key → Nat) (a : Activation) : Prop where
  tidy : a.Tidy c ext
  slots : a.frame.slots.size = s.slotCount
  shapes : a.frame.shapes.size = s.program.graph.vars.size
  keeps : s.Keeps c a

namespace Course

/-- What is so throughout a call: the books are kept, and only what the call itself owns is altered. -/
structure Runs (r : Course) (ext : Key → Nat) (a : Activation) : Prop where
  tidy : a.Tidy r.context ext
  slots : a.frame.slots.size = r.schedule.slotCount
  shapes : a.frame.shapes.size = r.schedule.program.graph.vars.size
  poisoned : a.frame.poisoned = none
  lasts : r.start.Lasts a.machine True
  quiet : r.context.Reliable r.start → r.start.Lasts a.machine False
  sees : ∀ k, 0 < ext k → a.machine.sees k = r.start.sees k

/-- A call after some of its commands. -/
structure Midway (r : Course) (ext : Key → Nat) (done rest : List Command) (a : Activation) : Prop
    extends r.Runs ext a where
  known : ∀ v, r.schedule.There done v →
    ∃ t, r.value v = some t ∧ a.frame.shapes[v]?.join = some t.shape
  pending : ∀ x, r.schedule.There done x.var → r.schedule.Needed rest x → ∃ b, r.Shows a x b
  keeps : r.schedule.Keeps r.context a
  alarm : ∀ id, a.machine.Blamed id (r.start.accelerator id).launches → ∃ x b,
    r.schedule.There done x.var ∧ r.schedule.Needed rest x ∧ a.frame.buffer? x.slot = some b ∧
      a.machine.taints b = true
  traced : ∀ x b, r.schedule.There done x.var → r.schedule.Needed rest x → a.frame.buffer? x.slot = some b →
    a.machine.taints b = true → ∃ id, a.machine.Blamed id (r.start.accelerator id).launches

/-- The extents of the operands of a command do not agree or are too large, so that its output has no value. -/
def Disagrees (r : Course) (cmd : Command) (e : Error) : Prop :=
  r.value cmd.output.var = none ∧ ∃ ts, List.Forall₂ (fun (x : Site) t => r.value x.var = some t) cmd.inputs ts ∧
    cmd.op.resultShape (ts.map Tensor.shape) = .error e

/-- Where a call stops if nothing else goes wrong: at the first command whose operands disagree. -/
structure StopsAt (r : Course) (before : List Command) (cmd : Command) (after : List Command) (e : Error) : Prop where
  split : r.schedule.commands = before ++ cmd :: after
  valued : ∀ cmd ∈ before, r.value cmd.output.var ≠ none
  disagrees : r.Disagrees cmd e

/-- The operands of some command disagree, and this is the error of the first one. -/
def StopsWith (r : Course) (e : Error) : Prop := ∃ before cmd after, r.StopsAt before cmd after e

/-- A call that failed. Where nothing fails but for the extents of operands, it stopped where these disagree. -/
structure Fails (r : Course) (ext : Key → Nat) (e : Error) (a : Activation) : Prop extends r.Runs ext a where
  notVacant : ¬ e.Vacant
  stops : r.context.Reliable r.start → r.StopsWith e

/-- A call that broke off because something fails or is bound to. -/
structure Breaks (r : Course) (ext : Key → Nat) (e : Error) (a : Activation) : Prop extends r.Fails ext e a where
  ill : ¬ r.context.Reliable r.start

/-- A call has come to a command whose operands disagree. -/
structure Stuck (r : Course) (ext : Key → Nat) (before : List Command) (cmd : Command) (after : List Command)
    (e : Error) (a : Activation) : Prop extends r.StopsAt before cmd after e where
  mid : r.Midway ext before (cmd :: after) a

/-- The counts of reads are those of the commands to come and of the operands that were not given up yet. -/
def Counts (rest : List Command) (left : List Site) (a : Activation) : Prop :=
  ∀ slot, a.frame.counts.getD slot 0 = Schedule.readsOf rest slot + left.countP fun x => x.slot == slot

variable {r : Course} {scope : Scope} {l : Layout} {ext : Key → Nat} {done rest : List Command} {cmd : Command}
  {a a' : Activation} {slot : SlotId}

section Stops

variable {r' : Course} {before before' after after' : List Command} {cmd' : Command} {e e' : Error}

/-- The output of a command that has run has a value. -/
theorem Midway.valued (mid : r.Midway ext done rest a) : ∀ cmd ∈ done, r.value cmd.output.var ≠ none := by
  intro cmd ran
  obtain ⟨t, value, -⟩ := mid.known cmd.output.var (.inr ⟨cmd, ran, rfl⟩)
  rw [value]
  exact Option.some_ne_none t

theorem Disagrees.unique (disagrees : r.Disagrees cmd e) (disagrees' : r'.Disagrees cmd e')
    (same : r.value = r'.value) : e = e' := by
  obtain ⟨-, ts, values, refused⟩ := disagrees
  obtain ⟨-, ts', values', refused'⟩ := disagrees'
  rw [← same] at values'
  have once : Relator.RightUnique fun (x : Site) t => r.value x.var = some t := fun x t t' known known' =>
    Option.some.inj (known.symm.trans known')
  obtain rfl := once.forall₂ values values'
  exact Except.error.inj (refused.symm.trans refused')

theorem StopsAt.not_before (stops : r.StopsAt before cmd after e) (stops' : r'.StopsAt before' cmd' after' e')
    (same : r.value = r'.value) : cmd ∉ before' := fun earlier =>
  stops'.valued cmd earlier (same ▸ stops.disagrees.1)

/-- Two calls about the same values stop at the same command with the same error. -/
theorem StopsAt.unique (stops : r.StopsAt before cmd after e) (stops' : r'.StopsAt before' cmd' after' e')
    (commands : r'.schedule.commands = r.schedule.commands) (same : r.value = r'.value) :
    before = before' ∧ e = e' := by
  have order : before ++ cmd :: after = before' ++ cmd' :: after' :=
    stops.split.symm.trans (commands.symm.trans stops'.split)
  rcases List.append_eq_append_iff.mp order with ⟨more, rfl, back⟩ | ⟨more, rfl, back⟩
  · cases more with
    | nil =>
      obtain ⟨rfl, -⟩ := List.cons.inj back
      exact ⟨(List.append_nil _).symm, stops.disagrees.unique stops'.disagrees same⟩
    | cons x more =>
      obtain ⟨rfl, -⟩ := List.cons.inj back
      exact absurd (by simp) (stops.not_before stops' same)
  · cases more with
    | nil =>
      obtain ⟨rfl, -⟩ := List.cons.inj back
      exact ⟨List.append_nil _, stops.disagrees.unique stops'.disagrees same⟩
    | cons x more =>
      obtain ⟨rfl, -⟩ := List.cons.inj back
      exact absurd (by simp) (stops'.not_before stops same.symm)

theorem StopsWith.ofExtents (stops : r.StopsWith e) : e.OfExtents := by
  obtain ⟨before, cmd, after, -, -, -, ts, -, refused⟩ := stops
  exact Op.resultShape_error refused

/-- A call stops with an error that evaluations of what it was compiled to break off with. -/
theorem StopsWith.breaksOff (stops : r.StopsWith e) (fits : r.Fits scope l) {math : MathMode}
    (value : r.schedule.program.value math r.args r.start.cells = r.value) :
    r.schedule.program.BreaksOff math r.args r.start.cells e := by
  obtain ⟨before, cmd, after, split, -, -, ts, operands, refused⟩ := stops
  obtain ⟨n, live, does⟩ := fits.laid.node (by simp [split] : cmd ∈ r.schedule.commands)
  obtain ⟨tys, ty, y, -, values, -⟩ := fits.typed_operands live does operands
  rw [does.op] at refused
  exact Program.breaksOff_of_node live (value ▸ values) refused

/-- A call that stops at a command lacks one of its results. -/
theorem StopsWith.root_without (stops : r.StopsWith e) (fits : r.Fits scope l) :
    ∃ v ∈ r.schedule.program.roots, r.value v = none := by
  obtain ⟨before, cmd, after, split, -, without, -⟩ := stops
  exact fits.root_without (by simp [split]) without

end Stops

theorem Runs.reliable (runs : r.Runs ext a) (reliable : r.context.Reliable r.start) :
    r.context.Reliable a.machine := reliable.lasts (runs.quiet reliable) fun loud => loud

/-- What is done to a slot without a failure is part of the call. -/
theorem Runs.steps (runs : r.Runs ext a) {loud : Prop} (steps : a.Steps a' ext slot loud)
    (tidy : a'.Tidy r.context ext) (quiet : r.context.Reliable a.machine → a.machine.Lasts a'.machine False) :
    r.Runs ext a' where
  tidy := tidy
  slots := steps.size.trans runs.slots
  shapes := (congrArg Array.size steps.shapes).trans runs.shapes
  poisoned := steps.poisoned.trans runs.poisoned
  lasts := (runs.lasts.trans steps.lasts).mono fun _ => trivial
  quiet reliable := ((runs.quiet reliable).trans (quiet (runs.reliable reliable))).mono (Or.rec id id)
  sees k others := (steps.public others).trans (runs.sees k others)

theorem Runs.halts (runs : r.Runs ext a) {e : Error} (halts : a.Halts a' r.context ext e) : r.Breaks ext e a' where
  tidy := halts.tidy
  slots := halts.size.trans runs.slots
  shapes := (congrArg Array.size halts.shapes).trans runs.shapes
  poisoned := halts.poisoned.trans runs.poisoned
  lasts := (runs.lasts.trans halts.lasts).mono fun _ => trivial
  quiet reliable := absurd (runs.reliable reliable) halts.ill
  sees k others := (halts.sees k others).trans (runs.sees k others)
  notVacant := halts.notVacant
  stops reliable := absurd (runs.reliable reliable) halts.ill
  ill reliable := halts.ill (runs.reliable reliable)

theorem Shows.beside {x : Site} {b : Buffer} {loud : Prop} (shows_ : r.Shows a x b)
    (steps : a.Steps a' ext slot loud) (other : x.slot ≠ slot) : r.Shows a' x b := by
  obtain ⟨at_, sees⟩ := Calling.beside steps shows_.at_ other
  exact shows_.of_sees at_ sees

omit [BlockRoutine] in
theorem taints_beside {x : Site} {b : Buffer} {loud : Prop} (at_ : a.frame.buffer? x.slot = some b)
    (steps : a.Steps a' ext slot loud) (other : x.slot ≠ slot) :
    a'.frame.buffer? x.slot = some b ∧ a'.machine.taints b = a.machine.taints b := by
  obtain ⟨still, sees⟩ := Calling.beside steps at_ other
  exact ⟨still, (Machine.contents_congr sees).2⟩

/-- What is done to other slots leaves kept uploads as they are. -/
theorem keeps_beside {s : Schedule} {c : Context} (keeps : s.Keeps c a) {loud : Prop}
    (steps : a.Steps a' ext slot loud)
    (here : ∀ cmd ∈ s.commands, cmd.isKept → cmd.output.slot = slot → ∀ b, a'.frame.buffer? slot = some b →
      a'.machine.taints b = false ∧ ∀ args start, Course.Shows ⟨s, c, args, start⟩ a' cmd.output b) :
    s.Keeps c a' := by
  intro cmd member kept b at_
  by_cases same : cmd.output.slot = slot
  · rw [same] at at_
    exact here cmd member kept same b at_
  · rw [steps.others _ same] at at_
    obtain ⟨clean, shown⟩ := keeps cmd member kept b at_
    refine ⟨(taints_beside at_ steps same).2.trans clean, fun args start => ?_⟩
    exact (shown args start).beside steps same

/-- Uploads are about slots only. -/
theorem keeps_reframed {s : Schedule} {c : Context} (keeps : s.Keeps c a) {f : Frame}
    (slots : f.slots = a.frame.slots) : s.Keeps c { a with frame := f } := by
  intro cmd member kept b at_
  have same : ∀ slot, f.buffer? slot = a.frame.buffer? slot := fun slot => by
    rw [Frame.buffer?, Frame.buffer?, slots]
  obtain ⟨clean, shown⟩ := keeps cmd member kept b (same _ ▸ at_)
  exact ⟨clean, fun args start => (shown args start).of_sees at_ fun _ _ => rfl⟩

namespace Fits

/-- The value of an upload that is kept is a constant. -/
theorem kept_value (fits : r.Fits scope l) (member : cmd ∈ r.schedule.commands) (kept : cmd.isKept) :
    ∃ t, ∀ args start, Course.value ⟨r.schedule, r.context, args, start⟩ cmd.output.var = some t := by
  obtain ⟨n, live, does⟩ := fits.laid.node member
  have work := does.work
  unfold Command.isKept at kept
  cases run : cmd.work with
  | launch kernel =>
    rw [run] at kept
    cases kept
  | transfer b =>
    rw [run] at work kept
    obtain ⟨moves, upload⟩ := work
    obtain ⟨-, v, x, t, head, atV, origin⟩ := upload kept
    have at_ := fits.laid.valid.graph.live_mem live
    obtain ⟨u, z, -, -, inputs, -⟩ := fits.laid.valid.graph.single at_
      (by cases op : n.op <;> rw [op] at moves <;> first | rfl | cases moves)
    obtain rfl : u = v := by simpa [inputs] using head
    refine ⟨t, fun args start => ?_⟩
    have leaf : r.schedule.program.graph.value r.context.mathAt (r.schedule.program.bind args start.cells) u = _ :=
      Graph.value_leaf atV (by simp [Var.isLeaf, origin])
    rw [origin] at leaf
    have output : r.schedule.program.graph.value r.context.mathAt (r.schedule.program.bind args start.cells)
        n.output = _ :=
      fits.laid.valid.graph.value_output at_
    rw [inputs, List.mapM_cons, leaf] at output
    rw [does.output.1]
    refine output.trans ?_
    simp only [Origin.value?, List.mapM_nil, Option.bind_eq_bind, Option.pure_def, Option.bind_some,
      Op.eval_transfer moves]
    rfl

end Fits

/-- Nothing that is still needed was in the slot. -/
theorem Midway.freed (fits : r.Fits scope l) (mid : r.Midway ext done rest a) (tidy : a'.Tidy r.context ext)
    (steps : a.Steps a' ext slot False) (spares : ∀ x, r.schedule.Needed rest x → x.slot ≠ slot)
    (unpinned : r.schedule.pinned.getD slot false = false) : r.Midway ext done rest a' where
  toRuns := mid.toRuns.steps steps tidy fun _ => steps.lasts
  known v there := by
    rw [steps.shapes]
    exact mid.known v there
  pending x there needed := by
    obtain ⟨b, shows_⟩ := mid.pending x there needed
    exact ⟨b, shows_.beside steps (spares x needed)⟩
  keeps := by
    refine keeps_beside mid.keeps steps fun cmd member kept same => ?_
    have pinned := fits.laid.kept_pinned member kept
    rw [same, unpinned] at pinned
    cases pinned
  alarm id blamed := by
    obtain ⟨x, b, there, needed, at_, tainted⟩ :=
      mid.alarm id ((steps.lasts.blamed id _ blamed).resolve_right fun loud => loud)
    obtain ⟨still, same⟩ := taints_beside at_ steps (spares x needed)
    exact ⟨x, b, there, needed, still, same.trans tainted⟩
  traced x b there needed at_ tainted := by
    rw [steps.others _ (spares x needed)] at at_
    rw [(taints_beside at_ steps (spares x needed)).2] at tainted
    obtain ⟨id, blamed⟩ := mid.traced x b there needed at_ tainted
    exact ⟨id, steps.lasts.recorded id _ blamed⟩

/-- A command made what it was to make, from operands that are no traces of failures if its output is none. -/
theorem Midway.advance (fits : r.Fits scope l) (split : r.schedule.commands = done ++ cmd :: rest)
    (mid : r.Midway ext done (cmd :: rest) a) {d : Device} {t : Tensor} {b : Buffer}
    (device : r.context.device cmd.location = .ok d) (value : r.value cmd.output.var = some t)
    (tidy : a'.Tidy r.context ext)
    (made : a.Made a' r.context ext cmd.output.slot d t b
      (∀ x ∈ cmd.inputs, ∀ b', a.frame.buffer? x.slot = some b' → a.machine.taints b' = false))
    (kept : cmd.isKept → a'.machine.taints b = false) :
    r.Midway ext (done ++ [cmd]) rest
      { a' with frame := { a'.frame with shapes := a'.frame.shapes.setIfInBounds cmd.output.var (some t.shape) } } := by
  have member : cmd ∈ r.schedule.commands := by
    rw [split]
    simp
  have placed := fits.output_placed member device
  have sited := fits.laid.output_sited member
  have loudly : a.Steps a' ext cmd.output.slot True :=
    made.outcome.elim (fun fine => fine.1.mono False.elim) fun failed => failed.1
  have runs : r.Runs ext a' := mid.toRuns.steps loudly tidy fun reliable =>
    made.outcome.elim (fun fine => fine.1.lasts) fun failed => absurd reliable failed.2.2.1
  have apart : ∀ x, r.schedule.Needed rest x → x.slot ≠ cmd.output.slot → x.var ≠ cmd.output.var := by
    intro x needed differs equal
    have inCommands : rest ⊆ r.schedule.commands := by
      rw [split]
      exact fun _ member => List.mem_append_right _ (List.mem_cons_of_mem _ member)
    have atX := fits.laid.needed_sited inCommands needed
    rw [equal, sited] at atX
    exact differs (Option.some.inj atX).symm
  have later : rest ⊆ cmd :: rest := List.subset_cons_self cmd rest
  refine ⟨{ runs with tidy := tidy.reframed rfl, shapes := ?_ }, ?_, ?_, ?_, ?_, ?_⟩
  · rw [Array.size_setIfInBounds]
    exact runs.shapes
  · intro v there
    by_cases same : v = cmd.output.var
    · have inRange : cmd.output.var < a'.frame.shapes.size := by
        obtain ⟨-, y, atV, -⟩ := placed
        rw [runs.shapes]
        exact (Array.getElem?_eq_some_iff.mp atV).1
      rw [same]
      exact ⟨t, value, by simp [inRange]⟩
    · obtain ⟨u, valueV, shape⟩ := mid.known v (there.before same)
      refine ⟨u, valueV, ?_⟩
      rw [Array.getElem?_setIfInBounds_ne (Ne.symm same), loudly.shapes]
      exact shape
  · intro x there needed
    by_cases same : x.slot = cmd.output.slot
    · rw [fits.laid.spared split there needed same]
      exact ⟨b, made.at_, t, d, value, placed, made.carries⟩
    · obtain ⟨b', shows_⟩ := mid.pending x (there.before (apart x needed same)) (needed.mono later)
      have shown := shows_.beside loudly same
      exact ⟨b', shown.of_sees shown.at_ fun _ _ => rfl⟩
  · refine keeps_reframed (keeps_beside mid.keeps loudly fun cmd' member' kept' same b' at_ => ?_) rfl
    have alone := fits.laid.kept_alone member' kept' (sited.trans (congrArg some same.symm))
    obtain rfl := fits.laid.eq_of_output member member' alone.symm
    obtain rfl : b = b' := Option.some.inj (made.at_.symm.trans at_)
    obtain ⟨u, constant⟩ := fits.kept_value member' kept'
    obtain rfl : t = u := Option.some.inj (value.symm.trans (constant r.args r.start))
    exact ⟨kept kept', fun args start => ⟨at_, t, d, constant args start, placed, made.carries⟩⟩
  · intro id blamed
    have wanted := fits.laid.wanted split
    have output : r.schedule.There (done ++ [cmd]) cmd.output.var := .inr ⟨cmd, by simp, rfl⟩
    rcases made.outcome with ⟨steps, clean, -⟩ | ⟨-, tainted, -⟩
    · obtain ⟨x, b', there, needed, at_, tainted⟩ :=
        mid.alarm id ((steps.lasts.blamed id _ blamed).resolve_right fun loud => loud)
      have still : r.schedule.Needed rest x := by
        rcases needed with root | ⟨cmd', inList, reads⟩
        · exact .inl root
        · rcases List.mem_cons.mp inList with rfl | inRest
          · rw [clean x reads b' at_] at tainted
            cases tainted
          · exact .inr ⟨cmd', inRest, reads⟩
      obtain ⟨at_', same⟩ := taints_beside at_ steps (fits.laid.elsewhere split there still)
      exact ⟨x, b', there.mono (List.subset_append_left _ _), still, at_', same.trans tainted⟩
    · exact ⟨cmd.output, b, output, wanted, made.at_, tainted⟩
  · intro x b' there needed at_ tainted
    rcases made.outcome with ⟨steps, -, clean⟩ | ⟨-, -, -, id, l', later, failed⟩
    · by_cases same : x.slot = cmd.output.slot
      · rw [same] at at_
        obtain rfl : b = b' := Option.some.inj (made.at_.symm.trans at_)
        exact absurd tainted (by rw [clean]; exact Bool.false_ne_true)
      · have old : a.frame.buffer? x.slot = some b' := (steps.others _ same).symm.trans at_
        rw [(taints_beside old steps same).2] at tainted
        have before := there.before (apart x needed same)
        obtain ⟨id, blamed⟩ := mid.traced x b' before (needed.mono later) old tainted
        exact ⟨id, steps.lasts.recorded id _ blamed⟩
    · exact ⟨id, l', Nat.le_trans (mid.lasts.launches id) later, failed⟩

end Course

end TensorGraph
