import TensorGraph.Proofs.Executable.Midway

/-! A call from its start to its last command. Every command finds the values of its operands in their slots, and
gives a slot up after the last read only. -/
namespace TensorGraph

open Checked TensorGraph.Action

theorem Error.OfExtents.not_vacant {e : Error} (ofExtents : e.OfExtents) : ¬ e.Vacant := by
  rintro ⟨slot, rfl⟩
  rcases ofExtents with ⟨op, reason, wrong⟩ | wrong <;> cases wrong

/-- Nothing on the host is the trace of a failure. -/
theorem Machine.taints_on_host {m : Machine} {b : Buffer} (on : b.On .host) : m.taints b = false :=
  taints_of_serves (fun _ wrong => by cases wrong) on

namespace Calling

/-- What a command does, on operands of the given shapes. -/
def perform (c : Context) (cmd : Command) (shapes : List Shape) (shape : Shape) : Calling Unit :=
  match cmd.work with
  | .transfer kept => do
    if !(kept && ((← get).frame.buffer? cmd.output.slot).isSome) then transfer c cmd shape
  | .launch kernel => compute c cmd kernel shapes shape

/-- A command up to the first few of its operands given back. -/
def partly (s : Schedule) (c : Context) (cmd : Command) (front : List Site) : Calling Unit := do
  let shapes ← cmd.inputs.mapM fun x => Calling.shape x.var
  let shape ← cmd.op.resultShape shapes
  perform c cmd shapes shape
  onFrame fun x => { x with shapes := x.shapes.setIfInBounds cmd.output.var (some shape) }
  front.forM fun x => release s c x.slot

theorem execute_eq (s : Schedule) (c : Context) (cmd : Command) : execute s c cmd = (do
    partly s c cmd cmd.inputs
    if (← remaining cmd.output.slot) = 0 then free s c cmd.output.slot) := by
  unfold execute partly perform
  simp only [bind_assoc]
  refine bind_congr fun shapes => bind_congr fun shape => ?_
  cases cmd.work with
  | launch kernel => rfl
  | transfer kept =>
    simp only [bind_assoc]
    refine bind_congr fun a => ?_
    split
    · rfl
    · simp only [pure_bind]

theorem shape_meets {a : Activation} {fails : Error → Activation → Prop} {v : VarId} {shape : Shape}
    (known : a.frame.shapes[v]?.join = some shape) :
    (Calling.shape v).Meets a fails fun s a' => a' = a ∧ s = shape := by
  unfold Calling.shape
  rw [meets_bind, meets_get]
  simp only [known]
  exact ⟨rfl, rfl⟩

end Calling

namespace Course

variable {r : Course} {scope : Scope} {l : Layout} {ext : Key → Nat} {done rest : List Command} {cmd : Command}
  {a a' : Activation} {slot : SlotId}

variable [BlockRoutine]

/-- A buffer with the value of a variable, in the slot of the variable. -/
def Offers (r : Course) (a : Activation) (e : Buffer × Tensor) (x : Site) : Prop :=
  a.frame.buffer? x.slot = some e.1 ∧ r.value x.var = some e.2 ∧
    ∃ d, r.Placed x.var d ∧ a.machine.Carries e.1 d e.2

/-- The operands of the next command are in their slots. -/
theorem Midway.operands (fits : r.Fits scope l) (split : r.schedule.commands = done ++ cmd :: rest)
    (mid : r.Midway ext done (cmd :: rest) a) : ∃ es, List.Forall₂ (r.Offers a) es cmd.inputs := by
  refine exists_forall₂ fun x reads => ?_
  obtain ⟨b, shows_⟩ := mid.pending x (fits.laid.ready split reads) (.inr ⟨cmd, by simp, reads⟩)
  obtain ⟨t, d, value, placed, carries⟩ := shows_.carries
  exact ⟨(b, t), shows_.at_, value, d, placed, carries⟩

theorem values_of_offers {es : List (Buffer × Tensor)} {xs : List Site}
    (offers : List.Forall₂ (r.Offers a) es xs) :
    List.Forall₂ (fun (x : Site) t => r.value x.var = some t) xs (es.map Prod.snd) := by
  rw [List.forall₂_map_right_iff]
  exact (offers.imp fun e x held => held.2.1).flip

/-- The shapes of the operands are known. -/
theorem Midway.shapes_meet (fits : r.Fits scope l) (split : r.schedule.commands = done ++ cmd :: rest)
    (mid : r.Midway ext done (cmd :: rest) a) {es : List (Buffer × Tensor)}
    (offers : List.Forall₂ (r.Offers a) es cmd.inputs) {fails : Error → Activation → Prop} :
    (cmd.inputs.mapM fun (x : Site) => Calling.shape x.var).Meets a fails
      fun shapes a' => a' = a ∧ shapes = (es.map Prod.snd).map Tensor.shape := by
  refine meets_mapM (fun before shapes a' => a' = a ∧
    shapes = ((es.take before.length).map Prod.snd).map Tensor.shape) _ ⟨rfl, rfl⟩ ?_ ?_
  · rintro before x after shapes a' whole ⟨rfl, rfl⟩
    obtain ⟨t, value, shape⟩ := mid.known x.var (fits.laid.ready split (by rw [whole]; simp))
    rw [whole] at offers
    obtain ⟨front, e, back, rfl, first, ⟨-, value', -⟩, -⟩ := forall₂_split offers
    obtain rfl : t = e.2 := Option.some.inj (value.symm.trans value')
    refine (Calling.shape_meets shape).post ?_
    rintro s a'' ⟨rfl, rfl⟩
    refine ⟨rfl, ?_⟩
    rw [List.length_append, List.length_singleton, ← first.length_eq, List.take_left, List.take_length_add_append]
    simp
  · rintro shapes a' ⟨rfl, rfl⟩
    rw [← offers.length_eq, List.take_length]
    exact ⟨rfl, rfl⟩

section Perform

variable {n : Node} {d : Device} {t : Tensor}

/-- The buffer that a command has left in the slot of its output, made from buffers that are no traces of failures
unless it is one itself. -/
def MakesOf (r : Course) (ext : Key → Nat) (cmd : Command) (a : Activation) (d : Device) (t : Tensor) (b : Buffer)
    (a' : Activation) : Prop :=
  a.Made a' r.context ext cmd.output.slot d t b
    (∀ x ∈ cmd.inputs, ∀ b', a.frame.buffer? x.slot = some b' → a.machine.taints b' = false)

/-- A transfer moves its operand, or finds a constant that an earlier call uploaded. -/
theorem Midway.transfer_meets (fits : r.Fits scope l) (split : r.schedule.commands = done ++ cmd :: rest)
    (mid : r.Midway ext done (cmd :: rest) a) (live : n ∈ r.schedule.program.liveNodes)
    (does : cmd.Does r.context r.schedule.program.graph l n) (device : r.context.device cmd.location = .ok d)
    {es : List (Buffer × Tensor)} (offers : List.Forall₂ (r.Offers a) es cmd.inputs)
    (ran : cmd.op.eval cmd.math (es.map Prod.snd) = .ok t) (value : r.value cmd.output.var = some t)
    (kind : cmd.kind = t.kind) {kept : Bool} (work : cmd.work = .transfer kept) {shapes : List Shape} :
    (Calling.perform r.context cmd shapes t.shape).Meets a (fun e a' => r.Breaks ext e a') fun _ a' =>
      a'.Tidy r.context ext ∧ ∃ b, a'.machine.taints b = false ∧ r.MakesOf ext cmd a d t b a' := by
  have member : cmd ∈ r.schedule.commands := by
    rw [split]
    simp
  have inside : cmd.output.slot < a.frame.slots.size := by
    rw [mid.slots, fits.laid.slotCount_eq]
    exact fits.laid.fair.inRange (fits.laid.output_sited member)
  have moved := does.work
  rw [work] at moved
  obtain ⟨moves, upload⟩ := moved
  obtain ⟨u, z, -, -, single, atU, -⟩ := fits.laid.valid.graph.single (fits.laid.valid.graph.live_mem live)
    (by cases op : n.op <;> rw [op] at moves <;> first | rfl | cases moves)
  obtain ⟨x, inputs, atX⟩ : ∃ x, cmd.inputs = [x] ∧ l.At u x := by
    have each := does.inputs
    rw [single] at each
    obtain ⟨x, none, here, rest, same⟩ := List.forall₂_cons_left_iff.mp each
    cases rest
    exact ⟨x, same, here⟩
  obtain ⟨e, rfl, at_, valueX, home, placed, carries⟩ : ∃ e, es = [e] ∧ r.Offers a e x := by
    rw [inputs] at offers
    obtain ⟨e, none, here, rest, rfl⟩ := List.forall₂_cons_right_iff.mp offers
    cases rest
    exact ⟨e, rfl, here⟩
  obtain rfl : e.2 = t := by
    rw [Op.eval_transfer (does.op ▸ moves)] at ran
    exact Except.ok.inj ran
  have reads : x ∈ cmd.inputs := by simp [inputs]
  have only : a.machine.taints e.1 = false → ∀ x ∈ cmd.inputs, ∀ b', a.frame.buffer? x.slot = some b' →
      a.machine.taints b' = false := by
    intro clean x' reads' b' at_'
    rw [inputs, List.mem_singleton] at reads'
    subst reads'
    rwa [Option.some.inj (at_.symm.trans at_')] at clean
  unfold Calling.perform
  simp only [work]
  rw [meets_bind, meets_get]
  by_cases present : kept && (a.frame.buffer? cmd.output.slot).isSome
  · rw [Bool.and_eq_true] at present
    obtain ⟨b, atOut⟩ := Option.isSome_iff_exists.mp present.2
    have isKept : cmd.isKept := by simp [Command.isKept, work, present.1]
    obtain ⟨clean, shown⟩ := mid.keeps cmd member isKept b atOut
    obtain ⟨t, d', value', placed', carried⟩ := (shown r.args r.start).carries
    obtain rfl : e.2 = t := Option.some.inj (value.symm.trans value')
    obtain rfl := placed'.unique (fits.output_placed member device)
    obtain ⟨-, v, y, u', head, atV, origin⟩ := upload present.1
    obtain rfl : u = v := by simpa [single] using head
    have leaf : x ∈ r.schedule.leafSites := fits.laid.mem_leafSites.mpr
      ⟨y, by rw [atX.1]; exact atV, by simp [Var.isLeaf, origin], by rw [atX.1]; exact atX.2,
        fun wrong => by simp [Var.isInput, origin] at wrong⟩
    obtain rfl := placed.unique (fits.leaf_placed leaf)
    simp only [present.1, present.2, Bool.and_self, Bool.not_true, Bool.false_eq_true, ↓reduceIte, meets_pure]
    exact ⟨mid.tidy, b, clean, atOut, carried, .inl ⟨.refl a ext _, only (Machine.taints_on_host carries.on), clean⟩⟩
  · rw [Bool.not_eq_true] at present
    simp only [present, Bool.not_false, ↓reduceIte]
    have other : x.slot ≠ cmd.output.slot := by
      intro same
      obtain ⟨i, marked, -⟩ := fits.laid.own_slot split reads same
      obtain ⟨tys, ty, y, known⟩ := fits.laid.valid.operation live
      exact (known.rule.2 i (does.inPlace ▸ marked)).1 moves
    refine (Calling.transfer_meets mid.tidy inside device placed.1 inputs other at_ carries kind).mono
      (fun e' a' halts => mid.toRuns.halts halts) ?_
    rintro _ a' ⟨tidy', b, clean, made⟩
    exact ⟨tidy', b, clean, made.mono only⟩

/-- A launch computes its output from the operands, which may be in the slot that it writes if it is elementwise. -/
theorem Midway.launch_meets (fits : r.Fits scope l) (split : r.schedule.commands = done ++ cmd :: rest)
    (mid : r.Midway ext done (cmd :: rest) a) (live : n ∈ r.schedule.program.liveNodes)
    (does : cmd.Does r.context r.schedule.program.graph l n) (device : r.context.device cmd.location = .ok d)
    {es : List (Buffer × Tensor)} (offers : List.Forall₂ (r.Offers a) es cmd.inputs)
    (shape : cmd.op.resultShape ((es.map Prod.snd).map Tensor.shape) = .ok t.shape)
    (ran : cmd.op.eval cmd.math (es.map Prod.snd) = .ok t) (value : r.value cmd.output.var = some t)
    (kind : cmd.kind = t.kind) {kernel : Kernel} (work : cmd.work = .launch kernel) :
    (Calling.perform r.context cmd ((es.map Prod.snd).map Tensor.shape) t.shape).Meets a
      (fun e a' => r.Breaks ext e a') fun _ a' => a'.Tidy r.context ext ∧ ∃ b, r.MakesOf ext cmd a d t b a' := by
  have member : cmd ∈ r.schedule.commands := by
    rw [split]
    simp
  have inside : cmd.output.slot < a.frame.slots.size := by
    rw [mid.slots, fits.laid.slotCount_eq]
    exact fits.laid.fair.inRange (fits.laid.output_sited member)
  have launched := does.work
  rw [work] at launched
  obtain ⟨computes, found⟩ := launched
  rw [← does.op] at computes found
  have values := values_of_offers offers
  have formed : cmd.op.Formed := by
    obtain ⟨tys, ty, y, known⟩ := fits.laid.valid.operation live
    rw [does.op]
    exact Op.formed_of_infer known.inferred
  have reads : List.Forall₂ (fun (e : Buffer × Tensor) (x : Site) => a.frame.buffer? x.slot = some e.1 ∧
      (x.slot = cmd.output.slot → cmd.inPlace.isSome ∧ cmd.op.isFusable ∧ e.2.shape = t.shape)) es cmd.inputs := by
    refine List.forall₂_iff_get.mpr ⟨offers.length_eq, fun j inEs inInputs => ?_⟩
    obtain ⟨at_, valueX, -⟩ := offers.get inEs inInputs
    refine ⟨at_, fun same => ?_⟩
    obtain ⟨i, marked, atI⟩ := fits.laid.own_slot split (List.get_mem cmd.inputs ⟨j, inInputs⟩) same
    obtain ⟨u, atU, valueU⟩ := forall₂_getElem? values atI
    obtain rfl := Option.some.inj (valueX.symm.trans valueU)
    obtain ⟨fusable, sameShape⟩ := fits.overwritten_shape member values shape value marked atU
    exact ⟨by rw [marked]; rfl, fusable, sameShape⟩
  have carried : ∀ e ∈ es, a.machine.Carries e.1 d e.2 := fun e inEs => by
    obtain ⟨x, inInputs, -, -, d', placed, carries⟩ := partner offers inEs
    rwa [placed.unique (fits.operand_placed member computes device inInputs)] at carries
  have marked : ∀ i, cmd.inPlace = some i → ∃ x, cmd.inputs[i]? = some x ∧ x.slot = cmd.output.slot := by
    intro i mark
    rw [does.inPlace] at mark
    obtain ⟨v, atI, -⟩ := fits.laid.safely n live i mark
    obtain ⟨x, atX, -, slotX⟩ := forall₂_getElem? does.inputs atI
    have slots := (fits.laid.slotted n live).inPlace mark atI
    rw [does.output.2, slotX] at slots
    exact ⟨x, atX, (Option.some.inj slots).symm⟩
  unfold Calling.perform
  simp only [work]
  refine (Calling.compute_meets mid.tidy inside device reads carried marked
    ⟨computes, formed, found, fits.honest, ran, kind⟩).mono (fun e' a' halts => mid.toRuns.halts halts) ?_
  rintro _ a' ⟨tidy', b, made⟩
  refine ⟨tidy', b, made.mono fun clean x reads' b' at_ => ?_⟩
  obtain ⟨e, inEs, atE, -⟩ := partner_of offers reads'
  rw [← Option.some.inj (atE.symm.trans at_)]
  exact clean e inEs

/-- A command makes the value of its output, or fails because something fails or is bound to. -/
theorem Midway.perform_meets (fits : r.Fits scope l) (split : r.schedule.commands = done ++ cmd :: rest)
    (mid : r.Midway ext done (cmd :: rest) a) {es : List (Buffer × Tensor)}
    (offers : List.Forall₂ (r.Offers a) es cmd.inputs)
    (shape : cmd.op.resultShape ((es.map Prod.snd).map Tensor.shape) = .ok t.shape)
    (ran : cmd.op.eval cmd.math (es.map Prod.snd) = .ok t) (value : r.value cmd.output.var = some t)
    (kind : cmd.kind = t.kind) :
    (Calling.perform r.context cmd ((es.map Prod.snd).map Tensor.shape) t.shape).Meets a
      (fun e a' => r.Breaks ext e a') fun _ a' => a'.frame.counts = a.frame.counts ∧
        r.Midway ext (done ++ [cmd]) rest
          { a' with frame := { a'.frame with
              shapes := a'.frame.shapes.setIfInBounds cmd.output.var (some t.shape) } } := by
  have member : cmd ∈ r.schedule.commands := by
    rw [split]
    simp
  obtain ⟨n, live, does⟩ := fits.laid.node member
  obtain ⟨d, device, -⟩ := does.device
  have counts : ∀ {a' : Activation} {b : Buffer}, r.MakesOf ext cmd a d t b a' →
      a'.frame.counts = a.frame.counts := fun made =>
    made.outcome.elim (fun fine => fine.1.counts) fun failed => failed.1.counts
  cases work : cmd.work with
  | transfer kept =>
    refine (mid.transfer_meets fits split live does device offers ran value kind work).post ?_
    rintro _ a' ⟨tidy, b, clean, made⟩
    exact ⟨counts made, mid.advance fits split device value tidy made fun _ => clean⟩
  | launch kernel =>
    refine (mid.launch_meets fits split live does device offers shape ran value kind work).post ?_
    rintro _ a' ⟨tidy, b, made⟩
    refine ⟨counts made, mid.advance fits split device value tidy made fun wrong => ?_⟩
    simp [Command.isKept, work] at wrong

end Perform

section Release

theorem Runs.reframed (runs : r.Runs ext a) {f : Frame} (slots : f.slots = a.frame.slots)
    (shapes : f.shapes.size = a.frame.shapes.size) (poisoned : f.poisoned = a.frame.poisoned) :
    r.Runs ext { a with frame := f } :=
  { runs with
    tidy := runs.tidy.reframed slots
    slots := (congrArg Array.size slots).trans runs.slots
    shapes := shapes.trans runs.shapes
    poisoned := poisoned.trans runs.poisoned }

/-- Counts, phases and counters do not matter for what is where. -/
theorem Midway.reframed (mid : r.Midway ext done rest a) {f : Frame} (slots : f.slots = a.frame.slots)
    (shapes : f.shapes = a.frame.shapes) (poisoned : f.poisoned = a.frame.poisoned) :
    r.Midway ext done rest { a with frame := f } := by
  have same : ∀ slot, f.buffer? slot = a.frame.buffer? slot := fun slot => by
    rw [Frame.buffer?, Frame.buffer?, slots]
  refine ⟨mid.toRuns.reframed slots (by rw [shapes]) poisoned, fun v there => ?_, fun x there needed => ?_,
    keeps_reframed mid.keeps slots, fun id blamed => ?_, fun x b there needed at_ tainted => ?_⟩
  · rw [shapes]
    exact mid.known v there
  · obtain ⟨b, shows_⟩ := mid.pending x there needed
    exact ⟨b, shows_.of_sees ((same _).trans shows_.at_) fun _ _ => rfl⟩
  · obtain ⟨x, b, there, needed, at_, tainted⟩ := mid.alarm id blamed
    exact ⟨x, b, there, needed, (same _).trans at_, tainted⟩
  · exact mid.traced x b there needed ((same _).symm.trans at_) tainted

/-- A slot that no later command reads is given up without harm. -/
theorem Midway.free_meets (fits : r.Fits scope l) (mid : r.Midway ext done rest a)
    (unread : Schedule.readsOf rest slot = 0) :
    (Calling.free r.schedule r.context slot).Meets a (fun e a' => r.Breaks ext e a') fun _ a' =>
      r.Midway ext done rest a' ∧ a'.frame.counts = a.frame.counts := by
  refine (Calling.free_meets r.schedule mid.tidy).mono (fun e a' halts => mid.toRuns.halts halts) ?_
  rintro _ a' ⟨tidy, steps, stays⟩
  cases pinned : r.schedule.pinned.getD slot false with
  | true =>
    obtain rfl := stays pinned
    exact ⟨mid, rfl⟩
  | false =>
    refine ⟨mid.freed fits tidy steps (fun x needed same => ?_) pinned, steps.counts⟩
    rcases needed with root | ⟨cmd', inRest, reads⟩
    · have held := fits.laid.root_pinned root
      rw [same, pinned] at held
      cases held
    · unfold Schedule.readsOf at unread
      rw [List.countP_eq_zero] at unread
      exact unread x (List.mem_flatMap.mpr ⟨cmd', inRest, reads⟩) (by simp [same])

/-- The last read of a slot gives it up. -/
theorem Midway.release_meets (fits : r.Fits scope l) (mid : r.Midway ext done rest a)
    {x : Site} {left : List Site} (counts : Counts rest (x :: left) a) :
    (Calling.release r.schedule r.context x.slot).Meets a (fun e a' => r.Breaks ext e a') fun _ a' =>
      r.Midway ext done rest a' ∧ Counts rest left a' := by
  have counted : Counts rest left
      { a with frame := { a.frame with counts := a.frame.counts.modify x.slot (· - 1) } } := by
    intro slot
    have old := counts slot
    rw [List.countP_cons] at old
    simp only [Array.getD_eq_getD_getElem?, Array.getElem?_modify] at old ⊢
    by_cases same : x.slot = slot
    · subst same
      simp only [↓reduceIte, beq_self_eq_true] at old ⊢
      cases here : a.frame.counts[x.slot]? with
      | none => simp [here] at old
      | some n =>
        simp only [here, Option.map_some, Option.getD_some] at old ⊢
        omega
    · have other : (x.slot == slot) = false := by simpa using same
      simp only [if_neg same, other, Bool.false_eq_true, ↓reduceIte, Nat.add_zero] at old ⊢
      exact old
  have mid' := mid.reframed (f := { a.frame with counts := a.frame.counts.modify x.slot (· - 1) }) rfl rfl rfl
  unfold Calling.release Calling.onFrame
  rw [meets_bind, meets_modify, meets_bind]
  unfold Calling.remaining
  rw [meets_bind, meets_get, meets_pure]
  split
  · rename_i empty
    have unread : Schedule.readsOf rest x.slot = 0 := by
      have none := counted x.slot
      simp only at none empty
      omega
    refine (mid'.free_meets fits unread).post ?_
    rintro _ a' ⟨mid'', same⟩
    refine ⟨mid'', fun slot => ?_⟩
    rw [same]
    exact counted slot
  · exact ⟨mid', counted⟩

/-- Operands are given back one after the other. -/
theorem Midway.releases_meet (fits : r.Fits scope l) (mid : r.Midway ext done rest a) {front back : List Site}
    (whole : cmd.inputs = front ++ back) (counts : Counts (cmd :: rest) [] a) :
    (front.forM fun x => Calling.release r.schedule r.context x.slot).Meets a (fun e a' => r.Breaks ext e a')
      fun _ a' => r.Midway ext done rest a' ∧ Counts rest back a' := by
  refine meets_forM (fun _ left a' => r.Midway ext done rest a' ∧ Counts rest (left ++ back) a') _ ⟨mid, fun slot => ?_⟩
    ?_ fun _ held => held
  · have old := counts slot
    rw [← whole]
    simp only [Schedule.readsOf, List.flatMap_cons, List.countP_append, List.countP_nil] at old ⊢
    omega
  · rintro before x after a' - ⟨mid', counts'⟩
    exact mid'.release_meets fits counts'

end Release

/-- A call stops at the first command whose operands disagree. -/
theorem Stuck.fails {before after : List Command} {e : Error} (stuck : r.Stuck ext before cmd after e a) :
    r.Fails ext e a := by
  have stops : r.StopsWith e := ⟨before, cmd, after, stuck.toStopsAt⟩
  exact ⟨stuck.mid.toRuns, stops.ofExtents.not_vacant, fun _ => stops⟩

/-- One command up to the first few of its operands given back. It does nothing if the extents of its operands do not
agree. -/
theorem Midway.partly_halts (fits : r.Fits scope l) (split : r.schedule.commands = done ++ cmd :: rest)
    (mid : r.Midway ext done (cmd :: rest) a) (counts : Counts (cmd :: rest) [] a) {front back : List Site}
    (whole : cmd.inputs = front ++ back) :
    (Calling.partly r.schedule r.context cmd front).Meets a
      (fun e a' => r.Breaks ext e a' ∨ a' = a ∧ r.Disagrees cmd e) fun _ a' =>
        r.Midway ext (done ++ [cmd]) rest a' ∧ Counts rest back a' := by
  have member : cmd ∈ r.schedule.commands := by
    rw [split]
    simp
  obtain ⟨es, offers⟩ := mid.operands fits split
  unfold Calling.partly
  rw [meets_bind]
  refine (mid.shapes_meet fits split offers).post ?_
  rintro _ a₀ ⟨rfl, rfl⟩
  rw [meets_bind, meets_lift]
  rcases fits.command_value member (values_of_offers offers) with
    ⟨t, shape, ran, value, kind⟩ | ⟨e, shape, isShape, without⟩
  · rw [shape]
    simp only
    rw [meets_bind]
    refine (mid.perform_meets fits split offers shape ran value kind).mono (fun _ _ => .inl) ?_
    rintro _ a' ⟨same, mid'⟩
    unfold Calling.onFrame
    rw [meets_bind, meets_modify]
    refine (mid'.releases_meet fits whole fun slot => ?_).mono (fun _ _ => .inl) fun _ _ held => held
    rw [same]
    exact counts slot
  · rw [shape]
    exact .inr ⟨rfl, without, _, values_of_offers offers, shape⟩

theorem Midway.partly_meets (fits : r.Fits scope l) (split : r.schedule.commands = done ++ cmd :: rest)
    (mid : r.Midway ext done (cmd :: rest) a) (counts : Counts (cmd :: rest) [] a) {front back : List Site}
    (whole : cmd.inputs = front ++ back) :
    (Calling.partly r.schedule r.context cmd front).Meets a (fun e a' => r.Fails ext e a') fun _ a' =>
      r.Midway ext (done ++ [cmd]) rest a' ∧ Counts rest back a' := by
  refine (mid.partly_halts fits split counts whole).mono ?_ fun _ _ held => held
  rintro e a' (breaks | ⟨rfl, disagrees⟩)
  · exact breaks.toFails
  · exact Stuck.fails ⟨⟨split, mid.valued, disagrees⟩, mid⟩

/-- One command. After it, what nobody reads any more is given up. -/
theorem Midway.execute_halts (fits : r.Fits scope l) (split : r.schedule.commands = done ++ cmd :: rest)
    (mid : r.Midway ext done (cmd :: rest) a) (counts : Counts (cmd :: rest) [] a) :
    (Calling.execute r.schedule r.context cmd).Meets a
      (fun e a' => r.Breaks ext e a' ∨ a' = a ∧ r.Disagrees cmd e) fun _ a' =>
        r.Midway ext (done ++ [cmd]) rest a' ∧ Counts rest [] a' := by
  rw [Calling.execute_eq, meets_bind]
  refine (mid.partly_halts fits split counts (List.append_nil _).symm).post ?_
  rintro _ a' ⟨mid', counts'⟩
  unfold Calling.remaining
  rw [meets_bind, meets_bind, meets_get, meets_pure]
  split
  · rename_i empty
    have unread : Schedule.readsOf rest cmd.output.slot = 0 := by
      have none := counts' cmd.output.slot
      rw [empty] at none
      omega
    refine (mid'.free_meets fits unread).mono (fun _ _ => .inl) ?_
    rintro _ a'' ⟨mid'', same⟩
    refine ⟨mid'', fun slot => ?_⟩
    rw [same]
    exact counts' slot
  · exact ⟨mid', counts'⟩

/-- Some of the commands, from the first one on. They stop at one whose operands disagree, after those before it. -/
theorem Midway.commands_halt (fits : r.Fits scope l) (split : r.schedule.commands = done ++ rest)
    (mid : r.Midway ext [] r.schedule.commands a) (counts : Counts r.schedule.commands [] a) :
    (done.forM (Calling.execute r.schedule r.context)).Meets a
      (fun e a' => r.Breaks ext e a' ∨ ∃ before cmd after, cmd ∈ done ∧ r.Stuck ext before cmd after e a' ∧
        (before.forM (Calling.execute r.schedule r.context)).start a = (.ok ⟨⟩, a'))
      fun _ a' => r.Midway ext done rest a' ∧ Counts rest [] a' := by
  refine meets_forM (fun before after a' => r.Midway ext before (after ++ rest) a' ∧ Counts (after ++ rest) [] a' ∧
    (before.forM (Calling.execute r.schedule r.context)).start a = (.ok ⟨⟩, a')) _ (split ▸ ⟨mid, counts, rfl⟩) ?_
      fun _ ⟨mid', counts', _⟩ => ⟨mid', counts'⟩
  rintro before cmd after a' whole ⟨mid', counts', ran⟩
  have order : r.schedule.commands = before ++ cmd :: (after ++ rest) := by
    rw [split, whole]
    simp
  have met := mid'.execute_halts fits order counts'
  refine (Action.meets_start _ a').mono (fun e a'' here => ?_) fun _ a'' here => ?_
  · rcases met.of_error here with breaks | ⟨rfl, disagrees⟩
    · exact .inl breaks
    · exact .inr ⟨before, cmd, after ++ rest, by simp [whole], ⟨⟨order, mid'.valued, disagrees⟩, mid'⟩, ran⟩
  · obtain ⟨mid'', counts''⟩ := met.of_ok here
    refine ⟨mid'', counts'', ?_⟩
    rw [forM_concat, start_bind, ran]
    exact here

theorem Midway.commands_meet (fits : r.Fits scope l) (split : r.schedule.commands = done ++ rest)
    (mid : r.Midway ext [] r.schedule.commands a) (counts : Counts r.schedule.commands [] a) :
    (done.forM (Calling.execute r.schedule r.context)).Meets a (fun e a' => r.Fails ext e a') fun _ a' =>
      r.Midway ext done rest a' ∧ Counts rest [] a' := by
  refine (mid.commands_halt fits split counts).mono ?_ fun _ _ held => held
  rintro e a' (breaks | ⟨before, cmd, after, -, stuck, -⟩)
  · exact breaks.toFails
  · exact stuck.fails

end Course

end TensorGraph
