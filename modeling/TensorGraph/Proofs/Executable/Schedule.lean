import TensorGraph.Proofs.Executable.Layout
import TensorGraph.Proofs.Pass.InPlace

/-! Schedules of placed programs. Every command stands for an operation, in the order of the program; when it
runs its operands are there, and nothing that is still needed is in the slot that it writes. -/
namespace TensorGraph

open Checked Relation

/-- A variable with its slot. -/
def Layout.At (l : Layout) (v : VarId) (x : Site) : Prop := x.var = v ∧ l.slot v = some x.slot

theorem Layout.At.unique {l : Layout} {v : VarId} {x y : Site} (first : l.At v x) (second : l.At v y) : x = y := by
  obtain ⟨var, slot⟩ := x
  obtain ⟨var', slot'⟩ := y
  obtain ⟨rfl, atX⟩ := first
  obtain ⟨rfl, atY⟩ := second
  obtain rfl : slot = slot' := Option.some.inj (atX.symm.trans atY)
  rfl

/-- A command does what an operation says, on the slots of a layout. -/
structure Command.Does (cmd : Command) (c : Context) (g : Graph) (l : Layout) (n : Node) : Prop where
  op : cmd.op = n.op
  place : n.place = some cmd.location
  device : ∃ d, c.device cmd.location = .ok d ∧ cmd.math = d.mathMode c.config.math
  inputs : List.Forall₂ l.At n.inputs cmd.inputs
  output : l.At n.output cmd.output
  inPlace : cmd.inPlace = n.inPlace
  kind : ∃ y, g.vars[n.output]? = some y ∧ cmd.kind = y.ty.kind
  work : match cmd.work with
    | .transfer kept => n.op.isTransfer ∧ (kept → InPlace.isUpload g n ∧ ∃ v x t, n.inputs.head? = some v ∧
        g.vars[v]? = some x ∧ x.origin = .constant t)
    | .launch kernel => ¬ n.op.isTransfer ∧ c.kernels.get? n.op.family = some kernel

namespace Schedule

/-- Where arguments, constants and persistent values go. -/
def leafSites (s : Schedule) : List Site :=
  s.inputs.map Prod.fst ++ s.constants.map Prod.fst ++ s.cells.map Prod.fst

/-- What is read after the last command. -/
def rootSites (s : Schedule) : List Site := s.outputs ++ s.updates.map Prod.snd

/-- A schedule as it is built for a program on the slots of a layout. -/
structure Renders (s : Schedule) (c : Context) (l : Layout) : Prop where
  commands : List.Forall₂ (fun n cmd => cmd.Does c s.program.graph l n) s.program.liveNodes s.commands
  inputs : List.Forall₂ (fun v e => l.At v e.1 ∧ ∃ x, s.program.graph.vars[v]? = some x ∧ e.2 = x.ty)
    s.program.inputs s.inputs
  constants : ∀ {x : Site} {t : Tensor}, (x, t) ∈ s.constants ↔
    ∃ y, s.program.graph.vars[x.var]? = some y ∧ l.slot x.var = some x.slot ∧ y.constant? = some t
  cells : ∀ {x : Site} {c : Cell}, (x, c) ∈ s.cells ↔
    ∃ y, s.program.graph.vars[x.var]? = some y ∧ l.slot x.var = some x.slot ∧ y.cell? = some c
  outputs : List.Forall₂ l.At s.program.outputs s.outputs
  updates : List.Forall₂ (fun u e => l.At u.2 e.2 ∧
    ∃ y, s.program.graph.vars[u.1]? = some y ∧ y.cell? = some e.1) s.program.updates s.updates
  reads : s.reads = ((List.range l.count).map (readsOf s.commands)).toArray
  pinned : s.pinned = ((List.range l.count).map (isPinned s.rootSites s.commands)).toArray

/-- A schedule as it is built for a program whose marks are safe. -/
structure LaidOut (s : Schedule) (c : Context) (scope : Scope) (l : Layout) : Prop extends s.Renders c l where
  valid : s.program.Valid (.marked c.target scope)
  safely : s.program.OverwritesSafely
  fair : l.Fair s.program s.program.liveNodes
  slotted : ∀ n ∈ s.program.liveNodes, l.Slotted n

section Build

variable {c : Context} {q : Program} {d : Discipline} {scope : Scope} {l : Layout}

theorem mem_leaves {α : Type} {g : Graph} {f : Var → Option α} {x : Site} {a : α} :
    (x, a) ∈ leaves g l f ↔ ∃ y, g.vars[x.var]? = some y ∧ l.slot x.var = some x.slot ∧ f y = some a := by
  unfold leaves
  rw [List.mem_filterMap]
  simp only [id_eq, List.mem_mapIdx, exists_eq_right]
  simp only [bind, Option.bind_eq_some_iff, Option.some.injEq, Prod.mk.injEq]
  constructor
  · rintro ⟨v, inVars, slot, atV, a', found, rfl, rfl⟩
    exact ⟨_, Array.getElem?_eq_getElem (by simpa using inVars), atV, found⟩
  · rintro ⟨y, atV, slot, found⟩
    obtain ⟨inVars, rfl⟩ := Array.getElem?_eq_some_iff.mp atV
    exact ⟨x.var, by simpa using inVars, x.slot, slot, a, by simpa using found, rfl, rfl⟩

theorem device_of_placed (c : Context) {loc : Location} (there : c.Reaches loc) :
    ∃ d, c.device loc = .ok d ∧ d.location = loc := by
  rcases there with rfl | rfl
  · exact ⟨.host, rfl, rfl⟩
  · unfold Context.target Context.targetDevice
    cases accelerator : c.accelerator with
    | none => exact ⟨.host, rfl, rfl⟩
    | some d =>
      cases d with
      | host => exact ⟨.host, rfl, rfl⟩
      | sim id ordinal => exact ⟨.sim id ordinal, by simp [Context.device, accelerator, Device.location], rfl⟩

variable [BlockRoutine]

/-- Every operation becomes a command, if there is a kernel for it. -/
theorem command_meets (valid : q.Valid d) {n : Node} (live : n ∈ q.liveNodes)
    (settled : c.settled n.op n.place) (slotted : l.Slotted n) :
    match command c q.graph l n with
    | .ok cmd => cmd.Does c q.graph l n
    | .error _ => c.kernels ≠ .host := by
  obtain ⟨tys, ty, y, known⟩ := valid.operation live
  obtain ⟨loc, place, there⟩ := settled
  obtain ⟨d, device, -⟩ := device_of_placed c there
  obtain ⟨inputs, atInputs⟩ := Layout.sites_of_slots slotted.inputs
  obtain ⟨output, atOutput⟩ := Layout.site_of_slot slotted.output
  have math : c.mathMode loc = .ok (d.mathMode c.config.math) := by
    simp only [Context.mathMode, device, ok_bind, pure_eq]
  have found : discard (c.device loc) = (.ok () : Except Error Unit) := by
    rw [device]
    rfl
  have done : ∀ work, (match work with
      | .transfer kept => n.op.isTransfer ∧ (kept → InPlace.isUpload q.graph n ∧ ∃ v x t,
          n.inputs.head? = some v ∧ q.graph.vars[v]? = some x ∧ x.origin = .constant t)
      | .launch kernel => ¬ n.op.isTransfer ∧ c.kernels.get? n.op.family = some kernel) →
      workOf c q.graph n = .ok work → ∃ cmd, command c q.graph l n = .ok cmd ∧
        cmd.Does c q.graph l n := by
    intro work fine ran
    refine ⟨⟨n.id, n.label, n.op, loc, y.ty.kind, inputs, output, n.inPlace, work,
      d.mathMode c.config.math⟩, ?_, rfl, place, ⟨d, device, rfl⟩, ?_, ?_, rfl, ⟨y, known.atOutput, rfl⟩, fine⟩
    · have known' : q.graph.ty n.output = .ok y.ty := Graph.ty_eq_ok.mpr ⟨y, known.atOutput, rfl⟩
      simp only [command, place, found, ok_bind, atInputs, atOutput, ran, known', math, pure_eq]
    · exact (mapM_eq_ok.mp atInputs).imp fun _ _ found => Layout.site_eq_ok.mp found
    · exact Layout.site_eq_ok.mp atOutput
  by_cases moves : n.op.isTransfer
  · obtain ⟨u, z, -, -, single, atU, -⟩ := valid.graph.single (valid.graph.live_mem live)
      (by cases op : n.op <;> rw [op] at moves <;> first | rfl | cases moves)
    have head : n.inputs.head? = some u := by rw [single]; rfl
    have upload : ∀ b, (b = true → (q.graph.vars[u]?.bind Var.constant?).isSome) →
        (b = true → InPlace.isUpload q.graph n ∧ ∃ v x t, n.inputs.head? = some v ∧
          q.graph.vars[v]? = some x ∧ x.origin = .constant t) := by
      intro b constant held
      have isConstant := constant held
      refine ⟨by simp [InPlace.isUpload, moves, head, isConstant], u, z, ?_⟩
      rw [atU, Option.bind_some] at isConstant
      cases origin : z.origin with
      | constant t => exact ⟨t, head, atU, rfl⟩
      | _ => simp [Var.constant?, origin] at isConstant
    have ran : ∃ kept : Bool, workOf c q.graph n = .ok (.transfer kept) ∧
        (kept = true → (q.graph.vars[u]?.bind Var.constant?).isSome) := by
      unfold workOf
      cases op : n.op with
      | toDevice ordinal =>
        simp only [single, Graph.var_eq_ok.mpr atU, ok_bind, pure_eq]
        exact ⟨_, rfl, fun held => by rw [atU]; exact held⟩
      | toHost => exact ⟨false, rfl, fun wrong => by cases wrong⟩
      | _ => simp [op, Op.isTransfer] at moves
    obtain ⟨kept, ran, constant⟩ := ran
    obtain ⟨cmd, built, does⟩ := done (.transfer kept) ⟨moves, upload kept constant⟩ ran
    rw [built]
    exact does
  · have ran : workOf c q.graph n = Work.launch <$> c.kernels.lookup n.op := by
      unfold workOf
      cases op : n.op with
      | toDevice ordinal => simp [op, Op.isTransfer] at moves
      | toHost => simp [op, Op.isTransfer] at moves
      | _ => rfl
    cases missing : c.kernels.lookup n.op with
    | ok kernel =>
      obtain ⟨cmd, built, does⟩ := done (.launch kernel) ⟨moves, Op.lookup_eq_ok.mp missing⟩
        (by rw [ran, missing]; rfl)
      rw [built]
      exact does
    | error e =>
      -- Only tables of kernels that lack one are without it.
      have other : c.kernels ≠ .host := by
        intro host
        obtain ⟨kernel, here⟩ := Op.exists_kernel moves
        rw [host, Op.lookup_eq_ok.mpr here] at missing
        cases missing
      cases built : command c q.graph l n with
      | error e => exact other
      | ok cmd =>
        exfalso
        simp only [command, place, found, ok_bind, atInputs, atOutput, ran, missing] at built
        cases built

theorem commands_meet (valid : q.Valid d) {ns : List Node}
    (live : ∀ n ∈ ns, n ∈ q.liveNodes ∧ c.settled n.op n.place ∧ l.Slotted n) :
    match ns.mapM (command c q.graph l) with
    | .ok cmds => List.Forall₂ (fun n cmd => cmd.Does c q.graph l n) ns cmds
    | .error _ => c.kernels ≠ .host := by
  induction ns with
  | nil => exact .nil
  | cons n ns ih =>
    obtain ⟨here, settled, slotted⟩ := live n (by simp)
    have first := command_meets valid here settled slotted
    have rest := ih fun m member => live m (List.mem_cons_of_mem _ member)
    rw [List.mapM_cons]
    cases built : command c q.graph l n with
    | error e =>
      rw [built] at first
      exact first
    | ok cmd =>
      rw [built] at first
      rw [ok_bind]
      cases others : ns.mapM (command c q.graph l) with
      | error e =>
        rw [others] at rest
        exact rest
      | ok cmds =>
        rw [others] at rest
        exact .cons first rest

/-- A program whose operations have a place is scheduled on the slots of its layout. -/
theorem build_renders (valid : q.Valid d) (built : Layout.build q q.liveNodes = .ok l)
    (settled : ∀ n ∈ q.liveNodes, c.settled n.op n.place) (slotted : ∀ n ∈ q.liveNodes, l.Slotted n)
    (slots : ∀ v, v ∈ q.inputs ∨ v ∈ q.roots → (l.slot v).isSome) (report : List PassReport) :
    match Schedule.build c q report with
    | .ok s => s.program = q ∧ s.Renders c l
    | .error _ => c.kernels ≠ .host := by
  have rootSlots : ∀ v ∈ q.roots, (l.slot v).isSome := fun v root => slots v (.inr root)
  obtain ⟨roots, atRoots⟩ := Layout.sites_of_slots rootSlots
  have rootList := mapM_eq_ok.mp atRoots
  have outputSlots : ∀ v ∈ q.outputs, (l.slot v).isSome := fun v member =>
    rootSlots v (List.mem_append_left _ member)
  obtain ⟨outputs, atOutputs⟩ := Layout.sites_of_slots outputSlots
  obtain ⟨inputs, atInputs⟩ : ∃ inputs, q.inputs.mapM
      (fun v => (do return (← l.site v, ← q.graph.ty v) : Except Error (Site × Ty))) = .ok inputs := by
    have each : ∀ v ∈ q.inputs, ∃ e, (do return (← l.site v, ← q.graph.ty v) :
        Except Error (Site × Ty)) = .ok e := by
      intro v member
      obtain ⟨x, atV, -⟩ := valid.inputs v member
      obtain ⟨site, here⟩ := Layout.site_of_slot (slots v (.inl member))
      exact ⟨(site, x.ty), by simp only [here, Graph.ty_eq_ok.mpr ⟨x, atV, rfl⟩, ok_bind, pure_eq]⟩
    exact exists_mapM_ok each
  obtain ⟨updates, atUpdates⟩ : ∃ updates, q.updates.mapM (update q.graph l) = .ok updates := by
    have each : ∀ u ∈ q.updates, ∃ e, update q.graph l u = .ok e := by
      intro u member
      obtain ⟨x, y, cell, atTarget, -, origin, -⟩ := valid.updates u member
      have root : u.2 ∈ q.roots := List.mem_append_right _ (List.mem_map_of_mem member)
      obtain ⟨site, here⟩ := Layout.site_of_slot (rootSlots _ root)
      exact ⟨(cell, site), by
        simp only [update, Graph.var_eq_ok.mpr atTarget, ok_bind, Var.cell?, origin, here, pure_eq]⟩
    exact exists_mapM_ok each
  have commands := commands_meet valid fun n live => ⟨live, settled n live, slotted n live⟩
  unfold Schedule.build
  simp only [valid.order_eq, built, atRoots, ok_bind]
  cases ran : q.liveNodes.mapM (command c q.graph l) with
  | error e =>
    rw [ran] at commands
    exact commands
  | ok cmds =>
    rw [ran] at commands
    simp only [ok_bind, atInputs, atOutputs, atUpdates]
    refine ⟨rfl, commands, ?_, mem_leaves, mem_leaves, ?_, ?_, rfl, ?_⟩
    · refine (mapM_eq_ok.mp atInputs).imp fun v e found => ?_
      obtain ⟨site, here, rest⟩ := bind_eq_ok.mp found
      obtain ⟨t, known, whole⟩ := bind_eq_ok.mp rest
      cases whole
      obtain ⟨x, atV, same⟩ := Graph.ty_eq_ok.mp known
      exact ⟨Layout.site_eq_ok.mp here, x, atV, same.symm⟩
    · exact (mapM_eq_ok.mp atOutputs).imp fun v x found => Layout.site_eq_ok.mp found
    · refine (mapM_eq_ok.mp atUpdates).imp fun u e found => ?_
      obtain ⟨x, atTarget, rest⟩ := bind_eq_ok.mp found
      cases cell : x.cell? with
      | none => simp [cell] at rest
      | some cell' =>
        simp only [cell] at rest
        obtain ⟨site, here, whole⟩ := bind_eq_ok.mp rest
        cases whole
        exact ⟨Layout.site_eq_ok.mp here, x, Graph.var_eq_ok.mp atTarget, cell⟩
    · -- The sites of the roots are those of the outputs and of the new values.
      have whole : List.Forall₂ l.At q.roots (outputs ++ updates.map Prod.snd) := by
        refine List.rel_append ((mapM_eq_ok.mp atOutputs).imp fun v x found => Layout.site_eq_ok.mp found) ?_
        rw [List.forall₂_map_left_iff, List.forall₂_map_right_iff]
        refine (mapM_eq_ok.mp atUpdates).imp fun u e found => ?_
        obtain ⟨x, atTarget, rest⟩ := bind_eq_ok.mp found
        cases cell : x.cell? with
        | none => simp [cell] at rest
        | some cell' =>
          simp only [cell] at rest
          obtain ⟨site, here, whole⟩ := bind_eq_ok.mp rest
          cases whole
          exact Layout.site_eq_ok.mp here
      have same : roots = outputs ++ updates.map Prod.snd :=
        Except.ok.inj (atRoots.symm.trans (mapM_eq_ok.mpr (whole.imp fun v x at_ => Layout.site_eq_ok.mpr at_)))
      rw [same]
      rfl

/-- The schedule of a program whose marks are safe lays it out. -/
theorem build_meets (valid : q.Valid (.marked c.target scope)) (safely : q.OverwritesSafely)
    (report : List PassReport) :
    match Schedule.build c q report with
    | .ok s => s.program = q ∧ ∃ l, s.LaidOut c scope l
    | .error _ => ¬ c.Plain := by
  obtain ⟨l, built, fair, slotted, slots⟩ := Layout.build_fair valid safely
  have settled : ∀ n ∈ q.liveNodes, c.settled n.op n.place := by
    intro n live
    obtain ⟨tys, ty, y, known⟩ := valid.operation live
    obtain ⟨⟨-, loc, place, there, -⟩, -⟩ := known.rule
    exact ⟨loc, place, there⟩
  have met := build_renders valid built settled slotted slots report
  cases ran : Schedule.build c q report with
  | error e =>
    rw [ran] at met
    exact fun plain => met plain.kernels
  | ok s =>
    rw [ran] at met
    obtain ⟨rfl, renders⟩ := met
    exact ⟨rfl, l, { renders with valid, safely, fair, slotted }⟩

end Build

/-- A value is there after some commands: it was bound at the start, or one of them made it. -/
def There (s : Schedule) (done : List Command) (v : VarId) : Prop :=
  (∃ x ∈ s.leafSites, x.var = v) ∨ ∃ cmd ∈ done, cmd.output.var = v

/-- A value is read by one of some commands, or after the last one. -/
def Needed (s : Schedule) (rest : List Command) (x : Site) : Prop :=
  x ∈ s.rootSites ∨ ∃ cmd ∈ rest, x ∈ cmd.inputs

theorem There.mono {s : Schedule} {done done' : List Command} {v : VarId} (there : s.There done v)
    (more : done ⊆ done') : s.There done' v :=
  there.imp_right fun ⟨cmd, member, output⟩ => ⟨cmd, more member, output⟩

/-- What is there after a command and is not its output was there before. -/
theorem There.before {s : Schedule} {done : List Command} {cmd : Command} {v : VarId}
    (there : s.There (done ++ [cmd]) v) (other : v ≠ cmd.output.var) : s.There done v := by
  rcases there with leaf | ⟨cmd', member, output⟩
  · exact .inl leaf
  rcases List.mem_append.mp member with earlier | last
  · exact .inr ⟨cmd', earlier, output⟩
  · rw [List.mem_singleton.mp last] at output
    exact absurd output.symm other

theorem Needed.mono {s : Schedule} {rest rest' : List Command} {x : Site} (needed : s.Needed rest x)
    (more : rest ⊆ rest') : s.Needed rest' x :=
  needed.imp_right fun ⟨cmd, member, reads⟩ => ⟨cmd, more member, reads⟩

namespace LaidOut

variable {s : Schedule} {c : Context} {scope : Scope} {l : Layout}

theorem roots (laid : s.LaidOut c scope l) : List.Forall₂ l.At s.program.roots s.rootSites := by
  refine List.rel_append laid.outputs ?_
  rw [List.forall₂_map_left_iff, List.forall₂_map_right_iff]
  exact laid.updates.imp fun _ _ known => known.1

/-- The persistent values that are written, in the order of the updates. -/
theorem update_cells (laid : s.LaidOut c scope l) :
    s.program.updates.map (fun u => s.program.cellOf u.1) = (s.updates.map Prod.fst).map some := by
  rw [List.map_map, ← List.forall₂_eq_eq_eq, List.forall₂_map_left_iff, List.forall₂_map_right_iff]
  refine laid.updates.imp fun u e ⟨_, y, atTarget, cell⟩ => ?_
  rw [Program.cellOf, atTarget]
  exact cell

theorem update_vars (laid : s.LaidOut c scope l) : s.program.updates.map Prod.snd = s.updates.map fun e => e.2.var := by
  rw [← List.forall₂_eq_eq_eq, List.forall₂_map_left_iff, List.forall₂_map_right_iff]
  exact laid.updates.imp fun _ _ known => known.1.1.symm

theorem node (laid : s.LaidOut c scope l) {cmd : Command} (member : cmd ∈ s.commands) :
    ∃ n ∈ s.program.liveNodes, cmd.Does c s.program.graph l n := partner_of laid.commands member

theorem reads_sited (laid : s.LaidOut c scope l) {cmd : Command} (member : cmd ∈ s.commands) {x : Site}
    (reads : x ∈ cmd.inputs) : l.slot x.var = some x.slot := by
  obtain ⟨n, -, does⟩ := laid.node member
  obtain ⟨v, -, rfl, slot⟩ := partner_of does.inputs reads
  exact slot

theorem output_sited (laid : s.LaidOut c scope l) {cmd : Command} (member : cmd ∈ s.commands) :
    l.slot cmd.output.var = some cmd.output.slot := by
  obtain ⟨n, -, does⟩ := laid.node member
  obtain ⟨same, slot⟩ := does.output
  rw [same]
  exact slot

theorem root_sited (laid : s.LaidOut c scope l) {x : Site} (root : x ∈ s.rootSites) :
    x.var ∈ s.program.roots ∧ l.slot x.var = some x.slot := by
  obtain ⟨v, member, rfl, slot⟩ := partner_of laid.roots root
  exact ⟨member, slot⟩

/-- The sites of leaves are of leaves on the host, and of all that have a slot. -/
theorem mem_leafSites (laid : s.LaidOut c scope l) {x : Site} : x ∈ s.leafSites ↔
    ∃ y, s.program.graph.vars[x.var]? = some y ∧ y.isLeaf ∧ l.slot x.var = some x.slot ∧
      (y.isInput → x.var ∈ s.program.inputs) := by
  unfold leafSites
  rw [List.mem_append, List.mem_append, or_assoc]
  constructor
  · rintro (input | constant | shared)
    · obtain ⟨e, member, rfl⟩ := List.mem_map.mp input
      obtain ⟨v, inInputs, ⟨same, slot⟩, -⟩ := partner_of laid.inputs member
      obtain ⟨y, atV, origin⟩ := laid.valid.inputs v inInputs
      rw [same]
      exact ⟨y, atV, by simp [Var.isLeaf, origin], slot, fun _ => inInputs⟩
    · obtain ⟨⟨x', t⟩, member, rfl⟩ := List.mem_map.mp constant
      obtain ⟨y, atV, slot, found⟩ := laid.constants.mp member
      refine ⟨y, atV, ?_, slot, ?_⟩ <;> cases origin : y.origin <;>
        simp [Var.constant?, origin, Var.isLeaf, Var.isInput] at found ⊢
    · obtain ⟨⟨x', cell⟩, member, rfl⟩ := List.mem_map.mp shared
      obtain ⟨y, atV, slot, found⟩ := laid.cells.mp member
      refine ⟨y, atV, ?_, slot, ?_⟩ <;> cases origin : y.origin <;>
        simp [Var.cell?, origin, Var.isLeaf, Var.isInput] at found ⊢
  · rintro ⟨y, atV, isLeaf, slot, bound⟩
    cases origin : y.origin with
    | output i => simp [Var.isLeaf, origin] at isLeaf
    | input =>
      obtain ⟨e, member, ⟨same, slot'⟩, -⟩ :=
        partner laid.inputs (bound (by simp [Var.isInput, origin]))
      exact .inl (List.mem_map.mpr ⟨e, member, Layout.At.unique ⟨same, slot'⟩ ⟨rfl, slot⟩⟩)
    | constant t =>
      refine .inr (.inl (List.mem_map.mpr ⟨(x, t), laid.constants.mpr ⟨y, atV, slot, ?_⟩, rfl⟩))
      simp [Var.constant?, origin]
    | shared cell =>
      refine .inr (.inr (List.mem_map.mpr ⟨(x, cell), laid.cells.mpr ⟨y, atV, slot, ?_⟩, rfl⟩))
      simp [Var.cell?, origin]

/-- No operation makes a leaf. -/
theorem not_made (laid : s.LaidOut c scope l) {x : Site} (leaf : x ∈ s.leafSites) {i : NodeId} {n : Node}
    (at_ : s.program.graph.nodes[i]? = some n) : n.output ≠ x.var := by
  intro same
  obtain ⟨y, atV, isLeaf, -⟩ := laid.mem_leafSites.mp leaf
  obtain ⟨z, atOutput, origin⟩ := (laid.valid.graph.node at_).output
  obtain rfl : y = z := Option.some.inj (atV.symm.trans (same ▸ atOutput))
  simp [Var.isLeaf, origin] at isLeaf

/-- What is needed is in the slot of its variable. -/
theorem needed_sited (laid : s.LaidOut c scope l) {rest : List Command} (later : rest ⊆ s.commands) {x : Site}
    (needed : s.Needed rest x) : l.slot x.var = some x.slot := by
  rcases needed with root | ⟨cmd, inRest, reads⟩
  · exact (laid.root_sited root).2
  · exact laid.reads_sited (later inRest) reads

/-- A variable that is wanted and has a slot is a leaf that is bound, or made by an operation. -/
theorem leaf_or_made (laid : s.LaidOut c scope l) {v : VarId} {slot : SlotId}
    (at_ : l.slot v = some slot) (inRange : v < s.program.graph.vars.size)
    (wanted : v ∈ s.program.roots ∨ ∃ n ∈ s.program.liveNodes, v ∈ n.inputs) :
    (∃ x ∈ s.leafSites, x.var = v) ∨ ∃ n : Node, s.program.graph.producer? v = some n := by
  have atV := Array.getElem?_eq_getElem inRange
  rcases laid.valid.graph.leaf_or_output atV with isLeaf | ⟨i, n, atI, rfl⟩
  · exact .inl ⟨⟨v, slot⟩, laid.mem_leafSites.mpr
      ⟨_, atV, isLeaf, at_, laid.valid.bound wanted atV⟩, rfl⟩
  · exact .inr ⟨n, laid.valid.graph.producer?_output atI⟩

section Position

variable {done rest : List Command} {cmd : Command}

/-- What a command reads is there when it runs. -/
theorem ready (laid : s.LaidOut c scope l) (split : s.commands = done ++ cmd :: rest) {x : Site}
    (reads : x ∈ cmd.inputs) : s.There done x.var := by
  have each := laid.commands
  rw [split] at each
  obtain ⟨before, n, after, whole, front, does, -⟩ := forall₂_split each
  have live : n ∈ s.program.liveNodes := by
    rw [whole]
    simp
  obtain ⟨v, member, same, slot⟩ := partner_of does.inputs reads
  rw [same]
  obtain ⟨tys, ty, y, known⟩ := laid.valid.operation live
  rcases laid.leaf_or_made slot (known.types.inRange v member) (.inr ⟨n, live, member⟩) with
    leaf | ⟨m, produced⟩
  · exact .inl leaf
  · obtain ⟨-, rfl⟩ := laid.valid.graph.of_producer? produced
    obtain ⟨cmd', inDone, does'⟩ := partner front (laid.valid.graph.live_before whole member produced)
    exact .inr ⟨cmd', inDone, does'.output.1⟩

/-- What is read after the last command is there then. -/
theorem root_ready (laid : s.LaidOut c scope l) {x : Site} (root : x ∈ s.rootSites) :
    s.There s.commands x.var := by
  obtain ⟨member, slot⟩ := laid.root_sited root
  rcases laid.leaf_or_made slot (laid.valid.roots _ member) (.inl member) with leaf | ⟨m, produced⟩
  · exact .inl leaf
  · obtain ⟨-, output⟩ := laid.valid.graph.of_producer? produced
    obtain ⟨cmd, inCommands, does⟩ :=
      partner laid.commands (laid.valid.graph.root_producer member produced)
    exact .inr ⟨cmd, inCommands, does.output.1.trans output⟩

/-- A command makes a variable that is neither a leaf nor made before. -/
theorem fresh (laid : s.LaidOut c scope l) (split : s.commands = done ++ cmd :: rest) :
    ¬ s.There done cmd.output.var := by
  have each := laid.commands
  rw [split] at each
  obtain ⟨before, n, after, whole, front, does, -⟩ := forall₂_split each
  have live : n ∈ s.program.liveNodes := by
    rw [whole]
    simp
  rw [does.output.1]
  rintro (⟨x, leaf, same⟩ | ⟨cmd', inDone, same⟩)
  · exact laid.not_made leaf (laid.valid.graph.live_mem live) same.symm
  · obtain ⟨m, inBefore, does'⟩ := partner_of front inDone
    have less := laid.valid.graph.live_earlier whole m inBefore
    rw [← does'.output.1, same] at less
    exact Nat.lt_irrefl _ less

/-- No other command makes the variable that a command makes. -/
theorem makes_alone (laid : s.LaidOut c scope l) (split : s.commands = done ++ cmd :: rest) {cmd' : Command}
    (other : cmd' ∈ done ++ rest) : cmd'.output.var ≠ cmd.output.var := by
  intro same
  rcases List.mem_append.mp other with before | after
  · exact laid.fresh split (.inr ⟨cmd', before, same⟩)
  · obtain ⟨front, back, within⟩ := List.append_of_mem after
    have split' : s.commands = (done ++ cmd :: front) ++ cmd' :: back := by
      rw [split, within]
      simp
    exact laid.fresh split' (.inr ⟨cmd, by simp, same.symm⟩)

/-- Commands that make one variable are one command. -/
theorem eq_of_output (laid : s.LaidOut c scope l) {cmd cmd' : Command} (member : cmd ∈ s.commands)
    (member' : cmd' ∈ s.commands) (same : cmd'.output.var = cmd.output.var) : cmd' = cmd := by
  obtain ⟨done, rest, split⟩ := List.append_of_mem member
  rw [split, List.mem_append, List.mem_cons] at member'
  by_contra other
  refine laid.makes_alone split (List.mem_append.mpr ?_) same
  exact member'.imp_right fun later => later.resolve_left other

/-- A command makes something that is needed. -/
theorem wanted (laid : s.LaidOut c scope l) (split : s.commands = done ++ cmd :: rest) :
    s.Needed rest cmd.output := by
  have each := laid.commands
  rw [split] at each
  obtain ⟨before, n, after, whole, -, does, back⟩ := forall₂_split each
  rcases laid.valid.graph.live_wanted whole with root | ⟨m, inAfter, reads⟩
  · obtain ⟨x, member, at_⟩ := partner laid.roots root
    exact .inl (at_.unique does.output ▸ member)
  · obtain ⟨cmd', inRest, does'⟩ := partner back inAfter
    obtain ⟨x, member, at_⟩ := partner does'.inputs reads
    exact .inr ⟨cmd', inRest, at_.unique does.output ▸ member⟩

/-- Who is there was made by an operation that is done, or is a leaf. -/
theorem made_before (laid : s.LaidOut c scope l) {before after : List Node}
    (whole : s.program.liveNodes = before ++ after)
    (front : List.Forall₂ (fun n cmd => cmd.Does c s.program.graph l n) before done) {m : Node}
    (live : m ∈ s.program.liveNodes) (there : s.There done m.output) : m ∈ before := by
  have atM := laid.valid.graph.live_mem live
  rcases there with ⟨y, leaf, same⟩ | ⟨cmd', member, same⟩
  · exact absurd same.symm (laid.not_made leaf atM)
  · obtain ⟨k, inFront, does⟩ := partner_of front member
    have liveK : k ∈ s.program.liveNodes := whole ▸ List.mem_append_left _ inFront
    have atK := laid.valid.graph.live_mem liveK
    have outputs : k.output = m.output := by rw [← same, does.output.1]
    rw [laid.valid.graph.eq_of_output atK atM outputs, atM] at atK
    rw [Option.some.inj atK]
    exact inFront

/-- What is there and still needed is in the slot that a command writes only if it is the output. -/
theorem spared (laid : s.LaidOut c scope l) (split : s.commands = done ++ cmd :: rest) {x : Site}
    (there : s.There (done ++ [cmd]) x.var) (needed : s.Needed rest x)
    (same : x.slot = cmd.output.slot) : x = cmd.output := by
  have later : rest ⊆ s.commands := by
    rw [split]
    exact fun _ member => List.mem_append_right _ (List.mem_cons_of_mem _ member)
  have each := laid.commands
  rw [split] at each
  obtain ⟨before, n, after, whole, front, does, back⟩ := forall₂_split each
  have atX := laid.needed_sited later needed
  suffices equal : x.var = n.output from Layout.At.unique ⟨equal, equal ▸ atX⟩ does.output
  refine laid.fair.spared laid.valid laid.safely whole (atX.trans (congrArg some same)) does.output.2 ?_ ?_
  · intro k live made
    have upTo : List.Forall₂ (fun n cmd => cmd.Does c s.program.graph l n) (before ++ [n]) (done ++ [cmd]) :=
      List.rel_append front (.cons does .nil)
    have through : s.program.liveNodes = (before ++ [n]) ++ after := by simp [whole]
    exact laid.made_before through upTo live (made ▸ there)
  · rcases needed with root | ⟨cmd', inRest, reads⟩
    · exact .inl (laid.root_sited root).1
    · obtain ⟨m, inAfter, does'⟩ := partner_of back inRest
      obtain ⟨v, member, rfl, -⟩ := partner_of does'.inputs reads
      exact .inr ⟨m, inAfter, member⟩

/-- What is there before a command and needed after it is not in the slot that the command writes. -/
theorem elsewhere (laid : s.LaidOut c scope l) (split : s.commands = done ++ cmd :: rest) {x : Site}
    (there : s.There done x.var) (needed : s.Needed rest x) : x.slot ≠ cmd.output.slot := by
  intro same
  have equal := laid.spared split (there.mono (List.subset_append_left _ _)) needed same
  exact laid.fresh split (equal ▸ there)

/-- Two values that are there and still needed are not in one slot. -/
theorem apart (laid : s.LaidOut c scope l) (split : s.commands = done ++ rest) {x y : Site}
    (thereX : s.There done x.var) (thereY : s.There done y.var) (neededX : s.Needed rest x)
    (neededY : s.Needed rest y) (same : x.slot = y.slot) : x.var = y.var := by
  have each := laid.commands
  rw [split] at each
  obtain ⟨before, after, whole, front, back⟩ := forall₂_cut each
  have sited : ∀ {z : Site}, s.Needed rest z → l.slot z.var = some z.slot := fun needed =>
    laid.needed_sited (split ▸ List.subset_append_right _ _) needed
  have sorted : s.program.liveNodes.Pairwise fun a b => a.output < b.output := laid.valid.graph.live_sorted
  rw [whole] at sorted
  -- The first of the two was overwritten on the way to the second one, which is there.
  have chained : ∀ {u w : Site}, s.There done w.var → s.Needed rest u →
      ¬ TransGen s.program.Overwrites u.var w.var := by
    intro u w thereW neededU chain
    obtain ⟨v, ⟨m, live, i, marked, atI, rfl⟩, further⟩ := TransGen.head'_iff.mp chain
    obtain ⟨v, atV, spares⟩ := laid.safely m live i marked
    obtain rfl : u.var = v := Option.some.inj (atI.symm.trans atV)
    obtain ⟨-, -, k, liveK, -, -, -, output⟩ := TransGen.tail'_iff.mp chain
    have inBefore : k ∈ before := laid.made_before whole front liveK (output ▸ thereW)
    have upTo : m.output ≤ k.output := by
      rw [output]
      rcases reflTransGen_iff_eq_or_transGen.mp further with last | more
      · exact Nat.le_of_eq last.symm
      · exact Nat.le_of_lt (Program.overwrites_trans_lt laid.valid more)
    rcases neededU with root | ⟨cmd', inRest, reads⟩
    · exact spares.root (laid.root_sited root).1
    · obtain ⟨n, inAfter, does⟩ := partner_of back inRest
      obtain ⟨v, member, rfl, -⟩ := partner_of does.inputs reads
      refine spares.last n (whole ▸ List.mem_append_right _ inAfter) ?_ member
      exact Nat.lt_of_le_of_lt upTo ((List.pairwise_append.mp sorted).2.2 k inBefore n inAfter)
  rcases laid.fair.shared (sited neededX) ((sited neededY).trans (congrArg some same.symm)) with
    equal | overwrites | overwrites
  · exact equal
  · exact absurd overwrites (chained thereY neededX)
  · exact absurd overwrites (chained thereX neededY)

/-- An operand in the slot that a command writes is the one that the command overwrites. -/
theorem own_slot (laid : s.LaidOut c scope l) (split : s.commands = done ++ cmd :: rest) {x : Site}
    (reads : x ∈ cmd.inputs) (same : x.slot = cmd.output.slot) :
    ∃ i, cmd.inPlace = some i ∧ cmd.inputs[i]? = some x := by
  have member : cmd ∈ s.commands := by
    rw [split]
    simp
  obtain ⟨n, live, does⟩ := laid.node member
  have known := laid.valid.graph.node (laid.valid.graph.live_mem live)
  obtain ⟨v, inInputs, sameVar, slot⟩ := partner_of does.inputs reads
  obtain ⟨output, atOutput⟩ := does.output
  have less : v < n.output := known.reads v inInputs
  -- Whoever made the output over something is the command itself.
  obtain ⟨i, marked⟩ : ∃ i, n.inPlace = some i := by
    rcases laid.fair.shared slot (atOutput.trans (congrArg some same.symm)) with equal | overwrites | overwrites
    · exact absurd less (equal ▸ Nat.lt_irrefl _)
    · obtain ⟨-, -, m, liveM, i, marked, -, made⟩ := TransGen.tail'_iff.mp overwrites
      have atM := laid.valid.graph.live_mem liveM
      have atN := laid.valid.graph.live_mem live
      rw [laid.valid.graph.eq_of_output atM atN made, atN] at atM
      rw [Option.some.inj atM]
      exact ⟨i, marked⟩
    · exact absurd (Program.overwrites_trans_lt laid.valid overwrites) (Nat.lt_asymm less)
  obtain ⟨u, atI, -⟩ := laid.safely n live i marked
  obtain ⟨y, atY, -, slotY⟩ := forall₂_getElem? does.inputs atI
  have readsY := List.mem_of_getElem? atY
  have slots : l.slot n.output = l.slot u := (laid.slotted n live).inPlace marked atI
  have sameY : x.slot = y.slot := by
    rw [atOutput, slotY, Option.some.injEq] at slots
    exact same.trans slots
  have equal := laid.apart split (laid.ready split reads) (laid.ready split readsY)
    (.inr ⟨cmd, by simp, reads⟩) (.inr ⟨cmd, by simp, readsY⟩) sameY
  have whole : x = y := by
    rcases x with ⟨xVar, xSlot⟩
    rcases y with ⟨yVar, ySlot⟩
    obtain rfl : xVar = yVar := equal
    obtain rfl : xSlot = ySlot := sameY
    rfl
  exact ⟨i, does.inPlace.trans marked, whole ▸ atY⟩

end Position

/-- The slot of a leaf is for the leaf only. -/
theorem leaf_alone (laid : s.LaidOut c scope l) {x : Site} (leaf : x ∈ s.leafSites) {v : VarId}
    (at_ : l.slot v = some x.slot) : v = x.var := by
  obtain ⟨y, atV, isLeaf, slot, -⟩ := laid.mem_leafSites.mp leaf
  have notMade : ∀ n ∈ s.program.liveNodes, n.output ≠ x.var := fun n live =>
    laid.not_made leaf (laid.valid.graph.live_mem live)
  refine laid.fair.alone slot at_ ?_ ?_
  · rintro u ⟨n, live, i, marked, atI, -⟩
    obtain ⟨w, atW, spares⟩ := laid.safely n live i marked
    obtain rfl := Option.some.inj (atI.symm.trans atW)
    obtain ⟨m, produced, -⟩ := spares.producer
    have reads := List.mem_of_getElem? atI
    refine notMade m (laid.valid.graph.live_producer live reads produced) ?_
    exact (laid.valid.graph.of_producer? produced).2
  · rintro u ⟨n, live, i, -, -, output⟩
    exact notMade n live output

/-- The slot of an upload that is kept is for the upload only. -/
theorem kept_alone (laid : s.LaidOut c scope l) {cmd : Command} (member : cmd ∈ s.commands)
    (kept : cmd.isKept) {v : VarId} (at_ : l.slot v = some cmd.output.slot) : v = cmd.output.var := by
  obtain ⟨n, live, does⟩ := laid.node member
  obtain ⟨output, slot⟩ := does.output
  have upload : InPlace.isUpload s.program.graph n := by
    have work := does.work
    unfold Command.isKept at kept
    cases run : cmd.work with
    | transfer b =>
      rw [run] at work kept
      exact (work.2 kept).1
    | launch kernel =>
      rw [run] at kept
      cases kept
  have moves : n.op.isTransfer := by
    unfold InPlace.isUpload at upload
    rw [Bool.and_eq_true] at upload
    exact upload.1
  rw [output]
  refine laid.fair.alone slot at_ ?_ ?_
  · rintro u ⟨m, liveM, i, marked, atI, -⟩
    obtain ⟨w, atW, spares⟩ := laid.safely m liveM i marked
    obtain rfl := Option.some.inj (atI.symm.trans atW)
    obtain ⟨n', produced, notUpload⟩ := spares.producer
    obtain rfl : n = n' := Option.some.inj
      ((laid.valid.graph.producer?_output (laid.valid.graph.live_mem live)).symm.trans produced)
    rw [upload] at notUpload
    cases notUpload
  · rintro u ⟨m, liveM, i, marked, -, same⟩
    have atM := laid.valid.graph.live_mem liveM
    have atN := laid.valid.graph.live_mem live
    rw [laid.valid.graph.eq_of_output atM atN same, atN] at atM
    obtain rfl := Option.some.inj atM
    obtain ⟨tys, ty, y, known⟩ := laid.valid.operation live
    exact (known.rule.2 i marked).1 moves

/-- The reads of a slot are counted. -/
theorem reads_at (laid : s.LaidOut c scope l) (slot : SlotId) :
    s.reads.getD slot 0 = readsOf s.commands slot := by
  rw [laid.reads]
  by_cases inside : slot < l.count
  · simp [inside]
  · have none : readsOf s.commands slot = 0 := by
      unfold readsOf
      rw [List.countP_eq_zero]
      intro x member same
      obtain ⟨cmd, inCommands, reads⟩ := List.mem_flatMap.mp member
      have at_ := laid.fair.inRange (laid.reads_sited inCommands reads)
      rw [beq_iff_eq] at same
      exact inside (same ▸ at_)
    rw [none]
    simp [inside]

theorem slotCount_eq (laid : s.LaidOut c scope l) : s.slotCount = l.count := by
  unfold slotCount
  rw [laid.reads]
  simp

theorem pinned_at (laid : s.LaidOut c scope l) {slot : SlotId} (inside : slot < l.count) :
    s.pinned.getD slot false = isPinned s.rootSites s.commands slot := by
  rw [laid.pinned]
  simp [inside]

theorem root_pinned (laid : s.LaidOut c scope l) {x : Site} (root : x ∈ s.rootSites) :
    s.pinned.getD x.slot false = true := by
  rw [laid.pinned_at (laid.fair.inRange (laid.root_sited root).2)]
  unfold isPinned
  rw [Bool.or_eq_true]
  exact .inl (List.any_eq_true.mpr ⟨x, root, by simp⟩)

theorem kept_pinned (laid : s.LaidOut c scope l) {cmd : Command} (member : cmd ∈ s.commands)
    (kept : cmd.isKept) : s.pinned.getD cmd.output.slot false = true := by
  rw [laid.pinned_at (laid.fair.inRange (laid.output_sited member))]
  unfold isPinned
  rw [Bool.or_eq_true]
  exact .inr (List.any_eq_true.mpr ⟨cmd, member, by simp [kept]⟩)

end LaidOut

end Schedule

end TensorGraph
