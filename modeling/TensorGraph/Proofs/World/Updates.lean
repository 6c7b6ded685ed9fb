import TensorGraph.Proofs.Program.Accepted
import TensorGraph.Proofs.World.Calls
import TensorGraph.Proofs.World.Host

/-! Which new value a persistent value is left with. A program is checked for variables that are the target of two
updates, not for persistent values that are behind two variables, so updates may follow each other on one value. -/
namespace TensorGraph

open Checked TensorGraph.Action

section

variable [BlockRoutine]

namespace Course

variable {r : Course}

theorem written_size (us : List (Cell × Site)) (cells : Array Tensor) : (r.written us cells).size = cells.size := by
  induction us generalizing cells with
  | nil => rfl
  | cons u us ih =>
    rw [written, List.foldl_cons, ← written, ih]
    split
    · exact Array.size_setIfInBounds
    · rfl

/-- Of several updates of a persistent value the last one stays. -/
theorem written_last {before after : List (Cell × Site)} {u : Cell × Site} (last : ∀ e ∈ after, e.1.id ≠ u.1.id)
    {t : Tensor} (value : r.value u.2.var = some t) {cells : Array Tensor} (inRange : u.1.id < cells.size) :
    (r.written (before ++ u :: after) cells)[u.1.id]? = some t := by
  have inTurn : r.written (before ++ u :: after) cells =
      r.written after ((r.written before cells).setIfInBounds u.1.id t) := by
    simp only [written, List.foldl_append, List.foldl_cons, value]
  rw [inTurn, written_other last]
  exact Array.getElem?_setIfInBounds_self_of_lt (by rwa [written_size])

end Course

/-- The persistent value that an update goes to is not the target of a later one. -/
def Program.Last (p : Program) (i : Nat) (c : Cell) : Prop :=
  ∀ j u, i < j → p.updates[j]? = some u → p.cellOf u.1 ≠ some c

/-- Different targets are different persistent values. -/
def Program.Apart (p : Program) : Prop :=
  ∀ u ∈ p.updates, ∀ u' ∈ p.updates, p.cellOf u.1 = p.cellOf u'.1 → u.1 = u'.1

omit [BlockRoutine] in
theorem Program.Apart.last {p : Program} (apart : p.Apart) (targets : (p.updates.map Prod.fst).Nodup) {i : Nat}
    {u : VarId × VarId} {c : Cell} (at_ : p.updates[i]? = some u) (cell : p.cellOf u.1 = some c) : p.Last i c := by
  intro j u' later at' cell'
  have same := apart u (List.mem_of_getElem? at_) u' (List.mem_of_getElem? at') (cell.trans cell'.symm)
  have here : (p.updates.map Prod.fst)[i]? = some u.1 := by simp [at_]
  have there : (p.updates.map Prod.fst)[j]? = some u.1 := by simp [at', same]
  have inRange := (List.getElem?_eq_some_iff.mp here).1
  exact Nat.ne_of_lt later ((List.Nodup.getElem_inj_iff targets).mp
    ((List.getElem?_eq_some_iff.mp here).2.trans (List.getElem?_eq_some_iff.mp there).2.symm))

namespace Executable

/-- A call has written the value of an update of the source, as the compiled program computes it. -/
def Wrote (f : Executable) (p : Program) (inputs : List Tensor) (m m' : Machine) (u v : VarId × VarId) : Prop :=
  ∃ c t, p.cellOf u.1 = some c ∧ (f.course inputs m).value v.2 = some t ∧ m'.cells[c.id]? = some t

/-- What a call that succeeds leaves in the targets of the updates. -/
structure UpdatesInTurn (f : Executable) (p : Program) (inputs : List Tensor) (m m' : Machine) : Prop where
  /-- No variable is the target of two updates. -/
  targets : (p.updates.map Prod.fst).Nodup
  /-- An update that is the last one of its persistent value has written its own value. -/
  last : ∀ {i : Nat} {u : VarId × VarId} {c : Cell}, p.updates[i]? = some u → p.cellOf u.1 = some c → p.Last i c →
    ∃ v, f.schedule.program.updates[i]? = some v ∧ f.Wrote p inputs m m' u v
  /-- When different targets are different persistent values, every update has. -/
  own : p.Apart → List.Forall₂ (f.Wrote p inputs m m') p.updates f.schedule.program.updates

end Executable

namespace World

variable {faultless : Prop} {w : World} {m : Machine} {before after : List Executable} {f g : Executable}
  {inputs : List Tensor} {p : Program} {borrow : Bool} {os : List Output}

/-- An executable has the updates of its source, on persistent values that were made. -/
structure Updating (w : World) (f : Executable) (p : Program) : Prop where
  targets : List.Forall₂ (fun u (e : Cell × Site) => p.cellOf u.1 = some e.1) p.updates f.schedule.updates
  values : List.Forall₂ (fun (e : Cell × Site) v => e.2.var = v.2) f.schedule.updates f.schedule.program.updates
  made : ∀ e ∈ f.schedule.updates, e.1 ∈ w.cells

theorem Good.updating (good : Good faultless w) (member : f ∈ w.executables) (fresh : w.Fresh p)
    (compiled : p.schedule f.context = .ok f.schedule) (accepts : f.Accepts inputs) : w.Updating f p := by
  obtain ⟨scope, l, known, fits⟩ := good.fits member inputs
  have fits := fits accepts
  exact ⟨targets_of_source fresh fits.honest compiled fits.laid, fits.laid.updates.flip.imp fun _ _ held => held.1.1,
    fun e isUpdate => known _ (fits.update_cell isUpdate)⟩

/-- A later update of the same persistent value would come from one of the source. -/
theorem Updating.last {w : World} (updating : w.Updating f p) (good : Good faultless w) {i : Nat} {e : Cell × Site}
    (at_ : f.schedule.updates[i]? = some e) (isLast : p.Last i e.1) :
    ∀ e' ∈ f.schedule.updates.drop (i + 1), e'.1.id ≠ e.1.id := by
  intro e' later same
  obtain ⟨k, atK⟩ := List.mem_iff_getElem?.mp later
  rw [List.getElem?_drop] at atK
  obtain ⟨u, inSource, cell⟩ := forall₂_getElem? updating.targets.flip atK
  have equal := good.numbered _ (updating.made e' (List.mem_of_getElem? atK)) _
    (updating.made e (List.mem_of_getElem? at_)) same
  exact isLast _ u (by omega) inSource (equal ▸ cell)

/-- The new value of the last update of a persistent value stays. -/
theorem Updating.wrote {w : World} (updating : w.Updating f p) (good : Good faultless w)
    (values : ∀ e ∈ f.schedule.updates, ((f.course inputs w.machine).value e.2.var).isSome)
    (cells : m.cells = (f.course inputs w.machine).after) {i : Nat} {u : VarId × VarId} {c : Cell}
    (at_ : p.updates[i]? = some u) (cell : p.cellOf u.1 = some c) (isLast : p.Last i c) :
    ∃ v, f.schedule.program.updates[i]? = some v ∧ f.Wrote p inputs w.machine m u v := by
  obtain ⟨e, atE, cell'⟩ := forall₂_getElem? updating.targets at_
  obtain rfl : c = e.1 := Option.some.inj (cell.symm.trans cell')
  obtain ⟨v, atV, var⟩ := forall₂_getElem? updating.values atE
  have member := List.mem_of_getElem? atE
  obtain ⟨t, value⟩ := Option.isSome_iff_exists.mp (values e member)
  refine ⟨v, atV, e.1, t, cell, var ▸ value, ?_⟩
  have cut : f.schedule.updates = f.schedule.updates.take i ++ e :: f.schedule.updates.drop (i + 1) := by
    obtain ⟨inRange, here⟩ := List.getElem?_eq_some_iff.mp atE
    rw [← here, List.cons_getElem_drop_succ, List.take_append_drop]
  have inOrder : (f.course inputs w.machine).after =
      (f.course inputs w.machine).written f.schedule.updates w.machine.cells := rfl
  rw [cells, inOrder, cut]
  exact Course.written_last (updating.last good atE isLast) value (good.typed _ (updating.made e member)).1

/-- The last update of each persistent value stays after a call that succeeds. The targets of an accepted program are
different variables; where these are different persistent values, each of them holds its own new value. -/
theorem last_update_stays (reachable : Reachable True w) (split : w.executables = before ++ f :: after)
    (fresh : w.Fresh p) (accepted : p.validate = .ok ()) (compiled : p.schedule f.context = .ok f.schedule)
    (ran : f.call inputs borrow w.machine = (.ok os, g, m)) : f.UpdatesInTurn p inputs w.machine m := by
  have good := reachable.good
  obtain ⟨a, -, rfl, accepts, ends⟩ := good.call_cases split ran
  have updating := good.updating (by simp [split] : f ∈ w.executables) fresh compiled accepts
  have distinct := (Program.accepted_parts accepted).2
  have last {i : Nat} {u : VarId × VarId} {c : Cell} (at_ : p.updates[i]? = some u) (cell : p.cellOf u.1 = some c)
      (isLast : p.Last i c) : ∃ v, f.schedule.program.updates[i]? = some v ∧
        f.Wrote p inputs w.machine a.machine u v :=
    updating.wrote good ends.values ends.lasts.cells at_ cell isLast
  refine ⟨distinct, last, fun apart => ?_⟩
  have lengths := updating.targets.length_eq.trans updating.values.length_eq
  refine List.forall₂_iff_get.mpr ⟨lengths, fun i inSource inCompiled => ?_⟩
  have at_ : p.updates[i]? = some (p.updates.get ⟨i, inSource⟩) := List.getElem?_eq_getElem inSource
  obtain ⟨e, -, cell⟩ := forall₂_getElem? updating.targets at_
  obtain ⟨v, atV, wrote⟩ := last at_ cell (apart.last distinct at_ cell)
  rwa [show v = f.schedule.program.updates.get ⟨i, inCompiled⟩ from
    Option.some.inj (atV.symm.trans (List.getElem?_eq_getElem inCompiled))] at wrote

end World

end

section Sample

/-- One persistent value behind two variables. The new value of the first one is its opposite, and that of the second
one its double. -/
def Program.rivals (c : Cell) : Program :=
  let leaves := (((Graph.empty .f32).shared c).1.shared c).1
  let negated := (leaves.apply (.unary .neg) [0]).1
  ⟨(negated.apply (.binary .add) [0, 0]).1, [], [2, 3], [(0, 2), (1, 3)]⟩

/-- The first integer that was made persistent. -/
def Cell.firstInteger : Cell := ⟨0, .i32, 0⟩

theorem Program.built_rivals (c : Cell) : (rivals c).graph.Built :=
  .apply (.apply (.shared (.shared (.empty _) _) _) _ _) _ _

section

open scoped BlockRoutine

/-- The program is accepted, and its updates write two values to one persistent value. -/
theorem Program.rivals_are_accepted :
    (rivals .firstInteger).graph.Built ∧ (rivals .firstInteger).validate = .ok () ∧
      (rivals .firstInteger).updates.map (fun u => (rivals .firstInteger).cellOf u.1) =
        [some .firstInteger, some .firstInteger] ∧
      (rivals .firstInteger).updates.map Prod.snd = (rivals .firstInteger).outputs ∧
      (rivals .firstInteger).evaluate [] #[.scalar (1 : Elem .i32)] =
        .ok [.scalar (-1 : Elem .i32), .scalar (2 : Elem .i32)] :=
  ⟨built_rivals _, rfl, rfl, rfl, rfl⟩

end

theorem Program.within_rivals (allowed : Op → Kind → Prop) (integers : ∀ op, allowed op .i32) :
    (rivals .firstInteger).Within allowed where
  unfused n member e isFused := by
    have ops : (rivals .firstInteger).graph.nodes.toList.map Node.op = [.unary .neg, .binary .add] := rfl
    have known := List.mem_map_of_mem (f := Node.op) (Array.mem_toList_iff.mpr member)
    rw [ops, isFused] at known
    simp at known
  allowed n _ v _ x atV := by
    have kinds : (rivals .firstInteger).graph.vars.all (fun x => x.ty.kind == .i32) = true := by decide +kernel
    have kind := Array.all_eq_true_iff_forall_mem.mp kinds x (Array.mem_of_getElem? atV)
    rw [beq_iff_eq.mp kind]
    exact integers n.op

theorem World.fresh_rivals {w : World} (known : Cell.firstInteger ∈ w.cells) : w.Fresh (.rivals .firstInteger) where
  built := Program.built_rivals _
  cells {v x c} atV origin := by
    have only : (Program.rivals .firstInteger).graph.vars.all
        (fun x => x.cell?.isNone || x.cell? == some .firstInteger) = true := by decide +kernel
    have here := Array.all_eq_true_iff_forall_mem.mp only x (Array.mem_of_getElem? atV)
    obtain rfl : c = .firstInteger := by simpa [Var.cell?, origin] using here
    exact known

/-- New values of programs with the same results. -/
theorem Program.updates_of_roots {p q : Program} {value value' : VarId → Option Tensor}
    (same : p.roots.map value = q.roots.map value') (lengths : p.outputs.length = q.outputs.length) :
    p.updates.map (fun u => value u.2) = q.updates.map fun u => value' u.2 := by
  rw [roots, roots, List.map_append, List.map_append] at same
  have values := (List.append_inj same (by simpa using lengths)).2
  rwa [List.map_map, List.map_map] at values

/-- On the host, variables have the values that they have with the default options. -/
theorem Executable.value_on_host [BlockRoutine] {f : Executable} (host : f.context.accelerator = none)
    (precise : f.context.config.relaxed = []) (inputs : List Tensor) (m : Machine) :
    (f.course inputs m).value = f.schedule.program.value {} inputs m.cells := by
  funext v
  rw [Course.value, Program.value]
  congr 1
  exact Context.mathAt_host host precise

section

open scoped BlockRoutine

/-- The double stays. -/
theorem World.last_update_stays_rivals : ∃ w f os g m, Reachable True w ∧ w.executables = [f] ∧
    w.machine.cells = #[.scalar (1 : Elem .i32)] ∧ f.call [] false w.machine = (.ok os, g, m) ∧
      m.cells[0]? = some (.scalar (2 : Elem .i32)) := by
  have made : Reachable True { machine := { cells := #[.scalar (1 : Elem .i32)] }, cells := [.firstInteger] } :=
    (Reachable.start 4 false).step (.create (.scalar (1 : Elem .i32)) rfl)
  have opened : (Context.build {} [] .host).start { cells := #[.scalar (1 : Elem .i32)] } = (.ok .first, _) := rfl
  obtain ⟨w, f, reachable, alone, context, compiled, usable, cells, values⟩ := made.holding Kernels.honest_host
    (fun _ => ⟨rfl, fun _ _ => ⟨rfl, rfl⟩⟩) opened (p := .rivals .firstInteger) (fresh_rivals (by simp))
    (by decide +kernel)
  have split : w.executables = [] ++ f :: [] := alone
  have fresh : w.Fresh (.rivals .firstInteger) := fresh_rivals (by simp [cells])
  have good := reachable.good
  have sound := (Program.within_rivals Op.Rearranges fun _ => nofun).sound fresh
  obtain ⟨valid, p', l, compiles⟩ := Program.compilesTo_of_honest sound Kernels.honest_host compiled
  have typed : ∀ c ∈ w.cells, c.Typed w.machine.cells := fun c member => (good.typed c member).2
  have takes : (Program.rivals .firstInteger).Takes [] := rfl
  have same := (compiles.refines_source valid Kernels.honest_host takes typed).values trivial
  unfold Program.SameValues at same
  rw [← Executable.value_on_host (by rw [context]; rfl) (by rw [context]; rfl)] at same
  have evaluated := (Program.rivals .firstInteger).evaluate_spec valid takes typed
  rw [values, show (Program.rivals .firstInteger).evaluate [] #[.scalar (1 : Elem .i32)] =
      .ok [.scalar (-1 : Elem .i32), .scalar (2 : Elem .i32)] from rfl, ← values] at evaluated
  obtain ⟨outputs, valued⟩ := evaluated
  have accepts : f.Accepts [] :=
    ⟨usable, (Calling.accept_iff compiles.laid).mpr (compiles.sameInterface.takes takes)⟩
  obtain ⟨os, g, m, ran, -, -⟩ := good.call_succeeds split accepts ((Program.valued_iff same).mp valued)
  have stays := last_update_stays reachable split fresh rfl (context ▸ compiled) ran
  obtain ⟨v, at_, c, t, cell, value, kept⟩ := stays.last (i := 1) rfl rfl (fun j u later at_ => by
    have inRange := (List.getElem?_eq_some_iff.mp at_).1
    exact absurd inRange (Nat.not_lt.mpr later))
  have double : (f.course [] w.machine).value v.2 = some (.scalar (2 : Elem .i32)) := by
    have here := congrArg (·[1]?) (Program.updates_of_roots same compiles.sameInterface.outputs)
    simp only [List.getElem?_map, at_, Option.map_some] at here
    have source : (Program.rivals .firstInteger).value {} [] w.machine.cells 3 = some (.scalar (2 : Elem .i32)) := by
      cases outputs with
      | cons _ outputs =>
        cases outputs with
        | cons double _ => exact double
    rw [← source]
    exact (Option.some.inj here).symm
  obtain rfl : .firstInteger = c := Option.some.inj cell
  refine ⟨w, f, os, g, m, reachable, alone, values, ran, ?_⟩
  rw [← double, value]
  exact kept

end

end Sample

end TensorGraph
