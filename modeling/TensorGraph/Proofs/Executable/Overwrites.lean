import TensorGraph.Proofs.Executable.Compiled

/-! Marks in the order that is executed. The pass that sets them looks at one program; the slots and the order are those
of the last one. What a command of the schedule overwrites is not read any more there. -/
namespace TensorGraph

open Checked

-- Where the product of blocks plays no part, any one serves for the lemmas that ask for it.
open scoped BlockRoutine

namespace Schedule

/-- Between two parts of a schedule, a command may write over a value. -/
structure MayOverwrite (s : Schedule) (done rest : List Command) (cmd : Command) (x : Site) : Prop where
  /-- An earlier command made it. -/
  made : ∃ k ∈ done, k.output = x
  notLeaf : ∀ y ∈ s.leafSites, y.var ≠ x.var
  /-- It is neither an output nor a new value. -/
  notRoot : x.var ∉ s.program.roots
  /-- It is not the upload of a constant. -/
  notUpload : ∃ n, s.program.graph.producer? x.var = some n ∧ InPlace.isUpload s.program.graph n = false
  alike : ∃ y z, s.program.graph.vars[x.var]? = some y ∧ s.program.graph.vars[cmd.output.var]? = some z ∧
    y.ty.Alike z.ty
  last : ∀ k ∈ rest, ∀ y ∈ k.inputs, y.var ≠ x.var
  alone : ∀ k ∈ done ++ rest, ∀ i y, k.inPlace = some i → k.inputs[i]? = some y → y.var ≠ x.var

/-- Values share slots in the order of the commands without harm. -/
structure SharesSafely (s : Schedule) : Prop where
  /-- What a command overwrites may be overwritten there. -/
  overwritten : ∀ {done rest : List Command} {cmd : Command} {i : Nat}, s.commands = done ++ cmd :: rest →
    cmd.inPlace = some i → ∃ x, cmd.inputs[i]? = some x ∧ x.slot = cmd.output.slot ∧ s.MayOverwrite done rest cmd x
  /-- Two values in one slot are never both there and still to be read. -/
  apart : ∀ {done rest : List Command} {x y : Site}, s.commands = done ++ rest → s.There done x.var →
    s.There done y.var → s.Needed rest x → s.Needed rest y → x.slot = y.slot → x.var = y.var

namespace LaidOut

variable {s : Schedule} {c : Context} {scope : Scope} {l : Layout} {done rest : List Command} {cmd : Command}

/-- The operand that a command overwrites is in the slot of its result. -/
theorem overwritten (laid : s.LaidOut c scope l) {n : Node} (live : n ∈ s.program.liveNodes)
    (does : cmd.Does c s.program.graph l n) {i : Nat} (marked : cmd.inPlace = some i) :
    ∃ x, cmd.inputs[i]? = some x ∧ n.inPlace = some i ∧ n.inputs[i]? = some x.var ∧ l.slot x.var = some x.slot ∧
      x.slot = cmd.output.slot ∧ s.program.Spares n x.var := by
  have marked := does.inPlace.symm.trans marked
  obtain ⟨v, atI, spares⟩ := laid.safely n live i marked
  obtain ⟨x, atX, rfl, slot⟩ := forall₂_getElem? does.inputs atI
  have shared := (laid.slotted n live).inPlace marked atI
  rw [does.output.2, slot, Option.some.injEq] at shared
  exact ⟨x, atX, marked, atI, slot, shared.symm, spares⟩

/-- A command overwrites the variable that its operation overwrites. -/
theorem overwrites (laid : s.LaidOut c scope l) (member : cmd ∈ s.commands) {i : Nat} (marked : cmd.inPlace = some i)
    {x : Site} (atX : cmd.inputs[i]? = some x) : s.program.Overwrites x.var cmd.output.var := by
  obtain ⟨n, live, does⟩ := laid.node member
  obtain ⟨x', atX', marked', atI, -⟩ := laid.overwritten live does marked
  obtain rfl : x = x' := Option.some.inj (atX.symm.trans atX')
  exact ⟨n, live, i, marked', atI, does.output.1.symm⟩

/-- The operand and the result of a command in place are alike. -/
theorem overwritten_alike (laid : s.LaidOut c scope l) {n : Node} (live : n ∈ s.program.liveNodes) {i : Nat} {v : VarId}
    (marked : n.inPlace = some i) (atI : n.inputs[i]? = some v) :
    ∃ y z, s.program.graph.vars[v]? = some y ∧ s.program.graph.vars[n.output]? = some z ∧ y.ty.Alike z.ty := by
  obtain ⟨tys, ty, z, known⟩ := laid.valid.operation live
  obtain ⟨-, -, t, atT, fits⟩ := known.rule.2 i marked
  obtain ⟨t', atT', y, atV, rfl⟩ := forall₂_getElem? known.types atI
  obtain rfl : t = y.ty := Option.some.inj (atT.symm.trans atT')
  exact ⟨y, z, atV, known.atOutput, (fits ty known.inferred).trans known.alike.symm⟩

theorem mayOverwrite (laid : s.LaidOut c scope l) (split : s.commands = done ++ cmd :: rest) {i : Nat}
    (marked : cmd.inPlace = some i) :
    ∃ x, cmd.inputs[i]? = some x ∧ x.slot = cmd.output.slot ∧ s.MayOverwrite done rest cmd x := by
  have each := laid.commands
  rw [split] at each
  obtain ⟨before, n, after, whole, front, does, back⟩ := forall₂_split each
  have live : n ∈ s.program.liveNodes := whole ▸ by simp
  have sorted : s.program.liveNodes.Pairwise fun a b => a.output < b.output := laid.valid.graph.live_sorted
  rw [whole] at sorted
  obtain ⟨x, atX, marked', atI, slot, shared, spares⟩ := laid.overwritten live does marked
  obtain ⟨m, produced, notUpload⟩ := spares.producer
  obtain ⟨atM, output⟩ := laid.valid.graph.of_producer? produced
  refine ⟨x, atX, shared, ⟨?_, fun y leaf same => ?_, spares.root, ⟨m, produced, notUpload⟩, ?_,
    fun k later y reads same => ?_, fun k other j y marked'' atY same => ?_⟩⟩
  · have earlier := laid.valid.graph.live_before whole (List.mem_of_getElem? atI) produced
    obtain ⟨k, inDone, does'⟩ := partner front earlier
    have made := does'.output
    rw [output] at made
    exact ⟨k, inDone, made.unique ⟨rfl, slot⟩⟩
  · exact laid.not_made leaf atM (output.trans same.symm)
  · rw [does.output.1]
    exact laid.overwritten_alike live marked' atI
  · obtain ⟨r, inAfter, does'⟩ := partner_of back later
    obtain ⟨v, inInputs, var, -⟩ := partner_of does'.inputs reads
    refine spares.last r (whole ▸ by simp [inAfter]) ?_ (same ▸ var ▸ inInputs)
    exact List.rel_of_pairwise_cons (List.pairwise_append.mp sorted).2.1 inAfter
  · have inCommands : k ∈ s.commands := by
      rw [split]
      rcases List.mem_append.mp other with early | late
      · simp [early]
      · simp [late]
    have here := laid.overwrites (split ▸ by simp) marked atX
    have there := laid.overwrites inCommands marked'' atY
    rw [same] at there
    exact laid.makes_alone split other (laid.safely.unique there here)

end LaidOut

/-- Whatever a command of a schedule overwrites is a value that an earlier command made, of the kind and the rank of the
result, that is neither wanted after the call nor kept for the next one, and that no later command reads and no other
one overwrites. -/
theorem overwrites_are_safe {p : Program} {c : Context} {s : Schedule} (built : p.graph.Built)
    (compiled : p.schedule c = .ok s) : s.SharesSafely := by
  obtain ⟨-, p', l, compiles⟩ := Program.compilesTo_of_schedule built.sound compiled
  exact ⟨fun split marked => compiles.laid.mayOverwrite split marked, fun split => compiles.laid.apart split⟩

section

open scoped BlockRoutine

theorem overwrites_are_safe_negatedSum : ∃ s k cmd x, Program.negatedSum.schedule .first = .ok s ∧
    s.commands = [k, cmd] ∧
    cmd.inputs[0]? = some x ∧ s.MayOverwrite [k] [] cmd x := by
  obtain ⟨s, compiled⟩ := exists_of_isOk (r := Program.negatedSum.schedule .first) (by decide +kernel)
  have marks : (Program.negatedSum.schedule .first).toOption.map (fun s => s.commands.map Command.inPlace) =
      some [none, some 0] := by decide +kernel
  rw [compiled] at marks
  obtain ⟨k, rest, split, -, tail⟩ := List.map_eq_cons_iff.mp (Option.some.inj marks)
  obtain ⟨cmd, rest, rfl, marked, none⟩ := List.map_eq_cons_iff.mp tail
  obtain rfl := List.map_eq_nil_iff.mp none
  have safe := overwrites_are_safe Graph.built_negatedSum compiled
  obtain ⟨x, atX, -, may⟩ := safe.overwritten (show s.commands = [k] ++ cmd :: [] from split) marked
  exact ⟨s, k, cmd, x, compiled, split, atX, may⟩

end

end Schedule

end TensorGraph
