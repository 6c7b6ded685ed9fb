import TensorGraph.Executable.Basic
import TensorGraph.Proofs.Pass.Arising
import TensorGraph.Proofs.Pass.Matching
import TensorGraph.Proofs.Program.Accepted
import TensorGraph.Proofs.World.Contexts

/-! Dead code does not reach a schedule. What a program's roots do not need can be left out before it is compiled, and
the commands, the slots and everything else of the schedule stay the same; only the report tells of it, as it counts
the operations that the first pass found. -/
namespace TensorGraph

open Checked Rebuilding

-- Where the product of blocks plays no part, any one serves for the lemmas that ask for it.
open scoped BlockRoutine

namespace Program

variable {p q : Program} {d d' : Discipline} {marking : Node → Except Error (Option Nat)} {image : VarId → Option VarId}

/-- A variable that is needed is a leaf, or the result of a live operation. -/
theorem Needs.leaf_or_live (valid : p.Valid d) {v : VarId} {x : Var} (needs : p.Needs v)
    (atV : p.graph.vars[v]? = some x) : x.isLeaf ∨ ∃ n ∈ p.liveNodes, n.output = v := by
  rcases valid.graph.leaf_or_output atV with isLeaf | ⟨i, n, atI, rfl⟩
  · exact .inl isLeaf
  have produced := valid.graph.producer?_output atI
  rcases needs with input | root | target | ⟨k, live, reads⟩
  · obtain ⟨y, atV', origin⟩ := valid.inputs _ input
    obtain rfl : x = y := Option.some.inj (atV.symm.trans atV')
    exact .inl (by simp [Var.isLeaf, origin])
  · exact .inr ⟨n, valid.graph.root_producer root produced, rfl⟩
  · obtain ⟨u, member, same⟩ := List.mem_map.mp target
    obtain ⟨y, -, c, atV', -, origin, -⟩ := valid.updates u member
    rw [same] at atV'
    obtain rfl : x = y := Option.some.inj (atV.symm.trans atV')
    exact .inl (by simp [Var.isLeaf, origin])
  · exact .inr ⟨n, valid.graph.live_producer live reads produced, rfl⟩

theorem Needs.known (valid : p.Valid d) {v : VarId} (needs : p.Needs v) : ∃ x, p.graph.vars[v]? = some x := by
  rcases needs with input | root | target | ⟨n, live, reads⟩
  · obtain ⟨x, atV, -⟩ := valid.inputs v input
    exact ⟨x, atV⟩
  · exact ⟨_, Array.getElem?_eq_getElem (valid.roots v root)⟩
  · obtain ⟨u, member, rfl⟩ := List.mem_map.mp target
    obtain ⟨x, -, -, atV, -⟩ := valid.updates u member
    exact ⟨x, atV⟩
  · obtain ⟨tys, ty, x, known⟩ := valid.operation live
    exact ⟨_, Array.getElem?_eq_getElem (known.types.inRange v reads)⟩

/-- A copied variable has the type of the variable that it is a copy of. -/
theorem Copied.vars (valid : p.Valid d) (sound : q.graph.Sound d') (copied : p.Copied q marking image) {v w : VarId}
    {x : Var} (at_ : image v = some w) (atV : p.graph.vars[v]? = some x) :
    ∃ y, q.graph.vars[w]? = some y ∧ y.ty = x.ty ∧ (y = x ∨ ¬ x.isLeaf ∧ ¬ y.isLeaf) := by
  -- The types of results follow from those of operands, which come earlier.
  induction v using Nat.strong_induction_on generalizing w x with
  | _ v ih =>
    rcases (copied.needed at_).leaf_or_live valid atV with isLeaf | ⟨n, live, rfl⟩
    · exact ⟨x, copied.leaf at_ atV isLeaf, rfl, .inl rfl⟩
    obtain ⟨tys, ty, x', known⟩ := valid.operation live
    obtain rfl : x = x' := Option.some.inj (atV.symm.trans known.atOutput)
    obtain ⟨m, member, mark, -, here⟩ := partner copied.nodes live
    obtain rfl : m.output = w := Option.some.inj (here.output.symm.trans at_)
    obtain ⟨-, ⟨y, atOutput, origin⟩, -, tys', ty', y', types', inferred', atOutput', placed, -⟩ :=
      sound.node (sound.mem_nodes member)
    obtain rfl : y = y' := Option.some.inj (atOutput.symm.trans atOutput')
    have reads := (valid.graph.node (valid.graph.live_mem live)).reads
    have operands : ∀ {vs ws : List VarId} {ts : List Ty}, (∀ u ∈ vs, u < n.output) →
        List.Forall₂ (fun v w => image v = some w) vs ws → p.graph.Types vs ts → q.graph.Types ws ts := by
      intro vs ws ts before images types
      induction images generalizing ts with
      | nil =>
        cases types
        exact .nil
      | cons image _ rest =>
        cases types with
        | cons head tail =>
          obtain ⟨x, atX, rfl⟩ := head
          obtain ⟨y, atY, same, -⟩ := ih _ (before _ (by simp)) image atX
          exact .cons ⟨y, atY, same⟩ (rest (fun u member => before u (List.mem_cons_of_mem _ member)) tail)
    obtain rfl : tys = tys' := (operands reads here.inputs known.types).unique types'
    rw [here.op] at inferred'
    obtain rfl : ty = ty' := Except.ok.inj (known.inferred.symm.trans inferred')
    refine ⟨y, atOutput, ?_, .inr ⟨known.notLeaf, by simp [Var.isLeaf, origin]⟩⟩
    rw [placed, known.placed, here.place]

/-- The second program is the first one without what its roots do not need. -/
structure Stripped (p q : Program) (image : VarId → Option VarId) : Prop where
  /-- What is live is the same, up to numbers. -/
  agrees : p.Matches q image
  /-- No operation is left that the roots do not need, -/
  live : q.graph.nodes.toList = q.liveNodes
  /-- and no variable, -/
  onto : ∀ {w : VarId}, w < q.graph.vars.size → ∃ v, image v = some w
  needed : ∀ {v w : VarId}, image v = some w → p.Needs v

/-- An accepted program can be pruned, and only what its roots do not need is gone. -/
theorem prune_stripped (valid : p.Valid d) (congruent : d.Congruent) :
    ∃ q image, p.prune = .ok q ∧ q.Valid d ∧ p.Stripped q image := by
  have met := prune_meets valid congruent {} [] #[] False
  cases pruned : p.prune with
  | error e =>
    rw [pruned] at met
    exact met.elim
  | ok q =>
    rw [pruned] at met
    obtain ⟨rebuilt, image, copied⟩ := met
    have sound := rebuilt.valid.graph
    have live := copied.all_live valid sound
    refine ⟨q, image, rfl, rebuilt.valid, ⟨copied.float, copied.injective, fun {v w} at_ => ?_, ?_, copied.inputs,
      copied.outputs, copied.updates⟩, live.symm, copied.onto, copied.needed⟩
    · obtain ⟨x, atV⟩ := (copied.needed at_).known valid
      obtain ⟨y, atW, same⟩ := copied.vars valid sound at_ atV
      exact ⟨x, y, atV, atW, same⟩
    · rw [live]
      refine copied.nodes.imp ?_
      rintro n m ⟨mark, marked, here⟩
      cases marked
      exact here

end Program

/-- Both compilations fail, or both give one schedule. Their reports may count what the first pass dropped. -/
def Schedule.Alike : Except Error Schedule → Except Error Schedule → Prop :=
  Agree fun s s' => s' = { s with report := s'.report }

namespace Program

variable {p q : Program} {image : VarId → Option VarId} {c : Context}

theorem build_alike (c : Context) (p : Program) (report report' : List PassReport) :
    Schedule.Alike (Schedule.build c p report) (Schedule.build c p report') := by
  unfold Schedule.Alike Schedule.build
  refine (Agree.refl (fun _ => rfl) _).bind ?_
  rintro order _ rfl
  refine (Agree.refl (fun _ => rfl) _).bind ?_
  rintro l _ rfl
  refine (Agree.refl (fun _ => rfl) _).bind ?_
  rintro roots _ rfl
  refine (Agree.refl (fun _ => rfl) _).bind ?_
  rintro commands _ rfl
  refine (Agree.refl (fun _ => rfl) _).bind ?_
  rintro inputs _ rfl
  refine (Agree.refl (fun _ => rfl) _).bind ?_
  rintro outputs _ rfl
  refine (Agree.refl (fun _ => rfl) _).bind ?_
  rintro updates _ rfl
  rfl

/-- A first pass that makes one program of two leaves the later ones nothing to tell them by. -/
theorem runPasses_agree {pass : PassName} (first : Agree Eq (pass.run c p) (pass.run c q)) (passes : List PassName) :
    Agree (fun a b => a.1 = b.1) (p.runPasses c (pass :: passes)) (q.runPasses c (pass :: passes)) := by
  rw [runPasses, runPasses]
  refine first.bind ?_
  rintro next _ rfl
  refine (Agree.refl (fun _ => rfl) _).bind ?_
  rintro ⟨final, report⟩ _ rfl
  rfl

/-- The first pass of a compilation sees the live part of a program only. -/
theorem Matches.passes (agrees : p.Matches q image) {passes : List PassName} (standard : c.config.passes = .ok passes) :
    Agree (fun a b => a.1 = b.1) (p.runPasses c passes) (q.runPasses c passes) := by
  obtain ⟨pass, rest, rfl, first⟩ := PassName.standard_head standard
  refine runPasses_agree ?_ rest
  rcases first with rfl | rfl
  · exact agrees.canonical
  · exact agrees.placement

/-- Programs with one live part are compiled to one schedule. -/
theorem Matches.schedule (agrees : p.Matches q image) (accepted : p.validate = .ok ()) (accepted' : q.validate = .ok ()) :
    Schedule.Alike (p.schedule c) (q.schedule c) := by
  unfold Program.schedule
  rw [accepted, accepted', ok_bind, ok_bind]
  cases standard : c.config.passes with
  | error e => trivial
  | ok passes =>
    rw [ok_bind, ok_bind]
    refine (agrees.passes standard).bind ?_
    rintro ⟨final, report⟩ ⟨_, report'⟩ rfl
    exact build_alike c final report report'

/-- Dead code never matters: an accepted program can be pruned, which removes what its roots do not need, inputs
apart, and nothing else. What is left is accepted, is compiled to the same schedule in every context, and there is
nothing left to prune. -/
theorem dead_code_never_matters (arises : p.graph.Arises) (accepted : p.validate = .ok ()) :
    ∃ q image, p.prune = .ok q ∧ p.Stripped q image ∧ q.validate = .ok () ∧ q.prune = .ok q ∧
      ∀ c, Schedule.Alike (p.schedule c) (q.schedule c) := by
  have valid := valid_of_arises arises accepted
  obtain ⟨q, image, pruned, valid', stripped⟩ := prune_stripped valid (Discipline.congruent_ruled anywhere True)
  have follows := @prune_follows p anywhere True False valid
  rw [pruned] at follows
  obtain ⟨some, targets⟩ := accepted_parts accepted
  have accepted' : q.validate = .ok () :=
    valid'.accepted trivial ((follows.types trivial).hasResult some) (follows.targets targets)
  obtain ⟨q', again, rfl⟩ := stripped.agrees.prune.of_ok pruned
  exact ⟨q, image, pruned, stripped, accepted', again, fun c => stripped.agrees.schedule accepted accepted'⟩

/-- From a vector of integers to its sum. Nobody asks for the sum with its sign changed. -/
def unreadNegation : Program := ⟨.negatedSum, [0], [1], []⟩

section

open scoped BlockRoutine

theorem dead_code_never_matters_unreadNegation : ∃ q image, unreadNegation.prune = .ok q ∧
    unreadNegation.Stripped q image ∧ q.nodeCount = 1 ∧ unreadNegation.nodeCount = 2 ∧
      ∃ s s', unreadNegation.schedule (.first (.sim 0)) = .ok s ∧ q.schedule (.first (.sim 0)) = .ok s' ∧
        s' = { s with report := s'.report } := by
  have accepted : unreadNegation.validate = .ok () := by decide +kernel
  obtain ⟨q, image, pruned, stripped, -, -, alike⟩ := dead_code_never_matters Graph.built_negatedSum.arises accepted
  have count : (unreadNegation.prune).toOption.map nodeCount = some 1 := by decide +kernel
  rw [pruned] at count
  obtain ⟨s, scheduled⟩ := exists_of_isOk (r := unreadNegation.schedule (.first (.sim 0))) (by decide +kernel)
  obtain ⟨s', scheduled', same⟩ := (alike (.first (.sim 0))).of_ok scheduled
  exact ⟨q, image, pruned, stripped, Option.some.inj count, rfl, s, s', scheduled, scheduled', same⟩

end

end Program

end TensorGraph
