import TensorGraph.Proofs.Pass.Located
import TensorGraph.Proofs.Pass.Meaning

/-! The canonical form keeps the value of every variable that is needed. Each of them has an image, though many may
share one, and what is folded is small. -/
namespace TensorGraph

open Checked Rebuilding

namespace Canonical

/-- A rebuild whose operations that are done have images, as have their operands, and whose constants are copies or
small. -/
structure Images (p : Program) (limit : Nat) (done : List Node) (r : Rebuild) : Prop where
  operand : ∀ n ∈ done, ∀ v ∈ n.inputs, (r.image v).isSome
  output : ∀ n ∈ done, (r.image n.output).isSome
  constant : ∀ {w : VarId} {x : Var} {t : Tensor}, r.graph.vars[w]? = some x → x.origin = .constant t →
    (∃ v, r.image v = some w ∧ p.graph.vars[v]? = some x) ∨ t.data.size ≤ limit

namespace Images

variable {p : Program} {limit : Nat} {done : List Node} {r : Rebuild}

theorem start (p : Program) (limit : Nat) : Images p limit [] (.start p) where
  operand n member := by cases member
  output n member := by cases member
  constant at_ := by simp [Rebuild.start, Graph.empty] at at_

theorem copying (limit : Nat) (done : List Node) : p.Copying (Images p limit done) := by
  intro r v x images unread atV isLeaf
  have kept : ∀ {u : VarId}, (r.image u).isSome → ((r.copied v x).image u).isSome := fun imaged => by
    obtain ⟨w, atU⟩ := Option.isSome_iff_exists.mp imaged
    rw [(Rebuild.copied_grows unread x).image atU]
    rfl
  refine ⟨fun n member u reads => kept (images.operand n member u reads), fun n member => kept (images.output n member),
    fun {w y t} atW origin => ?_⟩
  rcases Graph.pushLeaf_vars.mp atW with old | ⟨rfl, rfl⟩
  · refine (images.constant old origin).imp_left ?_
    rintro ⟨u, atU, atP⟩
    exact ⟨u, (Rebuild.copied_grows unread x).image atU, atP⟩
  · exact .inl ⟨v, by simp [Rebuild.copied], atV⟩

/-- One more operation has its image. -/
theorem imaged (images : Images p limit done r) {n : Node} (operands : ∀ v ∈ n.inputs, (r.image v).isSome)
    (computed : ∀ x : Var, p.graph.vars[n.output]? = some x → ¬ x.isLeaf) (w : VarId) :
    Images p limit (done ++ [n]) (r.imaged n.output w) where
  operand := by
    refine List.forall_mem_append.mpr ⟨fun m member v reads => ?_, fun m last v reads => ?_⟩
    · exact Rebuild.imaged_isSome (images.operand m member v reads) _ _
    · rw [List.mem_singleton.mp last] at reads
      exact Rebuild.imaged_isSome (operands v reads) _ _
  output := by
    refine List.forall_mem_append.mpr ⟨fun m member => ?_, fun m last => ?_⟩
    · exact Rebuild.imaged_isSome (images.output m member) _ _
    · rw [List.mem_singleton.mp last, Rebuild.imaged_self]
      rfl
  constant {u x t} atU origin := by
    refine (images.constant atU origin).imp_left ?_
    rintro ⟨v, atV, atP⟩
    have other : v ≠ n.output := by
      rintro rfl
      exact computed x atP (by simp [Var.isLeaf, origin])
    exact ⟨v, by rw [Rebuild.imaged_other other, atV], atP⟩

/-- Whatever becomes of an operation. -/
theorem outcome {c : Context} (images : Images p c.config.foldLimit done r) {n : Node} {args : List VarId} {r' : Rebuild}
    (operands : ∀ v ∈ n.inputs, (r.image v).isSome)
    (computed : ∀ x : Var, p.graph.vars[n.output]? = some x → ¬ x.isLeaf) (outcome : Outcome c n args r r') :
    Images p c.config.foldLimit (done ++ [n]) r' := by
  cases outcome with
  | negated => exact images.imaged operands computed _
  | shared => exact images.imaged operands computed _
  | @folded t _ fold =>
    have small := fold?_spec c.kernels c.config.foldLimit r.graph n.op (ordered n.op args)
    rw [fold] at small
    have grown : Images p c.config.foldLimit done { r with graph := (r.graph.constant t).1 } := by
      refine ⟨images.operand, images.output, fun atW origin => ?_⟩
      rcases Graph.pushLeaf_vars.mp atW with old | ⟨rfl, rfl⟩
      · exact images.constant old origin
      · cases origin
        exact .inr small.2.1
    exact grown.imaged operands computed _
  | @added tys ty =>
    have grown : Images p c.config.foldLimit done ⟨r.graph.grown n.op (ordered n.op args) ty n.place n.inPlace, r.image,
        ((n.op, ordered n.op args), r.graph.vars.size) :: r.known⟩ := by
      refine ⟨images.operand, images.output, fun atW origin => ?_⟩
      rcases Graph.grown_vars.mp atW with old | ⟨rfl, rfl⟩
      · exact images.constant old origin
      · cases origin
    exact grown.imaged operands computed _

end Images

variable {c : Context} {p q : Program} {r : Rebuild}

/-- In the end every variable that is needed has an image. -/
theorem images_of_rebuilding {d : Discipline} (valid : p.Valid d) (ran : p.rebuilding (step c p) = .ok (q, r)) :
    Images p c.config.foldLimit p.liveNodes r ∧ q.graph = r.graph ∧ ∀ v, p.Needs v → ∃ w, r.image v = some w := by
  have each : ∀ {before after : List Node} {n : Node} {r : Rebuild}, p.liveNodes = before ++ n :: after →
      Images p c.config.foldLimit before r →
      (step c p n).Meets r (fun _ => True) fun _ r' => Images p c.config.foldLimit (before ++ [n]) r' := by
    intro before after n r split images
    obtain ⟨tys, ty, x, known⟩ := valid.operation (n := n) (by simp [split])
    refine (step_outcome (Images.copying _ before) images n).mono ?_
    rintro _ r' ⟨args, r₁, images₁, -, operands, outcome⟩
    refine images₁.outcome (fun v reads => ?_) (fun y atOutput => ?_) outcome
    · obtain ⟨w, -, image⟩ := partner operands reads
      rw [image]
      rfl
    · obtain rfl : x = y := Option.some.inj (known.atOutput.symm.trans atOutput)
      exact known.notLeaf
  obtain ⟨images, graph, inputs, outputs, updates⟩ := Program.rebuilding_keeps (Images p c.config.foldLimit)
    (.start p _) (Images.copying _) each ran
  refine ⟨images, graph, fun v needs => ?_⟩
  rcases needs with input | root | target | ⟨n, live, reads⟩
  · obtain ⟨w, -, -, image⟩ := partner inputs input
    exact ⟨w, image⟩
  · rcases List.mem_append.mp root with output | value
    · obtain ⟨w, -, image⟩ := partner outputs output
      exact ⟨w, image⟩
    · obtain ⟨u, member, rfl⟩ := List.mem_map.mp value
      obtain ⟨u', -, -, image⟩ := partner updates member
      exact ⟨u'.2, image⟩
  · obtain ⟨u, member, rfl⟩ := List.mem_map.mp target
    obtain ⟨u', -, image, -⟩ := partner updates member
    exact ⟨u'.1, image⟩
  · exact Option.isSome_iff_exists.mp (images.operand n live v reads)

theorem accepts_storing (stores : Cell → Prop) : Accepts (.storing stores) (.storing stores) True where
  leaf _ := id
  constant _ := trivial
  asked _ := ⟨trivial, trivial⟩
  op _ _ _ := trivial

/-- With the reference kernels a program has a canonical form, which keeps values as far as operations may be
rearranged, unless sizes of constants overflow. -/
theorem rebuilding_storing [BlockRoutine] {stores : Cell → Prop} (valid : p.Valid (.storing stores)) (kernels : c.kernels = .host)
    {ts : List Tensor} {cells : Array Tensor} {kept : Prop} (binds : kept → p.graph.Binds (p.bind ts cells))
    (balanced : kept → ∀ n ∈ p.liveNodes, ∀ v ∈ n.inputs, ∀ x, p.graph.vars[v]? = some x →
      n.op.Balanced x.ty.kind) :
    match p.rebuilding (step c p) with
    | .ok (q, r) => p.Rebuilt q (.storing stores) (p.stage {} ts cells kept True False False) ∧
        r.Mirrors p (.storing stores) (p.stage {} ts cells kept True False False) ∧ q.graph = r.graph
    | .error e => e = .crash ∧ p.Overflows := by
  refine Program.rebuilding_of_opening valid (fun _ => id) (fun _ => ⟨trivial, trivial⟩) (fun _ _ => id)
    (opening_meets valid (accepts_storing stores) (fun held => ⟨?_, rfl, binds held, balanced held⟩) (fun _ => trivial)
      (fun _ => ?_) (fun bad => absurd ⟨trivial, ?_⟩ bad) (fun overflow => ⟨rfl, overflow⟩) (List.append_nil _).symm)
  · exact kernels ▸ Kernels.honest_host
  · exact kernels ▸ Kernels.wellTyped_host.typed
  · exact kernels ▸ Kernels.wellTyped_host

/-- With the reference kernels the canonical form of a program gives every variable that is needed an image with the
same value, whatever the program takes and whatever is stored, and gives the same results. Operands of floats must be
free to be exchanged where operations do that, and signs to cancel. A constant that is no copy does not exceed the
limit for folding. There is no canonical form only where the sizes of something that is computed from constants
overflow, and then the program has no results either. -/
theorem canonical_keeps_values [BlockRoutine] (arises : p.graph.Arises) (accepted : p.validate = .ok ()) (kernels : c.kernels = .host)
    (floats : ∀ n ∈ p.liveNodes, ∀ v ∈ n.inputs, ∀ x, p.graph.vars[v]? = some x → x.ty.kind.isFloat →
      n.op.Balanced x.ty.kind) :
    (run c p = .error .crash ∧ p.Overflows ∧ ∀ math ts cells, p.Takes ts → p.Stored cells →
      ∃ e, p.BreaksOff math ts cells e ∧ p.results math ts cells = .error e) ∨
    ∃ q r, p.rebuilding (step c p) = .ok (q, r) ∧ run c p = .ok q ∧
      (∀ v, p.Needs v → ∃ w, r.image v = some w ∧ ∀ ts cells, p.Takes ts → p.Stored cells →
        q.value {} ts cells w = p.value {} ts cells v) ∧
      p.SameResults q {} ∧
      ∀ w x t, q.graph.vars[w]? = some x → x.origin = .constant t →
        (∃ v, r.image v = some w ∧ p.graph.vars[v]? = some x) ∨ t.data.size ≤ c.config.foldLimit := by
  have valid := (Program.valid_of_arises arises accepted).storing trivial
  have balanced : ∀ n ∈ p.liveNodes, ∀ v ∈ n.inputs, ∀ x, p.graph.vars[v]? = some x →
      n.op.Balanced x.ty.kind := by
    intro n live v reads x atV
    by_cases float : x.ty.kind.isFloat
    · exact floats n live v reads x atV float
    · exact n.op.balanced_of_int float
  have met : ∀ ts cells, match p.rebuilding (step c p) with
      | .ok (q, r) =>
          p.Rebuilt q (.storing p.Stores) (p.stage {} ts cells (p.Takes ts ∧ p.Stored cells) True False False) ∧
          r.Mirrors p (.storing p.Stores) (p.stage {} ts cells (p.Takes ts ∧ p.Stored cells) True False False) ∧
          q.graph = r.graph
      | .error e => e = .crash ∧ p.Overflows := fun ts cells =>
    rebuilding_storing valid kernels (fun held => valid.binds held.1 held.2.typed) fun _ => balanced
  cases ran : p.rebuilding (step c p) with
  | error e =>
    have failed := met [] #[]
    rw [ran] at failed
    obtain ⟨rfl, overflows⟩ := failed
    refine .inl ⟨by rw [run, Program.rebuild_eq_rebuilding, ran]; rfl, overflows, fun math ts cells takes stored => ?_⟩
    exact overflows.results_fail valid takes stored.typed math
  | ok result =>
    obtain ⟨q, r⟩ := result
    simp only [ran] at met
    obtain ⟨images, graph, needed⟩ := images_of_rebuilding valid ran
    refine .inr ⟨q, r, rfl, by rw [run, Program.rebuild_eq_rebuilding, ran]; rfl, fun v needs => ?_, ?_, ?_⟩
    · obtain ⟨w, image⟩ := needed v needs
      refine ⟨w, image, fun ts cells takes stored => ?_⟩
      obtain ⟨rebuilt, mirrors, -⟩ := met ts cells
      rw [rebuilt.value_eq, graph]
      exact mirrors.value ⟨takes, stored⟩ image
    · obtain ⟨any, -, -⟩ := met [] #[]
      refine Program.sameResults_of_values valid any.valid any.interface ?_
        (fun ts cells takes stored => (met ts cells).1.sameValues ⟨takes, stored⟩)
        fun ts cells takes stored => (met ts cells).1.calm_eq ⟨takes, stored⟩
      rintro cells stored c (held | held) <;> exact stored.typed c held
    · intro w x t atW
      exact images.constant (graph ▸ atW)

/-- The sum of two vectors, its sign changed twice, times the square of a constant, and the sum with its operands
exchanged. -/
def scaledSums : Program :=
  let x := ((Graph.empty .f32).input { kind := .i32, rank := 1 } none).1
  let y := (x.input { kind := .i32, rank := 1 } none).1
  let three := (y.constant (.scalar (3 : Elem .i32))).1
  let sum := (three.apply (.binary .add) [0, 1]).1
  let negated := (sum.apply (.unary .neg) [3]).1
  let again := (negated.apply (.unary .neg) [4]).1
  let square := (again.apply (.binary .mul) [2, 2]).1
  let scaled := (square.apply (.binary .mul) [5, 6]).1
  ⟨(scaled.apply (.binary .add) [1, 0]).1, [0, 1], [7, 8], []⟩

theorem built_scaledSums : scaledSums.graph.Built :=
  .apply (.apply (.apply (.apply (.apply (.apply (.constant (.input (.input (.empty _) _ _) _ _) _)
    _ _) _ _) _ _) _ _) _ _) _ _

section

open scoped BlockRoutine

/-- The sums are one node, and so are they with the sign changed twice; the square is a constant. The results are the
same. -/
theorem canonical_keeps_values_scaledSums : ∃ q r results,
    scaledSums.rebuilding (step (.first (.sim 0)) scaledSums) = .ok (q, r) ∧
    run (.first (.sim 0)) scaledSums = .ok q ∧ (scaledSums.nodeCount, q.nodeCount) = (6, 3) ∧
    [3, 5, 8].map r.image = [some 2, some 2, some 2] ∧
    scaledSums.results {} [.vector ⟨.i32, #[1, -2]⟩, .vector ⟨.i32, #[10, 20]⟩] #[] = .ok results ∧
    q.results {} [.vector ⟨.i32, #[1, -2]⟩, .vector ⟨.i32, #[10, 20]⟩] #[] = .ok results := by
  have ints : scaledSums.graph.vars.all fun x => !x.ty.kind.isFloat := by decide +kernel
  have runs : (run (.first (.sim 0)) scaledSums).isOk := by decide +kernel
  obtain ⟨q, r, ran, canonical, -, same, -⟩ := (canonical_keeps_values (c := .first (.sim 0))
    built_scaledSums.arises (by decide +kernel) rfl fun n _ v _ x atV float => by
      have int := Array.all_eq_true_iff_forall_mem.mp ints x (Array.mem_of_getElem? atV)
      simp [float] at int).resolve_left fun failed => by simp [failed.1, Except.isOk, Except.toBool] at runs
  have sizes : (scaledSums.rebuilding (step (.first (.sim 0)) scaledSums)).toOption.map
      (fun made => (made.1.nodeCount, [3, 5, 8].map made.2.image)) = some (3, [some 2, some 2, some 2]) := by
    decide +kernel
  simp only [ran, Except.toOption, Option.map_some, Option.some.injEq, Prod.mk.injEq] at sizes
  obtain ⟨results, given⟩ := exists_of_isOk
    (r := scaledSums.results {} [.vector ⟨.i32, #[1, -2]⟩, .vector ⟨.i32, #[10, 20]⟩] #[]) (by decide +kernel)
  have takes : scaledSums.Takes [.vector ⟨.i32, #[1, -2]⟩, .vector ⟨.i32, #[10, 20]⟩] := rfl
  exact ⟨q, r, results, ran, canonical, Prod.ext rfl sizes.1, sizes.2, given,
    same.of_ok takes (Program.stored_of_no_cells (by decide +kernel) _) given⟩

/-- The product of the two constants is not folded, nor is it left as it is. -/
theorem no_canonical_form_hugeProduct : Program.hugeProduct.graph.Arises ∧ Program.hugeProduct.validate = .ok () ∧
    run (.first (.sim 0)) .hugeProduct = .error .crash :=
  ⟨Program.built_hugeProduct.arises, by decide +kernel, eq_error_of_failure (by decide +kernel)⟩

end

end Canonical

end TensorGraph
