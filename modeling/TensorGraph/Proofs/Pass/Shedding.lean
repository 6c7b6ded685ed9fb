import TensorGraph.Proofs.Pass.Carried
import TensorGraph.Proofs.Pass.Interface
import TensorGraph.Proofs.Pass.Meaning

/-! Fewer transfers, the same results. What reads a value that goes back and forth reads the value that is there
already, and every output and new value is still where it was. -/
namespace TensorGraph

open Checked

namespace Rebuild

variable {r : Rebuild} {p q : Program}

/-- Images that are where the variables are make a program whose roots are where they were. -/
theorem Stays.roots (stays : r.Stays p) (graph : q.graph = r.graph)
    (outputs : List.Forall₂ (fun v w => r.image v = some w) p.outputs q.outputs)
    (updates : List.Forall₂ (fun u u' => r.image u.1 = some u'.1 ∧ r.image u.2 = some u'.2) p.updates q.updates) :
    p.roots.map p.graph.placeOf = q.roots.map q.graph.placeOf := by
  have same : ∀ {v w : VarId}, r.image v = some w → p.graph.placeOf v = q.graph.placeOf w := by
    intro v w image
    obtain ⟨l, here, there⟩ := stays v w image
    rw [here, graph, there]
  have values : List.Forall₂ (fun v w => r.image v = some w) (p.updates.map Prod.snd) (q.updates.map Prod.snd) := by
    rw [List.forall₂_map_left_iff, List.forall₂_map_right_iff]
    exact updates.imp fun _ _ images => images.2
  rw [Program.roots, Program.roots, List.map_append, List.map_append, Program.map_eq_of_images outputs same,
    Program.map_eq_of_images values same]

end Rebuild

/-- A copy of a program has its roots where they were. -/
theorem Program.Located.prune_roots {p q : Program} (located : p.Located) (pruned : p.prune = .ok q) :
    p.roots.map p.graph.placeOf = q.roots.map q.graph.placeOf := by
  obtain ⟨r, carries, graph, -, outputs, updates⟩ := rebuild_keeps (fun done r => r.Carries p done) (.start p)
    (Rebuild.Carries.copying located) located.copy pruned
  exact carries.stays.roots graph outputs updates

/-- What placement makes of a program that a caller can have. -/
structure Placement.Placed (c : Context) (q : Program) : Prop where
  valid : q.Valid (.ruled c.within True)
  located : q.Located

theorem Placement.placed_of_run {c : Context} {p q : Program} (arises : p.graph.Arises)
    (accepted : p.validate = .ok ()) (ran : run c p = .ok q) : Placed c q := by
  have moved : ∀ {dest : Location}, c.Reaches dest → c.within (.transferTo dest) (some dest) :=
    fun reaches l same => Option.some.inj same ▸ reaches
  have computed : ∀ {op : Op} {l : Location}, ¬ op.isTransfer → c.Reaches l → c.within op (some l) :=
    fun _ reaches l same => Option.some.inj same ▸ reaches
  have follows := run_reaches moved computed (Program.valid_of_arises arises accepted) fun _ _ _ _ _ => True.intro
  rw [ran] at follows
  exact ⟨follows.valid, run_located (Program.computed_of_validate accepted) ran⟩

namespace Transfers

variable {c : Context} {p q r : Program}

/-- A round leaves all roots where they are. -/
theorem sweep_roots (located : p.Located) (swept : sweep c p = .ok q) :
    p.roots.map p.graph.placeOf = q.roots.map q.graph.placeOf := by
  obtain ⟨next, built, pruned⟩ := bind_eq_ok.mp swept
  obtain ⟨middle, s, kept, graph, outputs, updates⟩ := rebuild_located located built
  exact (kept.stays.roots graph outputs updates).trans (middle.prune_roots pruned)

theorem run_roots (located : p.Located) (ran : run c p = .ok q) :
    p.roots.map p.graph.placeOf = q.roots.map q.graph.placeOf := by
  have sweeps : ∀ {q q' : Program}, q.Located ∧ p.roots.map p.graph.placeOf = q.roots.map q.graph.placeOf →
      sweep c q = .ok q' → q'.Located ∧ p.roots.map p.graph.placeOf = q'.roots.map q'.graph.placeOf :=
    fun held swept => ⟨sweep_located held.1 swept, held.2.trans (sweep_roots held.1 swept)⟩
  exact (keeps_of_run sweeps ⟨located, rfl⟩ ran).2

theorem sheds_storing (stores : Cell → Prop) : Sheds (.storing stores) where
  congruent _ _ _ := trivial
  again _ _ _ := trivial
  layout _ _ _ _ _ _ := trivial

/-- A round keeps the interface and all values, whatever context it is for. -/
theorem sweep_refines [BlockRoutine] {stores : Cell → Prop} (valid : p.Valid (.storing stores)) (swept : sweep c p = .ok q)
    (math : MathMode) (ts : List Tensor) (cells : Array Tensor) : p.Refines q (.storing stores) math ts cells True := by
  have tabled : p.Tabled c True := fun _ _ _ _ => .inr trivial
  have met := sweep_meets (sheds_storing stores) valid tabled math ts cells
  rw [swept] at met
  obtain ⟨middle, rebuilt, pruned⟩ := met
  exact rebuilt.refines.trans pruned.refines

theorem run_refines [BlockRoutine] {stores : Cell → Prop} (valid : p.Valid (.storing stores)) (ran : run c p = .ok q)
    (math : MathMode) (ts : List Tensor) (cells : Array Tensor) : p.Refines q (.storing stores) math ts cells True := by
  have sweeps : ∀ {q q' : Program}, p.Refines q (.storing stores) math ts cells True → sweep c q = .ok q' →
      p.Refines q' (.storing stores) math ts cells True :=
    fun refines swept => refines.trans (sweep_refines refines.valid swept math ts cells)
  exact keeps_of_run sweeps (.refl valid math ts cells True) ran

theorem exists_run (context : c.Built) (placed : Placement.Placed c q) : ∃ r, run c q = .ok r := by
  have follows := run_follows context.keeps_within placed.valid
  cases ran : run c q with
  | ok r => exact ⟨r, rfl⟩
  | error e =>
    rw [ran] at follows
    exact follows.elim

/-- The removal of transfers does not fail on what placement made for a context. Whatever context it is for, it keeps
the interface of a placed program, the value of each output and each update on any arguments, hence what the program
means, and where these values are. -/
theorem removal_keeps_meaning [BlockRoutine] (arises : p.graph.Arises) (accepted : p.validate = .ok ()) (context : c.Built)
    (placed : Placement.run c p = .ok q) : (∃ r, run c q = .ok r) ∧ ∀ c' r, run c' q = .ok r →
      q.SameInterface r ∧ (∀ math ts cells, q.SameValues r math ts cells) ∧ q.SameMeaning r ∧
        q.roots.map q.graph.placeOf = r.roots.map r.graph.placeOf := by
  have placed := Placement.placed_of_run arises accepted placed
  refine ⟨exists_run context placed, fun c' r ran => ?_⟩
  have valid := placed.valid.storing trivial
  have refines := run_refines valid ran
  have any := refines {} [] #[]
  have values : ∀ math ts cells, q.SameValues r math ts cells := fun math ts cells =>
    (refines math ts cells).values trivial
  refine ⟨any.interface, values, ?_, run_roots placed.located ran⟩
  refine Program.sameMeaning_of_values valid any.valid any.interface ?_ (fun math ts cells _ _ => values math ts cells)
    fun math ts cells _ _ => (refines math ts cells).calm trivial
  rintro cells stored c (held | held) <;> exact stored.typed c held

/-- A product of two matrices of integers, transposed and multiplied with the first one. The simulated accelerator
transposes integers, but does not multiply matrices of them. -/
def transposedProduct : Program :=
  let first := ((Graph.empty .f32).input { kind := .i32, rank := 2 } none).1
  let both := (first.input { kind := .i32, rank := 2 } none).1
  let product := (both.apply .matmul [0, 1]).1
  let turned := (product.apply (.transpose [1, 0]) [2]).1
  ⟨(turned.apply .matmul [3, 0]).1, [0, 1], [4], []⟩

theorem built_transposedProduct : transposedProduct.graph.Built :=
  .apply (.apply (.apply (.input (.input (.empty _) _ _) _ _) _ _) _ _) _ _

/-- A row and a column of integers. -/
def rowAndColumn : List Tensor := [⟨[1, 2], ⟨.i32, #[1, 2]⟩, rfl, rfl⟩, ⟨[2, 1], ⟨.i32, #[3, 4]⟩, rfl, rfl⟩]

section

open scoped BlockRoutine

/-- Both transfers go, the transposition is done on the host, and the product is the same. -/
theorem removal_keeps_meaning_transposedProduct : ∃ q r results,
    Placement.run (.first (.sim 0) .silent) transposedProduct = .ok q ∧ run (.first (.sim 0) .silent) q = .ok r ∧
    (q.nodeCount, q.transferCount) = (5, 2) ∧ (r.nodeCount, r.transferCount) = (3, 0) ∧
    q.results {} rowAndColumn #[] = .ok results ∧ r.results {} rowAndColumn #[] = .ok results := by
  have accepted : transposedProduct.validate = .ok () := by decide +kernel
  obtain ⟨q, placed⟩ := exists_of_isOk (r := Placement.run (.first (.sim 0) .silent) transposedProduct) (by decide +kernel)
  obtain ⟨⟨r, ran⟩, keeps⟩ := removal_keeps_meaning built_transposedProduct.arises accepted
    Context.built_first placed
  obtain ⟨-, -, same, -⟩ := keeps _ r ran
  have sizes : (Placement.run (.first (.sim 0) .silent) transposedProduct).toOption.map (fun q =>
      ((q.nodeCount, q.transferCount), (run (.first (.sim 0) .silent) q).toOption.map fun r =>
        (r.nodeCount, r.transferCount))) = some ((5, 2), some (3, 0)) := by decide +kernel
  have types : (Placement.run (.first (.sim 0) .silent) transposedProduct).toOption.map (fun q =>
      (q.inputs.map q.typeOf, q.graph.vars.all (·.cell?.isNone), (q.results {} rowAndColumn #[]).isOk)) =
      some (rowAndColumn.map fun t => some (t.kind, t.rank), true, true) := by decide +kernel
  rw [placed] at sizes types
  simp only [Except.toOption, Option.map_some, ran, Option.some.injEq, Prod.mk.injEq] at sizes types
  obtain ⟨sizes, sizes'⟩ := sizes
  obtain ⟨takes, none, given⟩ := types
  obtain ⟨results, given⟩ := exists_of_isOk given
  exact ⟨q, r, results, placed, ran, Prod.ext sizes.1 sizes.2, Prod.ext sizes'.1 sizes'.2, given,
    same.of_ok takes (Program.stored_of_no_cells none _) given⟩

end

end Transfers

end TensorGraph
