import Mathlib.Data.List.Nodup
import TensorGraph.Proofs.Executable.Progress

/-! The start of a call. Arguments, constants and persistent values are bound to their slots, and nothing else is
touched. -/
namespace TensorGraph

open Checked TensorGraph.Action

namespace Course

variable {r : Course} {scope : Scope} {l : Layout} {ext : Key → Nat} {a a' : Activation} {bound : List Site}

variable [BlockRoutine]

/-- A call that has bound some of its leaves. -/
structure Opened (r : Course) (ext : Key → Nat) (bound : List Site) (a : Activation) : Prop
    extends r.Runs ext a where
  counts : a.frame.counts = r.schedule.reads
  silent : r.start.Lasts a.machine False
  keeps : r.schedule.Keeps r.context a
  bound : ∀ x ∈ bound, ∃ t, r.value x.var = some t ∧ a.frame.buffer? x.slot = some (.borrowed t.data) ∧
    a.frame.shapes[x.var]?.join = some t.shape

namespace Fits

section Values

/-- An argument is the value of its input. -/
theorem input_value (fits : r.Fits scope l) {x : Site} {t : Tensor}
    (member : (x, t) ∈ (r.schedule.inputs.map Prod.fst).zip r.args) :
    x ∈ r.schedule.leafSites ∧ r.value x.var = some t := by
  obtain ⟨i, inZip, same⟩ := List.mem_iff_getElem.mp member
  rw [List.getElem_zip, Prod.mk.injEq] at same
  obtain ⟨atSite, atArg⟩ := same
  rw [List.length_zip, Nat.lt_min] at inZip
  have inInputs : i < r.schedule.program.inputs.length := by
    rw [fits.laid.inputs.length_eq]
    simpa using inZip.1
  have site : x.var = r.schedule.program.inputs[i] := by
    have here := (fits.laid.inputs.get inInputs (by simpa using inZip.1)).1.1
    rw [← atSite, List.getElem_map]
    exact here
  obtain ⟨y, atV, origin⟩ := fits.laid.valid.inputs x.var (site ▸ List.getElem_mem inInputs)
  refine ⟨?_, ?_⟩
  · refine List.mem_append_left _ (List.mem_append_left _ ?_)
    rw [← atSite]
    exact List.getElem_mem _
  · have position : r.schedule.program.inputs.idxOf? x.var = some i := by
      rw [site]
      refine List.idxOf?_eq_some_iff.mpr ⟨inInputs, by simp, fun j before => ?_⟩
      have inInputs' := Nat.lt_trans before inInputs
      have apart : r.schedule.program.inputs[j] = r.schedule.program.inputs[i] ↔ j = i :=
        List.Nodup.getElem_inj_iff fits.laid.valid.distinct
      simpa [apart] using Nat.ne_of_lt before
    refine (Graph.value_leaf atV (by simp [Var.isLeaf, origin])).trans ?_
    rw [origin, Origin.value?, Program.bind]
    simp only [position, Option.bind_some, List.getElem?_eq_getElem inZip.2, atArg]

theorem constant_value (fits : r.Fits scope l) {x : Site} {t : Tensor} (member : (x, t) ∈ r.schedule.constants) :
    x ∈ r.schedule.leafSites ∧ r.value x.var = some t := by
  refine ⟨List.mem_append_left _ (List.mem_append_right _ (List.mem_map.mpr ⟨_, member, rfl⟩)), ?_⟩
  obtain ⟨y, atV, -, found⟩ := fits.laid.constants.mp member
  cases origin : y.origin with
  | constant u =>
    obtain rfl : u = t := by simpa [Var.constant?, origin] using found
    refine (Graph.value_leaf atV (by simp [Var.isLeaf, origin])).trans ?_
    rw [origin]
    rfl
  | _ => simp [Var.constant?, origin] at found

theorem cell_value (fits : r.Fits scope l) {x : Site} {c : Cell} (member : (x, c) ∈ r.schedule.cells) :
    x ∈ r.schedule.leafSites ∧ r.value x.var = some (r.start.cells.getD c.id default) := by
  refine ⟨List.mem_append_right _ (List.mem_map.mpr ⟨_, member, rfl⟩), ?_⟩
  obtain ⟨y, atV, -, found⟩ := fits.laid.cells.mp member
  cases origin : y.origin with
  | shared u =>
    obtain rfl : u = c := by simpa [Var.cell?, origin] using found
    refine (Graph.value_leaf atV (by simp [Var.isLeaf, origin])).trans ?_
    rw [origin]
    rfl
  | _ => simp [Var.cell?, origin] at found

end Values

end Fits

/-- A leaf is bound to its value. -/
theorem Opened.bind_meets (fits : r.Fits scope l) (opened : r.Opened ext bound a) {x : Site} {t : Tensor}
    (leaf : x ∈ r.schedule.leafSites) (value : r.value x.var = some t) {fails : Error → Activation → Prop}
    (leaves : bound ⊆ r.schedule.leafSites) :
    (Calling.bind x t).Meets a fails fun _ a' => r.Opened ext (bound ++ [x]) a' := by
  obtain ⟨y, atV, isLeaf, slot, -⟩ := fits.laid.mem_leafSites.mp leaf
  have inside : x.slot < a.frame.slots.size := by
    rw [opened.slots, fits.laid.slotCount_eq]
    exact fits.laid.fair.inRange slot
  have inRange : x.var < a.frame.shapes.size := by
    rw [opened.shapes]
    exact (Array.getElem?_eq_some_iff.mp atV).1
  unfold Calling.bind
  rw [meets_bind]
  refine (Calling.put_meets opened.tidy inside (some (.borrowed t.data)) (fun k => rfl)
    fun r' wrong => by cases wrong).post ?_
  rintro _ a₁ ⟨tidy, steps, at_, -, -⟩
  have runs := opened.toRuns.steps steps tidy fun _ => steps.lasts
  have keeps : r.schedule.Keeps r.context a₁ := by
    refine keeps_beside opened.keeps steps fun cmd member kept same => ?_
    -- The slot of a leaf is for the leaf only.
    have sited := fits.laid.output_sited member
    rw [same] at sited
    have isX := fits.laid.leaf_alone leaf sited
    obtain ⟨done, rest, split⟩ := List.append_of_mem member
    exact absurd (.inl ⟨x, leaf, isX.symm⟩) (fits.laid.fresh split)
  unfold Calling.onFrame
  rw [meets_modify]
  refine ⟨{ runs with tidy := tidy.reframed rfl, shapes := ?_ }, ?_, ?_, keeps_reframed keeps rfl, ?_⟩
  · rw [Array.size_setIfInBounds]
    exact runs.shapes
  · exact steps.counts.trans opened.counts
  · exact (opened.silent.trans steps.lasts).mono (Or.rec id id)
  · intro z member
    have isIt : z.var = x.var → z.slot = x.slot → ∃ u, r.value z.var = some u ∧
        a₁.frame.buffer? z.slot = some (.borrowed u.data) ∧
        (a₁.frame.shapes.setIfInBounds x.var (some t.shape))[z.var]?.join = some u.shape := by
      intro sameVar sameSlot
      rw [sameVar, sameSlot]
      refine ⟨t, value, at_, ?_⟩
      rw [steps.shapes]
      simp [inRange]
    rcases List.mem_append.mp member with old | new
    · obtain ⟨z', atZ, -, slotZ, -⟩ := fits.laid.mem_leafSites.mp (leaves old)
      by_cases same : z.slot = x.slot
      · exact isIt (fits.laid.leaf_alone leaf (slotZ.trans (congrArg some same))) same
      · obtain ⟨u, valueZ, bufferZ, shapeZ⟩ := opened.bound z old
        have other : x.var ≠ z.var := fun equal => same (by
          rw [equal, slotZ] at slot
          exact Option.some.inj slot)
        refine ⟨u, valueZ, (steps.others _ same).trans bufferZ, ?_⟩
        rw [Array.getElem?_setIfInBounds_ne other, steps.shapes]
        exact shapeZ
    · have same := List.mem_singleton.mp new
      exact isIt (congrArg Site.var same) (congrArg Site.slot same)

/-- Leaves are bound one after the other. -/
theorem Opened.bindAll_meets {α : Type} (fits : r.Fits scope l) (xs : List (Site × α)) (opened : r.Opened ext bound a)
    {f : Site × α → Calling Unit} {fails : Error → Activation → Prop}
    (leaves : bound ⊆ r.schedule.leafSites)
    (each : ∀ e ∈ xs, e.1 ∈ r.schedule.leafSites ∧ ∀ a₁, r.start.Lasts a₁.machine False →
      ∃ t, r.value e.1.var = some t ∧ ∀ post, (Calling.bind e.1 t).Meets a₁ fails post → (f e).Meets a₁ fails post) :
    (xs.forM f).Meets a fails fun _ a' => r.Opened ext (bound ++ xs.map Prod.fst) a' := by
  refine meets_forM (fun before _ a' => r.Opened ext (bound ++ before.map Prod.fst) a') _ (by simpa using opened)
    ?_ fun _ held => held
  intro before e after a₁ whole opened₁
  obtain ⟨leaf, bind⟩ := each e (by rw [whole]; simp)
  obtain ⟨t, value, runs⟩ := bind a₁ opened₁.silent
  have more : bound ++ before.map Prod.fst ⊆ r.schedule.leafSites := by
    refine List.append_subset.mpr ⟨leaves, fun x member => ?_⟩
    obtain ⟨e', inBefore, rfl⟩ := List.mem_map.mp member
    exact (each e' (by rw [whole]; exact List.mem_append_left _ inBefore)).1
  refine runs _ ((opened₁.bind_meets fits leaf value more).post fun _ a' opened' => ?_)
  simpa [List.append_assoc] using opened'

/-- Once all leaves are bound, the commands can run. -/
theorem Opened.midway (fits : r.Fits scope l) (opened : r.Opened ext bound a)
    (all : ∀ x ∈ r.schedule.leafSites, x ∈ bound) : r.Midway ext [] r.schedule.commands a := by
  have leafOf : ∀ {v : VarId}, r.schedule.There [] v → ∃ x ∈ r.schedule.leafSites, x.var = v := by
    rintro v (leaf | ⟨cmd, none, -⟩)
    · exact leaf
    · cases none
  have at_leaf : ∀ x, r.schedule.There [] x.var → r.schedule.Needed r.schedule.commands x → ∃ y ∈ r.schedule.leafSites,
      y.var = x.var ∧ ∃ t, r.value x.var = some t ∧ a.frame.buffer? x.slot = some (.borrowed t.data) := by
    intro x there needed
    obtain ⟨y, leaf, same⟩ := leafOf there
    obtain ⟨t, value, at_, -⟩ := opened.bound y (all y leaf)
    obtain ⟨-, -, -, slotY, -⟩ := fits.laid.mem_leafSites.mp leaf
    have slotX := fits.laid.needed_sited (List.Subset.refl _) needed
    rw [same, slotX, Option.some.injEq] at slotY
    rw [same] at value
    rw [← slotY] at at_
    exact ⟨y, leaf, same, t, value, at_⟩
  refine ⟨opened.toRuns, fun v there => ?_, fun x there needed => ?_, opened.keeps, fun id blamed => ?_,
    fun x b there needed at_ tainted => ?_⟩
  · obtain ⟨x, leaf, rfl⟩ := leafOf there
    obtain ⟨t, value, -, shape⟩ := opened.bound x (all x leaf)
    exact ⟨t, value, shape⟩
  · obtain ⟨y, leaf, same, t, value, at_⟩ := at_leaf x there needed
    refine ⟨.borrowed t.data, at_, t, .host, value, same ▸ fits.leaf_placed leaf, rfl, rfl, fun _ => ?_⟩
    exact ⟨t.data, rfl, .refl _⟩
  · -- The launches of the call are yet to come.
    obtain ⟨k, later, failed⟩ := (opened.silent.blamed id _ blamed).resolve_right fun loud => loud
    have unknown : (r.start.accelerator id).failure? k = none := by
      unfold Accelerator.failure?
      rw [Array.getElem?_eq_none later]
      rfl
    rw [unknown] at failed
    cases failed
  · obtain ⟨-, -, -, t, -, borrowed⟩ := at_leaf x there needed
    obtain rfl := Option.some.inj (borrowed.symm.trans at_)
    cases tainted

/-- A call starts with its leaves bound and all reads to come. -/
theorem begin_meets (fits : r.Fits scope l) (settled : r.schedule.Settled r.context ext a)
    (same : a.machine = r.start) (usable : a.frame.poisoned = none) {fails : Error → Activation → Prop} :
    (Calling.begin r.schedule r.args).Meets a fails fun _ a' =>
      r.Midway ext [] r.schedule.commands a' ∧ Counts r.schedule.commands [] a' := by
  have whole : ∀ (f : Frame), f.slots = a.frame.slots → f.shapes.size = a.frame.shapes.size →
      f.poisoned = a.frame.poisoned → f.counts = r.schedule.reads → r.Opened ext [] { a with frame := f } := by
    intro f slots shapes poisoned counts
    refine ⟨⟨settled.tidy.reframed slots, (congrArg Array.size slots).trans settled.slots,
      shapes.trans settled.shapes, poisoned.trans usable, ?_, fun _ => ?_, fun k _ => by rw [same]⟩, counts, ?_,
      keeps_reframed settled.keeps slots, fun x none => by cases none⟩
    · rw [same]
      exact (Machine.Lasts.refl _).mono False.elim
    · rw [same]
      exact .refl _
    · rw [same]
      exact .refl _
  have lengths : r.schedule.inputs.length = r.args.length :=
    fits.laid.inputs.length_eq.symm.trans fits.takes.length_eq
  unfold Calling.begin Calling.enter Calling.count Calling.onFrame
  rw [meets_bind, meets_modify, meets_bind, meets_modify, meets_bind, meets_modify, meets_bind]
  refine (Opened.bindAll_meets fits _ (whole _ ?_ ?_ ?_ ?_) (List.nil_subset _) fun e member => ?_).post ?_
  · rfl
  · simp
  · rfl
  · rfl
  · obtain ⟨leaf, value⟩ := fits.input_value member
    exact ⟨leaf, fun a₁ _ => ⟨e.2, value, fun _ met => met⟩⟩
  rintro _ a₁ opened₁
  have inputs : [] ++ ((r.schedule.inputs.map Prod.fst).zip r.args).map Prod.fst = r.schedule.inputs.map Prod.fst := by
    rw [List.nil_append, List.map_fst_zip]
    simp [lengths]
  rw [inputs] at opened₁
  rw [meets_bind]
  refine (opened₁.bindAll_meets fits r.schedule.constants (fun x member => ?_) fun e member => ?_).post ?_
  · exact List.mem_append_left _ (List.mem_append_left _ member)
  · obtain ⟨leaf, value⟩ := fits.constant_value member
    exact ⟨leaf, fun a₂ _ => ⟨e.2, value, fun _ met => met⟩⟩
  rintro _ a₂ opened₂
  refine (opened₂.bindAll_meets fits r.schedule.cells (fun x member => ?_) fun e member => ?_).post ?_
  · exact List.mem_append_left _ member
  · obtain ⟨leaf, value⟩ := fits.cell_value member
    refine ⟨leaf, fun a₃ lasts => ⟨_, value, fun post met => ?_⟩⟩
    have read : e.2.read.Meets a₃.machine (fun _ _ => False) fun t m =>
        m = a₃.machine ∧ t = r.start.cells.getD e.2.id default := by
      unfold Cell.read
      rw [meets_bind, meets_get, meets_pure, lasts.cells]
      exact ⟨rfl, rfl⟩
    rw [meets_bind]
    refine Calling.onMachine_meets read (fun _ _ => False.elim) ?_
    rintro t m ⟨rfl, rfl⟩
    exact met
  rintro _ a₃ opened₃
  refine ⟨opened₃.midway fits fun x leaf => leaf, fun slot => ?_⟩
  rw [opened₃.counts, fits.laid.reads_at]
  simp

end Course

end TensorGraph
