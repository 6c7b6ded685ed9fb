import Mathlib.Algebra.GroupWithZero.Nat
import Mathlib.Algebra.Order.BigOperators.Group.List
import Mathlib.Algebra.Order.Group.Nat
import TensorGraph.Proofs.Executable.Begin

/-! The end of a call. Results are read or handed out, then the new values are written; after a failure the slots
are empty and no persistent value has changed. -/
namespace TensorGraph

open Checked TensorGraph.Action

/-- Holders that a result stands for. -/
def Output.holds (o : Output) (k : Key) : Nat :=
  match o with
  | .host _ => 0
  | .borrowed h => Buffer.hold (some h.buffer) k

/-- Holders that some results stand for. -/
def Output.holdsAll (os : List Output) (k : Key) : Nat := (os.map fun o => o.holds k).sum

/-- The result is a tensor, or a handle on a buffer that carries it, valid for the given call. -/
def Output.Gives (o : Output) (c : Context) (m : Machine) (f : ExecutableId) (call : Nat) (borrow : Bool)
    (t : Tensor) : Prop :=
  match o with
  | .host u => borrow = false ∧ u = t
  | .borrowed h => borrow = true ∧ c.Owns h.device ∧ m.Carries h.buffer h.device t ∧ h.shape = t.shape ∧
      h.executable = f ∧ h.call = call

namespace Output

theorem Gives.of_sees {o : Output} {c : Context} {m m' : Machine} {f : ExecutableId} {call : Nat} {borrow : Bool}
    {t : Tensor} (gives : o.Gives c m f call borrow t) (sees : ∀ k, 0 < o.holds k → m'.sees k = m.sees k) :
    o.Gives c m' f call borrow t := by
  cases o with
  | host u => exact gives
  | borrowed h =>
    obtain ⟨borrows, owns, carries, rest⟩ := gives
    refine ⟨borrows, owns, carries.of_sees fun k isIn => sees k ?_, rest⟩
    rw [holds, Buffer.hold, isIn]
    exact Nat.zero_lt_one

theorem holds_le {os : List Output} {o : Output} (member : o ∈ os) (k : Key) : o.holds k ≤ holdsAll os k :=
  List.le_sum_of_mem (List.mem_map.mpr ⟨o, member, rfl⟩)

/-- Handing out results adds their holders. -/
theorem retained {os : List Output} {m : Machine}
    (known : ∀ o ∈ os, ∀ h, o = .borrowed h → ∀ r, h.buffer = .owned r → m.Has r.device ∧ m.Backs r) :
    m.Lasts (os.foldl (fun m o => o.retain m) m) False ∧
      (∀ k, (os.foldl (fun m o => o.retain m) m).held k = m.held k + holdsAll os k) ∧
      ∀ k, (os.foldl (fun m o => o.retain m) m).sees k = m.sees k := by
  induction os generalizing m with
  | nil => exact ⟨.refl m, fun k => rfl, fun k => rfl⟩
  | cons o os ih =>
    obtain ⟨lasts, held, sees⟩ : m.Lasts (o.retain m) False ∧
        (∀ k, (o.retain m).held k = m.held k + o.holds k) ∧ ∀ k, (o.retain m).sees k = m.sees k := by
      cases o with
      | host t => exact ⟨.refl m, fun k => rfl, fun k => rfl⟩
      | borrowed h => exact m.retained_spec (known _ (by simp) h rfl)
    obtain ⟨lasts', held', sees'⟩ := ih (m := o.retain m) fun o' member h isIt r owned => by
      obtain ⟨has, backs⟩ := known o' (List.mem_cons_of_mem _ member) h isIt r owned
      exact ⟨lasts.has has, backs.of_sees (sees _)⟩
    refine ⟨(lasts.trans lasts').mono (Or.rec id id), fun k => ?_, fun k => (sees' k).trans (sees k)⟩
    rw [List.foldl_cons, held', held, holdsAll, holdsAll, List.map_cons, List.sum_cons, Nat.add_assoc]

end Output

/-- A buffer is read as the tensor that it carries, unless it is the trace of a failure. -/
theorem Device.materialize_meets {m : Machine} (sane : m.Sane) {d : Device} {b : Buffer} {t : Tensor} (has : m.Has d)
    (carries : m.Carries b d t) : (d.materialize b t.shape).Meets m (m.Refused d)
      fun u m' => u = t ∧ m.taints b = false ∧ m.Alters m' (fun _ => False) False := by
  obtain ⟨whole, contents⟩ := Option.isSome_iff_exists.mp carries.full
  have taken : m.taints b = false → whole.take t.shape.volume = .ok t.data := fun clean => by
    obtain ⟨data, same, begins⟩ := carries.begins clean
    obtain rfl : whole = data := Option.some.inj (contents.symm.trans same)
    rw [← t.size_eq]
    exact begins.take
  unfold Device.materialize
  rw [meets_bind]
  refine (Device.download_meets sane carries.on has contents taken).post ?_
  rintro _ m' ⟨rfl, alters, clean⟩
  rw [meets_lift, Tensor.make_of_size t.size_eq t.fits]
  exact ⟨rfl, clean, alters⟩

namespace Course

variable {r : Course} {scope : Scope} {l : Layout} {ext : Key → Nat} {a a' : Activation} {done rest : List Command}

variable [BlockRoutine]

/-- What altered no block is part of the call. -/
theorem Midway.quietly (mid : r.Midway ext done rest a) {m : Machine}
    (alters : a.machine.Alters m (fun _ => False) False) : r.Midway ext done rest { a with machine := m } := by
  have taints : ∀ b, m.taints b = a.machine.taints b := fun b =>
    (Machine.contents_congr fun k _ => alters.sees fun inside => inside).2
  refine ⟨mid.toRuns.steps (.quiet alters ext 0) (mid.tidy.quiet alters) fun _ => alters.toLasts, mid.known,
    fun x there needed => ?_, fun cmd member kept b at_ => ?_, fun id blamed => ?_,
    fun x b there needed at_ tainted => ?_⟩
  · obtain ⟨b, shows_⟩ := mid.pending x there needed
    exact ⟨b, shows_.of_sees shows_.at_ fun k _ => alters.sees fun inside => inside⟩
  · obtain ⟨clean, shown⟩ := mid.keeps cmd member kept b at_
    refine ⟨(taints b).trans clean, fun args start => ?_⟩
    exact (shown args start).of_sees at_ fun k _ => alters.sees fun inside => inside
  · obtain ⟨x, b, there, needed, at_, tainted⟩ :=
      mid.alarm id ((alters.blamed id _ blamed).resolve_right fun loud => loud)
    exact ⟨x, b, there, needed, at_, (taints b).trans tainted⟩
  · obtain ⟨id, blamed⟩ := mid.traced x b there needed at_ ((taints b).symm.trans tainted)
    exact ⟨id, alters.recorded id _ blamed⟩

/-- What a slot holds is no trace of a failure. -/
def Clean (a : Activation) (x : Site) : Prop := ∀ b, a.frame.buffer? x.slot = some b → a.machine.taints b = false

/-- A result is at hand when the commands are done. -/
theorem Midway.root (fits : r.Fits scope l) (mid : r.Midway ext r.schedule.commands [] a) {x : Site}
    (root : x ∈ r.schedule.rootSites) : ∃ b t d, a.frame.buffer? x.slot = some b ∧ r.value x.var = some t ∧
      a.frame.shapes[x.var]?.join = some t.shape ∧ r.context.Owns d ∧ a.machine.Carries b d t := by
  have there := fits.laid.root_ready root
  obtain ⟨b, at_, t, d, value, placed, carries⟩ := mid.pending x there (.inl root)
  obtain ⟨u, value', shape⟩ := mid.known x.var there
  obtain rfl := Option.some.inj (value.symm.trans value')
  exact ⟨b, t, d, at_, value, shape, placed.1, carries⟩

/-- A value is read, and whoever reads the trace of a failure hears of it. -/
theorem Midway.toHost_meets (mid : r.Midway ext done rest a) {b : Buffer} {d : Device} {t : Tensor}
    (owns : r.context.Owns d) (carries : a.machine.Carries b d t) :
    (Calling.toHost r.context b t.shape).Meets a (fun e a' => r.Fails ext e a') fun u a' =>
      u = t ∧ a.machine.taints b = false ∧ r.Midway ext done rest a' ∧ a'.frame.slots = a.frame.slots ∧
        (∀ k, a'.machine.sees k = a.machine.sees k) := by
  have reads : ∀ stats, (Calling.onMachine (d.materialize b t.shape)).Meets
      { a with frame := { a.frame with stats } } (fun e a' => r.Fails ext e a') fun u a' =>
        u = t ∧ a.machine.taints b = false ∧ r.Midway ext done rest a' ∧ a'.frame.slots = a.frame.slots ∧
          (∀ k, a'.machine.sees k = a.machine.sees k) := by
    intro stats
    have mid' := mid.reframed (f := { a.frame with stats }) rfl rfl rfl
    refine Calling.onMachine_meets (Device.materialize_meets mid.tidy.sane (mid.tidy.has d owns) carries)
      (fun e m refused => (mid'.toRuns.halts (mid'.tidy.halts owns refused)).toFails) ?_
    rintro u m ⟨rfl, clean, alters⟩
    exact ⟨rfl, clean, mid'.quietly alters, rfl, fun k => alters.sees fun inside => inside⟩
  unfold Calling.toHost
  split
  · rw [meets_bind]
    refine Calling.count_meets _ fun stats => ?_
    rw [meets_bind, meets_lift, Calling.location_of_on owns carries.on]
    exact reads stats
  · rw [meets_bind, meets_lift, Calling.location_of_on owns carries.on]
    exact reads a.frame.stats

variable {f : ExecutableId} {call : Nat} {borrow : Bool}

/-- An output of the call: the value of its variable, or a handle on the buffer in its slot. -/
theorem Midway.output_meets (fits : r.Fits scope l) (mid : r.Midway ext r.schedule.commands [] a) {x : Site}
    (root : x ∈ r.schedule.rootSites) : (Calling.output r.context f borrow call x).Meets a
      (fun e a' => r.Fails ext e a') fun o a' => r.Midway ext r.schedule.commands [] a' ∧
        a'.frame.slots = a.frame.slots ∧ (∀ k, a'.machine.sees k = a.machine.sees k) ∧
        (∃ t, r.value x.var = some t ∧ o.Gives r.context a'.machine f call borrow t) ∧
        (∀ h, o = .borrowed h → a.frame.buffer? x.slot = some h.buffer) ∧ (borrow = false → Clean a x) := by
  obtain ⟨b, t, d, at_, value, shape, owns, carries⟩ := mid.root fits root
  unfold Calling.output
  rw [meets_bind]
  refine (Calling.buffer_meets at_).post ?_
  rintro _ a₁ ⟨rfl, rfl⟩
  rw [meets_bind]
  refine (Calling.shape_meets shape).post ?_
  rintro _ a₁ ⟨rfl, rfl⟩
  cases borrow with
  | true =>
    simp only [↓reduceIte]
    rw [meets_bind, meets_lift, Calling.location_of_on owns carries.on]
    simp only [meets_pure]
    refine ⟨mid, trivial, fun _ => trivial, ⟨t, value, rfl, owns, carries, rfl, rfl, rfl⟩, ?_, ?_⟩
    · rintro h ⟨⟩
      exact at_
    · rintro ⟨⟩
  | false =>
    simp only [Bool.false_eq_true, ↓reduceIte]
    rw [meets_bind]
    refine (mid.toHost_meets owns carries).post ?_
    rintro _ a' ⟨rfl, clean, mid', slots, sees⟩
    rw [meets_pure]
    refine ⟨mid', slots, sees, ⟨_, value, rfl, rfl⟩, ?_, fun _ b' at_' => ?_⟩
    · rintro h ⟨⟩
    · rw [Option.some.inj (at_'.symm.trans at_)]
      exact clean

/-- What reading leaves of an activation. -/
def Reads (a a' : Activation) : Prop :=
  a'.frame.slots = a.frame.slots ∧ ∀ k, a'.machine.sees k = a.machine.sees k

omit [BlockRoutine] in
theorem Reads.buffer? (reads : Reads a a') (slot : SlotId) : a'.frame.buffer? slot = a.frame.buffer? slot := by
  rw [Frame.buffer?, Frame.buffer?, reads.1]

omit [BlockRoutine] in
theorem Reads.clean (reads : Reads a a') {x : Site} (clean : Clean a x) : Clean a' x := fun b at_ =>
  (Machine.contents_congr fun k _ => reads.2 k).2.trans (clean b (reads.buffer? _ ▸ at_))

/-- An output that was handed out, and the slot that it is from. -/
def Handed (r : Course) (f : ExecutableId) (call : Nat) (borrow : Bool) (a : Activation) (x : Site) (o : Output) :
    Prop :=
  (∃ t, r.value x.var = some t ∧ o.Gives r.context a.machine f call borrow t) ∧
    (∀ h, o = .borrowed h → a.frame.buffer? x.slot = some h.buffer) ∧ (borrow = false → Clean a x)

theorem Handed.reads {x : Site} {o : Output} (handed : r.Handed f call borrow a x o) (reads : Reads a a') :
    r.Handed f call borrow a' x o := by
  obtain ⟨⟨t, value, gives⟩, at_, clean⟩ := handed
  exact ⟨⟨t, value, gives.of_sees fun k _ => reads.2 k⟩, fun h isIt => (reads.buffer? _).trans (at_ h isIt),
    fun reading => reads.clean (clean reading)⟩

theorem Midway.outputs_meet (fits : r.Fits scope l) (mid : r.Midway ext r.schedule.commands [] a) :
    (r.schedule.outputs.mapM (Calling.output r.context f borrow call)).Meets a (fun e a' => r.Fails ext e a')
      fun os a' => r.Midway ext r.schedule.commands [] a' ∧
        List.Forall₂ (r.Handed f call borrow a') r.schedule.outputs os := by
  refine meets_mapM (fun before os a' => r.Midway ext r.schedule.commands [] a' ∧
    List.Forall₂ (r.Handed f call borrow a') before os) _ ⟨mid, .nil⟩ ?_ fun _ _ held => held
  rintro before x after os a₁ whole ⟨mid₁, handed⟩
  have root : x ∈ r.schedule.rootSites := List.mem_append_left _ (by rw [whole]; simp)
  refine (mid₁.output_meets fits root).post ?_
  rintro o a' ⟨mid', slots, sees, gives, at_, clean⟩
  have reads : Reads a₁ a' := ⟨slots, sees⟩
  refine ⟨mid', List.rel_append (handed.imp fun _ _ held => held.reads reads) (.cons ⟨gives, ?_, ?_⟩ .nil)⟩
  · exact fun h isIt => (reads.buffer? _).trans (at_ h isIt)
  · exact fun reading => reads.clean (clean reading)

/-- The new values are read, and no trace of a failure is among them. -/
theorem Midway.newValues_meet (fits : r.Fits scope l) (mid : r.Midway ext r.schedule.commands [] a) :
    (Calling.newValues r.schedule r.context).Meets a (fun e a' => r.Fails ext e a') fun vs a' =>
      r.Midway ext r.schedule.commands [] a' ∧ Reads a a' ∧ (∀ u ∈ r.schedule.updates, Clean a' u.2) ∧
        List.Forall₂ (fun u v => v.1 = u.1 ∧ r.value u.2.var = some v.2) r.schedule.updates vs := by
  refine meets_mapM (fun before vs a' => r.Midway ext r.schedule.commands [] a' ∧ Reads a a' ∧
    (∀ u ∈ before, Clean a' u.2) ∧ List.Forall₂ (fun u v => v.1 = u.1 ∧ r.value u.2.var = some v.2) before vs) _
    ⟨mid, ⟨rfl, fun _ => rfl⟩, by simp, .nil⟩ ?_ fun _ _ held => held
  rintro before ⟨cell, x⟩ after vs a₁ whole ⟨mid₁, reads, clean, values⟩
  have root : x ∈ r.schedule.rootSites :=
    List.mem_append_right _ (List.mem_map.mpr ⟨(cell, x), by rw [whole]; simp, rfl⟩)
  obtain ⟨b, t, d, at_, value, shape, owns, carries⟩ := mid₁.root fits root
  simp only
  rw [meets_bind]
  refine (Calling.buffer_meets at_).post ?_
  rintro _ a₂ ⟨rfl, rfl⟩
  rw [meets_bind]
  refine (Calling.shape_meets shape).post ?_
  rintro _ a₂ ⟨rfl, rfl⟩
  rw [meets_bind]
  refine (mid₁.toHost_meets owns carries).post ?_
  rintro _ a' ⟨rfl, fine, mid', slots, sees⟩
  have more : Reads a₂ a' := ⟨slots, sees⟩
  rw [meets_pure]
  refine ⟨mid', ⟨slots.trans reads.1, fun k => (sees k).trans (reads.2 k)⟩, fun u member => ?_,
    List.rel_append values (.cons ⟨rfl, value⟩ .nil)⟩
  rcases List.mem_append.mp member with old | new
  · exact more.clean (clean u old)
  · rw [List.mem_singleton.mp new]
    refine more.clean fun b' at_' => ?_
    rw [Option.some.inj (at_'.symm.trans at_)]
    exact fine

/-- When no result is the trace of a failure, no launch of the call has failed. -/
theorem Midway.heard (mid : r.Midway ext r.schedule.commands [] a) (clean : ∀ x ∈ r.schedule.rootSites, Clean a x)
    (id : AcceleratorId) : ¬ a.machine.Blamed id (r.start.accelerator id).launches := by
  intro blamed
  obtain ⟨x, b, -, needed, at_, tainted⟩ := mid.alarm id blamed
  rcases needed with root | ⟨cmd, none, -⟩
  · rw [clean x root b at_] at tainted
    cases tainted
  · cases none

end Course

end TensorGraph
