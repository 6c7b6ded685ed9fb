import TensorGraph.Proofs.Pass.Mirrors

/-! A rebuild as a whole. When every step mirrors its operation, the new program is valid, has the
interface of the old one and computes the same. -/
namespace TensorGraph

open Checked Rebuilding

namespace Program

/-- A rebuild of a program whose arguments are `ts`. The inputs of the new program are its first
variables. -/
def stage (p : Program) (math : MathMode) (ts : List Tensor) (cells : Array Tensor)
    (kept typed stays moves : Prop) : Stage where
  old := p.bind ts cells
  new := {
    input w := ((List.range p.inputs.length).idxOf? w).bind fun i => ts[i]?
    cells }
  sameCells := rfl
  math := math
  kept := kept
  typed := typed
  stays := stays
  moves := moves

variable [BlockRoutine]

/-- The second program is the first one rebuilt. -/
structure Rebuilt (p q : Program) (d : Discipline) (s : Stage) : Prop where
  valid : q.Valid d
  interface : p.SameInterface q
  inputs : q.inputs = List.range p.inputs.length
  values : s.kept → p.roots.map (s.before p) = q.roots.map (s.after q.graph)
  calm : s.kept → s.Calm p → ∀ n ∈ q.liveNodes, n.op.Calm (n.inputs.mapM (s.after q.graph))
  types : s.typed → p.SameTypes q
  /-- Different persistent values stay different. -/
  targets : (p.updates.map Prod.fst).Nodup → (q.updates.map Prod.fst).Nodup

/-- The values of the rebuilt program are those that the rebuild keeps. -/
theorem Rebuilt.value_eq {p q : Program} {d : Discipline} {math : MathMode} {ts : List Tensor}
    {cells : Array Tensor} {kept typed stays moves : Prop}
    (rebuilt : p.Rebuilt q d (p.stage math ts cells kept typed stays moves)) :
    q.value math ts cells = (p.stage math ts cells kept typed stays moves).after q.graph := by
  have new : q.bind ts cells = (p.stage math ts cells kept typed stays moves).new := by
    simp only [Program.bind, stage, rebuilt.inputs]
  funext v
  rw [Program.value, new]
  rfl

theorem Rebuilt.sameValues {p q : Program} {d : Discipline} {math : MathMode} {ts : List Tensor}
    {cells : Array Tensor} {kept typed stays moves : Prop}
    (rebuilt : p.Rebuilt q d (p.stage math ts cells kept typed stays moves)) (held : kept) :
    p.SameValues q math ts cells := by
  rw [SameValues, rebuilt.value_eq]
  exact rebuilt.values held

theorem Rebuilt.calm_eq {p q : Program} {d : Discipline} {math : MathMode} {ts : List Tensor}
    {cells : Array Tensor} {kept typed stays moves : Prop}
    (rebuilt : p.Rebuilt q d (p.stage math ts cells kept typed stays moves)) (held : kept)
    (calm : p.Calm math ts cells) : q.Calm math ts cells := by
  rw [Calm, rebuilt.value_eq]
  exact rebuilt.calm held calm

/-- The second program is valid and does what the first one does, on these arguments under `kept`. -/
structure Refines (p q : Program) (d : Discipline) (math : MathMode) (ts : List Tensor)
    (cells : Array Tensor) (kept : Prop) : Prop where
  valid : q.Valid d
  interface : p.SameInterface q
  values : kept → p.SameValues q math ts cells
  calm : kept → p.Calm math ts cells → q.Calm math ts cells

theorem Refines.refl {p : Program} {d : Discipline} (valid : p.Valid d) (math : MathMode)
    (ts : List Tensor) (cells : Array Tensor) (kept : Prop) : p.Refines p d math ts cells kept :=
  ⟨valid, .refl p, fun _ => .refl p math ts cells, fun _ => id⟩

theorem Refines.trans {p q r : Program} {d d' : Discipline} {math : MathMode} {ts : List Tensor}
    {cells : Array Tensor} {kept : Prop} (first : p.Refines q d math ts cells kept)
    (second : q.Refines r d' math ts cells kept) : p.Refines r d' math ts cells kept :=
  ⟨second.valid, first.interface.trans second.interface,
    fun held => (first.values held).trans (second.values held),
    fun held calm => second.calm held (first.calm held calm)⟩

theorem Rebuilt.refines {p q : Program} {d : Discipline} {math : MathMode} {ts : List Tensor}
    {cells : Array Tensor} {kept typed stays moves : Prop}
    (rebuilt : p.Rebuilt q d (p.stage math ts cells kept typed stays moves)) :
    p.Refines q d math ts cells kept := ⟨rebuilt.valid, rebuilt.interface, rebuilt.sameValues, rebuilt.calm_eq⟩

end Program

namespace Program

/-- What is known of an operation of a program: the types of its operands and of its output. -/
structure Operation (p : Program) (d : Discipline) (n : Node) (tys : List Ty) (ty : Ty) (x : Var) :
    Prop where
  types : p.graph.Types n.inputs tys
  inferred : n.op.infer tys = .ok ty
  atOutput : p.graph.vars[n.output]? = some x
  notLeaf : ¬ x.isLeaf
  placed : x.ty = ty.placed n.place
  rule : d.op n.op tys n.place n.inPlace

theorem Operation.alike {p : Program} {d : Discipline} {n : Node} {tys : List Ty} {ty : Ty} {x : Var}
    (known : p.Operation d n tys ty x) : x.ty.Alike ty := by
  rw [known.placed]
  exact .refl _

theorem Operation.count {p : Program} {d : Discipline} {n : Node} {tys : List Ty} {ty : Ty} {x : Var}
    (known : p.Operation d n tys ty x) : n.inputs.length = n.op.arity := by
  obtain ⟨-, -, -, count, -⟩ := Op.infer_eq_ok.mp known.inferred
  rw [known.types.length_eq, count]

theorem Valid.operation {p : Program} {d : Discipline} (valid : p.Valid d) {n : Node}
    (live : n ∈ p.liveNodes) : ∃ tys ty x, p.Operation d n tys ty x := by
  obtain ⟨-, ⟨x', atOutput', origin⟩, -, tys, ty, x, types, inferred, atOutput, placed, rule⟩ :=
    valid.graph.node (valid.graph.live_mem live)
  obtain rfl : x = x' := Option.some.inj (atOutput.symm.trans atOutput')
  exact ⟨tys, ty, x, types, inferred, atOutput, by simp [Var.isLeaf, origin], placed, rule⟩

end Program

namespace Rebuild

/-- What a step of a rebuild leaves as it was: images of leaves, and that there are images. -/
structure Keeps (r r' : Rebuild) (p : Program) : Prop where
  leaf : ∀ {v w : VarId} {x : Var}, r.image v = some w → p.graph.vars[v]? = some x → x.isLeaf →
    r'.image v = some w
  image : ∀ {v : VarId}, (r.image v).isSome → (r'.image v).isSome

theorem Keeps.refl (r : Rebuild) (p : Program) : r.Keeps r p := ⟨fun at_ _ _ => at_, id⟩

theorem Keeps.trans {r r' r'' : Rebuild} {p : Program} (first : r.Keeps r' p)
    (second : r'.Keeps r'' p) : r.Keeps r'' p :=
  ⟨fun at_ atV isLeaf => second.leaf (first.leaf at_ atV isLeaf) atV isLeaf,
    fun imaged => second.image (first.image imaged)⟩

theorem Grows.keeps {r r' : Rebuild} {p : Program} (grows : r.Grows r') : r.Keeps r' p := by
  refine ⟨fun at_ _ _ => grows.image at_, fun {v} imaged => ?_⟩
  obtain ⟨w, at_⟩ := Option.isSome_iff_exists.mp imaged
  rw [grows.image at_]
  rfl

theorem keeps_of_bind {r r' : Rebuild} {p : Program} {v w : VarId} {x : Var}
    (atV : p.graph.vars[v]? = some x) (notLeaf : ¬ x.isLeaf) (here : r'.image v = some w)
    (others : ∀ u, u ≠ v → r'.image u = r.image u) : r.Keeps r' p := by
  constructor
  · intro u z y at_ atU isLeaf
    have different : u ≠ v := by
      rintro rfl
      obtain rfl : x = y := Option.some.inj (atV.symm.trans atU)
      exact notLeaf isLeaf
    rw [others u different]
    exact at_
  · intro u imaged
    by_cases same : u = v
    · rw [same, here]
      rfl
    · rwa [others u same]

theorem keeps_of_image {r r' : Rebuild} {p : Program} (same : r'.image = r.image) :
    r.Keeps r' p := ⟨fun at_ _ _ => by rw [same]; exact at_, fun imaged => by rwa [same]⟩

variable [BlockRoutine]

/-- A step that has given an operation its image, unless its output is in `skip`. -/
structure Advances (r r' : Rebuild) (p : Program) (d : Discipline) (s : Stage) (skip : VarId → Prop) (n : Node) :
    Prop where
  mirrors : r'.Mirrors p d s
  keeps : r.Keeps r' p
  imaged : ¬ skip n.output → (r'.image n.output).isSome

/-- What was rebuilt before may be more. -/
theorem Advances.after {r r₁ r₂ : Rebuild} {p : Program} {d : Discipline} {s : Stage} {skip : VarId → Prop} {n : Node}
    (advances : r₁.Advances r₂ p d s skip n) (keeps : r.Keeps r₁ p) : r.Advances r₂ p d s skip n :=
  { advances with keeps := keeps.trans advances.keeps }

section Outputs

variable {r : Rebuild} {p : Program} {d d' : Discipline} {s : Stage} {fails : Error → Prop} {skip : VarId → Prop} {n : Node}
  {tys : List Ty} {ty : Ty} {x : Var}

/-- The output of an operation can be given an image of its type and value. -/
theorem Mirrors.settle (mirrors : r.Mirrors p d' s) (known : p.Operation d n tys ty x) {w : VarId} {y : Var}
    (atW : r.graph.vars[w]? = some y) (alike : s.typed → ty.Alike y.ty) (place : s.stays → y.ty.place = n.place)
    (value : s.kept → s.after r.graph w = s.before p n.output) :
    (Rebuild.bind n.output w).Meets r fails fun _ r' => r.Advances r' p d' s skip n ∧ r'.graph = r.graph := by
  have placed : s.stays → y.ty.place = x.ty.place := by
    intro stays
    rw [place stays, known.placed]
    rfl
  refine (mirrors.bind known.atOutput known.notLeaf atW (fun typed => known.alike.trans (alike typed)) placed
    value).mono ?_
  rintro _ r' ⟨mirrors', here, graph, -, others⟩
  exact ⟨⟨mirrors', keeps_of_bind known.atOutput known.notLeaf here others, fun _ => by rw [here]; rfl⟩, graph⟩

/-- An operation can be emitted as the image of the output of another one that has its type and value. -/
theorem Mirrors.emitted (mirrors : r.Mirrors p d' s) (known : p.Operation d n tys ty x) {op : Op} {ws : List VarId}
    {tys' : List Ty} {ty' : Ty} {place : Place} {mark : Option Nat} (types : r.graph.Types ws tys')
    (inferred : op.infer tys' = .ok ty') (rule : d'.op op tys' place mark) (alike : s.typed → ty.Alike ty')
    (stays : s.stays → place = n.place)
    (calm : s.kept → s.Calm p → ¬ op.isPointwise → op.Calm (ws.mapM (s.after r.graph)))
    (value : s.kept → s.before p n.output =
      (ws.mapM (s.after r.graph)).bind fun ts => (op.eval s.math ts).toOption) :
    (do Rebuild.bind n.output (← Rebuild.emit op ws place mark) : Rebuilding Unit).Meets r fails fun _ r' =>
      r.Advances r' p d' s skip n := by
  rw [meets_bind]
  refine (mirrors.emit types inferred rule calm).mono ?_
  rintro w r₁ ⟨mirrors₁, grows₁, -, -, -, -, ⟨y, atW, placed, -⟩, valueW⟩
  refine (mirrors₁.settle known atW (fun typed => ?_) (fun stays' => ?_) fun held => ?_).mono
    fun _ _ met => met.1.after grows₁.keeps
  · rw [placed]
    exact alike typed
  · rw [placed, ← stays stays']
    rfl
  · rw [valueW, value held]

/-- Copies an operation with another mark. -/
def copyAs (p : Program) (n : Node) (mark : Option Nat) : Rebuilding Unit := do
  let inputs ← readAll p n.inputs
  bind n.output (← emit n.op inputs n.place mark)

/-- A copy of an operation mirrors it. -/
theorem Mirrors.copyAs (mirrors : r.Mirrors p d' s) (typed : s.typed) (valid : p.Valid d)
    (leaves : ∀ x : Var, x.Fits d → x.Fits d') (live : n ∈ p.liveNodes) (known : p.Operation d n tys ty x)
    (ready : ∀ v ∈ n.inputs, r.Ready p v) {mark : Option Nat}
    (rule : ∀ tys', List.Forall₂ Ty.Alike tys tys' →
      (s.stays → List.Forall₂ (fun t t' : Ty => t'.place = t.place) tys tys') →
      d'.op n.op tys' n.place mark) :
    (copyAs p n mark).Meets r fails fun _ r' => r.Advances r' p d' s skip n := by
  unfold Rebuild.copyAs
  rw [meets_bind]
  refine (mirrors.readAll ready fun v _ y atV _ => leaves y (valid.graph.leaf atV)).mono ?_
  rintro ws r₁ ⟨mirrors₁, grows₁, images⟩
  obtain ⟨tys', types', alike, places⟩ := mirrors₁.types images known.types
  have alike := alike typed
  refine (mirrors₁.emitted known types' (Op.infer_congr known.inferred alike) (rule tys' alike places)
    (fun _ => .refl _) (fun _ => rfl) (fun held calm _ => ?_) fun held => ?_).mono
    fun _ _ advances => advances.after grows₁.keeps
  · rw [mirrors₁.values held images]
    exact calm n live
  · rw [s.before_output valid live, mirrors₁.values held images]

end Outputs

/-- How far a rebuild is: the inputs come first, and all outputs of the operations that are done have
images, but for those that are left out. -/
structure Reached (r : Rebuild) (p : Program) (skip : VarId → Prop) (done : List Node) : Prop where
  inputs : ∀ {i : Nat} {v : VarId}, p.inputs[i]? = some v → r.image v = some i
  done : ∀ m ∈ done, ¬ skip m.output → (r.image m.output).isSome

variable {r : Rebuild} {p : Program} {d d' : Discipline} {s : Stage} {skip : VarId → Prop}

theorem Reached.next {done : List Node} {n : Node} (valid : p.Valid d) {r' : Rebuild}
    (reached : r.Reached p skip done) (advances : r.Advances r' p d' s skip n) :
    r'.Reached p skip (done ++ [n]) := by
  constructor
  · intro i v at_
    obtain ⟨x, atV, origin⟩ := valid.inputs v (List.mem_of_getElem? at_)
    exact advances.keeps.leaf (reached.inputs at_) atV (by simp [Var.isLeaf, origin])
  · intro m member kept
    rcases List.mem_append.mp member with old | new
    · exact advances.keeps.image (reached.done m old kept)
    · rw [List.mem_singleton.mp new] at kept ⊢
      exact advances.imaged kept

omit [BlockRoutine] in
/-- Leaves that are wanted can be read at any time. -/
theorem Reached.leaf {done : List Node} (valid : p.Valid d) (reached : r.Reached p skip done)
    {v : VarId} {x : Var} (wanted : v ∈ p.roots ∨ ∃ n ∈ p.liveNodes, v ∈ n.inputs)
    (atV : p.graph.vars[v]? = some x) (isLeaf : x.isLeaf) : r.Ready p v := by
  by_cases isInput : x.isInput
  · obtain ⟨i, at_⟩ := List.mem_iff_getElem?.mp (valid.bound wanted atV isInput)
    exact .inl (by rw [reached.inputs at_]; rfl)
  · exact .inr ⟨x, atV, isLeaf, isInput⟩

omit [BlockRoutine] in
/-- The operands of the operations that are done, and of the next one, can be read. -/
theorem Reached.ready {before after : List Node} {n m : Node} {v : VarId} (valid : p.Valid d)
    (reached : r.Reached p skip before) (split : p.liveNodes = before ++ n :: after)
    (member : m ∈ before ++ [n]) (reads : v ∈ m.inputs) (kept : ¬ skip v) : r.Ready p v := by
  have live : m ∈ p.liveNodes := by
    rw [split]
    rcases List.mem_append.mp member with old | new
    · exact List.mem_append_left _ old
    · rw [List.mem_singleton.mp new]
      simp
  obtain ⟨tys, ty, x, types, -⟩ := (valid.graph.node (valid.graph.live_mem live)).typed
  obtain ⟨y, atV⟩ : ∃ y, p.graph.vars[v]? = some y :=
    ⟨_, Array.getElem?_eq_getElem (types.inRange v reads)⟩
  rcases valid.graph.leaf_or_output atV with isLeaf | ⟨i, k, at_, rfl⟩
  · exact reached.leaf valid (.inr ⟨m, live, reads⟩) atV isLeaf
  · have inBefore : k ∈ before := by
      rcases List.mem_append.mp member with old | new
      · obtain ⟨first, rest, rfl⟩ := List.append_of_mem old
        have splitM : p.liveNodes = first ++ m :: (rest ++ n :: after) := by rw [split]; simp
        have early := valid.graph.live_before splitM reads (valid.graph.producer?_output at_)
        exact List.mem_append_left _ early
      · rw [List.mem_singleton.mp new] at reads
        exact valid.graph.live_before split reads (valid.graph.producer?_output at_)
    exact .inl (reached.done k inBefore kept)

omit [BlockRoutine] in
theorem Reached.root {v : VarId} (valid : p.Valid d) (reached : r.Reached p skip p.liveNodes)
    (root : v ∈ p.roots) (kept : ¬ skip v) : r.Ready p v := by
  obtain ⟨y, atV⟩ : ∃ y, p.graph.vars[v]? = some y :=
    ⟨_, Array.getElem?_eq_getElem (valid.roots v root)⟩
  rcases valid.graph.leaf_or_output atV with isLeaf | ⟨i, k, at_, rfl⟩
  · exact reached.leaf valid (.inl root) atV isLeaf
  · have live := valid.graph.root_producer root (valid.graph.producer?_output at_)
    exact .inl (reached.done k live kept)

end Rebuild

namespace Program

open Rebuild

variable {p : Program} {d d' : Discipline} {math : MathMode} {ts : List Tensor}
  {cells : Array Tensor} {kept typed stays moves : Prop} {skip : VarId → Prop} {fails : Error → Prop}

theorem mirrors_start [BlockRoutine] (s : Stage) : (Rebuild.start p).Mirrors p d' s where
  graph := Graph.sound_empty _ _
  image at_ := by cases at_
  leaf at_ := by cases at_
  apart at_ := by cases at_
  value _ _ _ at_ := by cases at_
  known e member := by cases member
  inputs at_ := by simp [Rebuild.start, Graph.empty] at at_
  calm _ _ n member := by simp [Rebuild.start, Graph.empty] at member

theorem idxOf?_range {k i : Nat} (inRange : i < k) : (List.range k).idxOf? i = some i := by
  rw [List.idxOf?_eq_some_iff]
  refine ⟨by simpa using inRange, by simp, fun j before => ?_⟩
  simp only [List.getElem_range]
  omega

theorem idxOf?_nodup {vs : List VarId} (distinct : vs.Nodup) {i : Nat} {v : VarId}
    (at_ : vs[i]? = some v) : vs.idxOf? v = some i := by
  obtain ⟨inVs, rfl⟩ := List.getElem?_eq_some_iff.mp at_
  rw [List.idxOf?_eq_some_iff]
  refine ⟨inVs, by simp, fun j before => ?_⟩
  intro same
  have equal : j = i := (List.getElem_inj distinct).mp same
  omega

/-- The inputs are copied in their order. -/
theorem reads_inputs [BlockRoutine] (valid : p.Valid d) (leaves : ∀ x : Var, x.Fits d → x.Fits d') :
    (Rebuild.readAll p p.inputs).Meets (.start p) fails fun _ r =>
      r.Mirrors p d' (p.stage math ts cells kept typed stays moves) ∧ r.Reached p skip [] := by
  refine meets_mapM (fun done _ r => r.Mirrors p d' (p.stage math ts cells kept typed stays moves) ∧
    r.graph.vars.size = done.length ∧ (∀ (i : Nat) v, done[i]? = some v → r.image v = some i) ∧
    ∀ v, v ∉ done → r.image v = none) p.inputs ?_ ?_ ?_
  · refine ⟨mirrors_start _, rfl, ?_, fun _ _ => rfl⟩
    intro i v at_
    simp at at_
  · rintro before v after ws r split ⟨mirrors, size, images, others⟩
    obtain ⟨x, atV, origin⟩ := valid.inputs v (by simp [split])
    have fresh : v ∉ before := by
      have distinct := valid.distinct
      rw [split] at distinct
      intro old
      exact (List.nodup_append.mp distinct).2.2 v old v (by simp) rfl
    have inInputs : before.length < p.inputs.length := by simp [split]
    have atInputs : p.inputs[before.length]? = some v := by simp [split]
    have unread : r.image v = none := others v fresh
    have isLeaf : x.isLeaf := by simp [Var.isLeaf, origin]
    have added := mirrors.leafAdded fails unread atV isLeaf (leaves x (valid.graph.leaf atV))
      fun _ => ⟨by rw [size]; exact inInputs, fun _ => by
        simp only [stage, Program.bind, size, idxOf?_range inInputs, Option.bind_some,
          idxOf?_nodup valid.distinct atInputs]⟩
    unfold Rebuild.read
    rw [meets_bind, meets_get, unread]
    simp only [meets_bind, meets_lift, Graph.var_eq_ok.mpr atV, isLeaf, Bool.not_true,
      Bool.false_eq_true, ↓reduceIte, meets_pure]
    simp only [meets_bind, meets_pure] at added
    refine added.mono fun w r' met => met.mono ?_
    rintro _ r'' ⟨mirrors', grows, image, rfl, size', same⟩
    refine ⟨mirrors', ?_, ?_, ?_⟩
    · rw [size', size]
      simp
    · intro i u at_
      by_cases old : i < before.length
      · rw [List.getElem?_append_left old] at at_
        exact grows.image (images i u at_)
      · have inOne := (List.getElem?_eq_some_iff.mp at_).1
        simp only [List.length_append, List.length_singleton] at inOne
        obtain rfl : i = before.length := by omega
        obtain rfl : v = u := by simpa using at_
        rw [image, size]
    · intro u notDone
      simp only [List.mem_append, List.mem_singleton, not_or] at notDone
      rw [same u notDone.2]
      exact others u notDone.1
  · rintro ws r ⟨mirrors, -, images, -⟩
    exact ⟨mirrors, fun at_ => images _ _ at_, by simp⟩

/-- An updated variable is a persistent value, which the caller does not bind. -/
theorem target_ready (valid : p.Valid d) {r : Rebuild} {u : VarId × VarId} (member : u ∈ p.updates) :
    r.Ready p u.1 := by
  obtain ⟨x, y, c, atTarget, -, origin, -⟩ := valid.updates u member
  exact .inr ⟨x, atTarget, by simp [Var.isLeaf, origin], by simp [Var.isInput, origin]⟩

theorem mem_roots_of_update {u : VarId × VarId} (member : u ∈ p.updates) : u.2 ∈ p.roots :=
  List.mem_append_right _ (List.mem_map_of_mem member)

/-- The images of an update. -/
def Images (r : Rebuild) (u u' : VarId × VarId) : Prop :=
  r.image u.1 = some u'.1 ∧ r.image u.2 = some u'.2

/-- The interface of the new program are the images of that of the old one. -/
theorem finish_meets [BlockRoutine] (valid : p.Valid d) (leaves : ∀ x : Var, x.Fits d → x.Fits d') {s : Stage}
    {r : Rebuild} (mirrors : r.Mirrors p d' s) (reached : r.Reached p skip p.liveNodes)
    (roots : ∀ v ∈ p.roots, ¬ skip v) :
    (Rebuild.finish p).Meets r fails fun q r' => r'.Mirrors p d' s ∧ q.graph = r'.graph ∧
      q.inputs = List.range p.inputs.length ∧
      List.Forall₂ (fun v w => r'.image v = some w) p.inputs q.inputs ∧
      List.Forall₂ (fun v w => r'.image v = some w) p.outputs q.outputs ∧
      List.Forall₂ (Images r') p.updates q.updates := by
  have fits : ∀ v, ∀ x : Var, p.graph.vars[v]? = some x → x.isLeaf → x.Fits d' :=
    fun v x atV _ => leaves x (valid.graph.leaf atV)
  have rootReady : ∀ {r' : Rebuild}, r.Grows r' → ∀ v ∈ p.roots, r'.Ready p v :=
    fun grows v member => (reached.root valid member (roots v member)).grows grows
  unfold Rebuild.finish
  rw [meets_bind]
  have inputsReady : ∀ v ∈ p.inputs, r.Ready p v := by
    intro v member
    obtain ⟨i, at_⟩ := List.mem_iff_getElem?.mp member
    exact .inl (by rw [reached.inputs at_]; rfl)
  refine (mirrors.readAll inputsReady fun v _ => fits v).mono ?_
  rintro inputs r₁ ⟨mirrors₁, grows₁, atInputs⟩
  have range : inputs = List.range p.inputs.length := by
    refine List.ext_getElem (by simp [atInputs.length_eq]) fun i inNew inRange => ?_
    have inOld : i < p.inputs.length := by simpa using inRange
    have image : r₁.image p.inputs[i] = some inputs[i] := atInputs.get inOld inNew
    have first := grows₁.image (reached.inputs (List.getElem?_eq_getElem inOld))
    rw [List.getElem_range]
    exact Option.some.inj (image.symm.trans first)
  rw [meets_bind]
  refine (mirrors₁.readAll (fun v member => rootReady grows₁ v (List.mem_append_left _ member))
    fun v _ => fits v).mono ?_
  rintro outputs r₂ ⟨mirrors₂, grows₂, atOutputs⟩
  rw [meets_bind]
  refine meets_mapM (fun done us r' => r'.Mirrors p d' s ∧ r₂.Grows r' ∧
    List.Forall₂ (Images r') done us) p.updates ⟨mirrors₂, .refl r₂, .nil⟩ ?_ ?_
  · rintro before u after us r' split ⟨mirrors', grows', images⟩
    have member : u ∈ p.updates := by simp [split]
    rw [meets_bind]
    refine (mirrors'.read (target_ready valid member) (fits u.1)).mono ?_
    rintro target r₃ ⟨mirrors₃, grows₃, atTarget⟩
    have ready : r₃.Ready p u.2 :=
      rootReady (((grows₁.trans grows₂).trans grows').trans grows₃) _ (mem_roots_of_update member)
    rw [meets_bind]
    refine (mirrors₃.read ready (fits u.2)).mono ?_
    rintro value r₄ ⟨mirrors₄, grows₄, atValue⟩
    rw [meets_pure]
    refine ⟨mirrors₄, (grows'.trans grows₃).trans grows₄, ?_⟩
    refine List.rel_append (images.imp fun _ _ held => ?_) (.cons ⟨?_, atValue⟩ .nil)
    · exact ⟨grows₄.image (grows₃.image held.1), grows₄.image (grows₃.image held.2)⟩
    · exact grows₄.image atTarget
  · rintro us r' ⟨mirrors', grows', images⟩
    rw [meets_bind, meets_get, meets_pure]
    refine ⟨mirrors', rfl, range, ?_, ?_, images⟩
    · exact atInputs.imp fun _ _ at_ => grows'.image (grows₂.image at_)
    · exact atOutputs.imp fun _ _ at_ => grows'.image at_

theorem map_eq_of_images {r : Rebuild} {α : Type} {f g : VarId → α}
    {vs ws : List VarId} (images : List.Forall₂ (fun v w => r.image v = some w) vs ws)
    (same : ∀ {v w : VarId}, r.image v = some w → f v = g w) : vs.map f = ws.map g := by
  induction images with
  | nil => rfl
  | cons image _ ih => rw [List.map_cons, List.map_cons, same image, ih]

/-- The images of different leaves are different. -/
theorem nodup_images [BlockRoutine] {s : Stage} {r : Rebuild} (mirrors : r.Mirrors p d' s) {us us' : List (VarId × VarId)}
    (leaves : ∀ u ∈ us, ∃ x, p.graph.vars[u.1]? = some x ∧ x.isLeaf) (images : List.Forall₂ (Images r) us us')
    (distinct : (us.map Prod.fst).Nodup) : (us'.map Prod.fst).Nodup := by
  induction images with
  | nil => exact .nil
  | @cons u u' us us' image images ih =>
    rw [List.map_cons, List.nodup_cons] at distinct ⊢
    refine ⟨fun again => distinct.1 ?_, ih (fun v member => leaves v (List.mem_cons_of_mem _ member)) distinct.2⟩
    obtain ⟨v', there, same⟩ := List.mem_map.mp again
    obtain ⟨v, member, image'⟩ := partner_of images there
    obtain ⟨x, atU, leafU⟩ := leaves u (by simp)
    obtain ⟨y, atV, leafV⟩ := leaves v (List.mem_cons_of_mem _ member)
    rw [mirrors.apart image.1 (same ▸ image'.1) atU leafU atV leafV]
    exact List.mem_map_of_mem member

/-- The images of the interface of a program make a program that does the same. -/
theorem rebuilt_of_images [BlockRoutine] {q : Program} {s : Stage} {r : Rebuild} (valid : p.Valid d)
    (mirrors : r.Mirrors p d' s) (graph : q.graph = r.graph)
    (range : q.inputs = List.range p.inputs.length)
    (inputs : List.Forall₂ (fun v w => r.image v = some w) p.inputs q.inputs)
    (outputs : List.Forall₂ (fun v w => r.image v = some w) p.outputs q.outputs)
    (updates : List.Forall₂ (Images r) p.updates q.updates) (typed : d'.typed → d.typed ∧ s.typed) :
    p.Rebuilt q d' s := by
  have atTarget : ∀ {u u' : VarId × VarId}, u ∈ p.updates → Images r u u' →
      ∃ x c, p.graph.vars[u.1]? = some x ∧ x.origin = .shared c ∧ r.graph.vars[u'.1]? = some x := by
    intro u u' member images
    obtain ⟨x, -, c, atOld, -, origin, -⟩ := valid.updates u member
    exact ⟨x, c, atOld, origin, mirrors.leaf images.1 atOld (by simp [Var.isLeaf, origin])⟩
  have values : List.Forall₂ (fun v w => r.image v = some w) (p.updates.map Prod.snd)
      (q.updates.map Prod.snd) := by
    rw [List.forall₂_map_left_iff, List.forall₂_map_right_iff]
    exact updates.imp fun _ _ images => images.2
  constructor
  · refine ⟨by rw [graph]; exact mirrors.graph, ?_, by rw [range]; exact List.nodup_range, ?_, ?_, ?_⟩
    · intro w member
      obtain ⟨i, inNew, rfl⟩ := List.mem_iff_getElem.mp member
      have inOld : i < p.inputs.length := by rwa [inputs.length_eq]
      have image : r.image p.inputs[i] = some q.inputs[i] := inputs.get inOld inNew
      obtain ⟨x, atV, origin⟩ := valid.inputs _ (List.getElem_mem inOld)
      rw [graph]
      exact ⟨x, mirrors.leaf image atV (by simp [Var.isLeaf, origin]), origin⟩
    · intro w member
      obtain ⟨i, inNew, rfl⟩ := List.mem_iff_getElem.mp member
      have inOld : i < p.outputs.length := by rwa [outputs.length_eq]
      rw [graph]
      exact mirrors.inRange (outputs.get inOld inNew)
    · intro u' member
      obtain ⟨i, inNew, rfl⟩ := List.mem_iff_getElem.mp member
      have inOld : i < p.updates.length := by rwa [updates.length_eq]
      have images : Images r p.updates[i] q.updates[i] := updates.get inOld inNew
      obtain ⟨x, c, atOld, origin, atNew⟩ := atTarget (List.getElem_mem inOld) images
      obtain ⟨x', y, -, atOld', atValue, -, alike⟩ := valid.updates _ (List.getElem_mem inOld)
      obtain rfl : x = x' := Option.some.inj (atOld.symm.trans atOld')
      obtain ⟨y', z, atValue', atImage, alike', -⟩ := mirrors.image images.2
      obtain rfl : y = y' := Option.some.inj (atValue.symm.trans atValue')
      rw [graph]
      exact ⟨x, z, c, atNew, atImage, origin, fun asked => (alike (typed asked).1).trans (alike' (typed asked).2)⟩
    · intro w y _ atW isInput
      rw [graph] at atW
      rw [range]
      exact List.mem_range.mpr (mirrors.inputs atW isInput)
  · refine ⟨List.ext_getElem (by simp [inputs.length_eq]) fun i inOld inNew => ?_, outputs.length_eq, ?_⟩
    · have inP : i < p.inputs.length := by simpa using inOld
      have inQ : i < q.inputs.length := by simpa using inNew
      have image : r.image p.inputs[i] = some q.inputs[i] := inputs.get inP inQ
      obtain ⟨x, atV, origin⟩ := valid.inputs _ (List.getElem_mem inP)
      have atW := mirrors.leaf image atV (by simp [Var.isLeaf, origin])
      simp only [List.getElem_map, Program.typeOf, atV, graph, atW]
    refine List.ext_getElem (by simp [updates.length_eq]) fun i inOld inNew => ?_
    have inP : i < p.updates.length := by simpa using inOld
    have inQ : i < q.updates.length := by simpa using inNew
    have images : Images r p.updates[i] q.updates[i] := updates.get inP inQ
    obtain ⟨x, c, atOld, -, atNew⟩ := atTarget (List.getElem_mem inP) images
    simp only [List.getElem_map, Program.cellOf, atOld, graph, atNew]
  · exact range
  · intro held
    have same : ∀ {v w : VarId}, r.image v = some w → s.before p v = s.after q.graph w := by
      intro v w image
      rw [graph]
      exact (mirrors.value held image).symm
    rw [Program.roots, Program.roots, List.map_append, List.map_append, map_eq_of_images outputs same,
      map_eq_of_images values same]
  · intro held calm n live
    have inGraph := Array.mem_of_getElem? ((graph ▸ mirrors.graph : q.graph.Sound d').live_mem live)
    rw [graph] at inGraph ⊢
    exact mirrors.calm held calm n inGraph
  · intro typed
    have same : ∀ {v w : VarId}, r.image v = some w → p.typeOf v = q.typeOf w := by
      intro v w image
      obtain ⟨x, y, atV, atW, alike, -⟩ := mirrors.image image
      simp only [Program.typeOf, atV, graph, atW, Option.map_some, (alike typed).1, (alike typed).2]
    refine ⟨map_eq_of_images inputs same, map_eq_of_images outputs same, ?_⟩
    refine List.ext_getElem (by simp [updates.length_eq]) fun i inOld inNew => ?_
    have inP : i < p.updates.length := by simpa using inOld
    have inQ : i < q.updates.length := by simpa using inNew
    have images : Images r p.updates[i] q.updates[i] := updates.get inP inQ
    obtain ⟨x, c, atOld, -, atNew⟩ := atTarget (List.getElem_mem inP) images
    simp only [List.getElem_map, Program.cellOf, atOld, graph, atNew, same images.2]
  · refine nodup_images mirrors (fun u member => ?_) updates
    obtain ⟨x, -, c, atOld, -, origin, -⟩ := valid.updates u member
    exact ⟨x, atOld, by simp [Var.isLeaf, origin]⟩

/-- The first part of a rebuild: the inputs are copied, and some operations are done. -/
def opening (p : Program) (step : Node → Rebuilding Unit) (done : List Node) : Rebuilding Unit := do
  discard (Rebuild.readAll p p.inputs)
  done.forM step

theorem rebuild_eq (p : Program) (step : Node → Rebuilding Unit) : p.rebuild step =
    (p.opening step p.liveNodes >>= fun _ => Rebuild.finish p : Rebuilding Program).run' (.start p) := by
  simp only [rebuild, opening, bind_assoc]

section Steps

variable [BlockRoutine] {step : Node → Rebuilding Unit}

/-- A rebuild mirrors the program as far as it is, once each of its steps does. It keeps what else all of them keep. -/
theorem opening_keeps (extra : List Node → Rebuild → Prop) (valid : p.Valid d)
    (leaves : ∀ x : Var, x.Fits d → x.Fits d') {done : List Node}
    (opened : (Rebuild.readAll p p.inputs).Meets (.start p) (fun _ => True) fun _ r => extra [] r)
    (each : ∀ {before after : List Node} {n : Node} {r : Rebuild}, done = before ++ n :: after →
      r.Mirrors p d' (p.stage math ts cells kept typed stays moves) → r.Reached p skip before → extra before r →
      (step n).Meets r fails fun _ r' =>
        r.Advances r' p d' (p.stage math ts cells kept typed stays moves) skip n ∧ extra (before ++ [n]) r') :
    (p.opening step done).Meets (.start p) fails fun _ r =>
      (r.Mirrors p d' (p.stage math ts cells kept typed stays moves) ∧ r.Reached p skip done) ∧ extra done r := by
  have read : (discard (Rebuild.readAll p p.inputs) : Rebuilding Unit).Meets (.start p) fails fun _ r =>
      (r.Mirrors p d' (p.stage math ts cells kept typed stays moves) ∧ r.Reached p skip []) ∧ extra [] r := by
    have discarded : (discard (Rebuild.readAll p p.inputs) : Rebuilding Unit) =
        (fun _ => ()) <$> Rebuild.readAll p p.inputs := rfl
    rw [discarded, meets_map]
    exact (reads_inputs valid leaves).and opened
  unfold opening
  rw [meets_bind]
  refine read.mono fun _ r₀ held => ?_
  refine meets_forM (fun done r => (r.Mirrors p d' (p.stage math ts cells kept typed stays moves) ∧
    r.Reached p skip done) ∧ extra done r) done held ?_ fun _ held => held
  rintro before n after r split ⟨⟨mirrors, reached⟩, held⟩
  exact (each split mirrors reached held).mono fun _ r' ⟨advances, held'⟩ =>
    ⟨⟨advances.mirrors, reached.next valid advances⟩, held'⟩

theorem opening_meets (valid : p.Valid d) (leaves : ∀ x : Var, x.Fits d → x.Fits d') {done : List Node}
    (each : ∀ {before after : List Node} {n : Node} {r : Rebuild}, done = before ++ n :: after →
      r.Mirrors p d' (p.stage math ts cells kept typed stays moves) → r.Reached p skip before →
      (step n).Meets r fails fun _ r' => r.Advances r' p d' (p.stage math ts cells kept typed stays moves) skip n) :
    (p.opening step done).Meets (.start p) fails fun _ r =>
      r.Mirrors p d' (p.stage math ts cells kept typed stays moves) ∧ r.Reached p skip done :=
  (opening_keeps (fun _ _ => True) valid leaves (meets_trivial _) fun split mirrors reached _ =>
    (each split mirrors reached).mono fun _ _ advances => ⟨advances, trivial⟩).mono fun _ _ => And.left

omit [BlockRoutine] in
theorem rebuilding_eq (p : Program) (step : Node → Rebuilding Unit) : p.rebuilding step =
    (p.opening step p.liveNodes >>= fun _ => Rebuild.finish p : Rebuilding Program) (.start p) := by
  simp only [rebuilding, StateT.run, opening, bind_assoc]

/-- A rebuild is correct once it mirrors the program, and ends with the images of all that it rebuilt. Operations whose
output is in `skip` may be left without an image, as long as nobody wants them in the end. -/
theorem rebuilding_of_opening (valid : p.Valid d) (leaves : ∀ x : Var, x.Fits d → x.Fits d')
    (asked : d'.typed → d.typed ∧ typed) (roots : ∀ v ∈ p.roots, ¬ skip v)
    (opened : (p.opening step p.liveNodes).Meets (.start p) fails fun _ r =>
      r.Mirrors p d' (p.stage math ts cells kept typed stays moves) ∧ r.Reached p skip p.liveNodes) :
    match p.rebuilding step with
    | .ok (q, r) => p.Rebuilt q d' (p.stage math ts cells kept typed stays moves) ∧
        r.Mirrors p d' (p.stage math ts cells kept typed stays moves) ∧ q.graph = r.graph
    | .error e => fails e := by
  have whole : (p.opening step p.liveNodes >>= fun _ => Rebuild.finish p : Rebuilding Program).Meets (.start p) fails
      fun q r => p.Rebuilt q d' (p.stage math ts cells kept typed stays moves) ∧
        r.Mirrors p d' (p.stage math ts cells kept typed stays moves) ∧ q.graph = r.graph := by
    rw [meets_bind]
    refine opened.mono ?_
    rintro _ r ⟨mirrors, reached⟩
    refine (finish_meets valid leaves mirrors reached roots).mono fun q r' finished => ?_
    obtain ⟨mirrors', graph, range, inputs, outputs, updates⟩ := finished
    exact ⟨rebuilt_of_images valid mirrors' graph range inputs outputs updates asked, mirrors', graph⟩
  rw [rebuilding_eq]
  unfold Rebuilding.Meets at whole
  revert whole
  cases (p.opening step p.liveNodes >>= fun _ => Rebuild.finish p : Rebuilding Program) (.start p) with
  | error e => exact id
  | ok result => exact id

theorem rebuild_of_opening (valid : p.Valid d) (leaves : ∀ x : Var, x.Fits d → x.Fits d')
    (asked : d'.typed → d.typed ∧ typed) (roots : ∀ v ∈ p.roots, ¬ skip v)
    (opened : (p.opening step p.liveNodes).Meets (.start p) fails fun _ r =>
      r.Mirrors p d' (p.stage math ts cells kept typed stays moves) ∧ r.Reached p skip p.liveNodes) :
    match p.rebuild step with
    | .ok q => p.Rebuilt q d' (p.stage math ts cells kept typed stays moves)
    | .error e => fails e := by
  have whole := rebuilding_of_opening valid leaves asked roots opened
  rw [rebuild_eq_rebuilding]
  cases ran : p.rebuilding step with
  | error e =>
    rw [ran] at whole
    exact whole
  | ok result =>
    rw [ran] at whole
    exact whole.1

/-- A rebuild is correct once each of its steps is. -/
theorem rebuild_meets (valid : p.Valid d) (leaves : ∀ x : Var, x.Fits d → x.Fits d')
    (asked : d'.typed → d.typed ∧ typed) (roots : ∀ v ∈ p.roots, ¬ skip v)
    (each : ∀ {before after : List Node} {n : Node} {r : Rebuild},
      p.liveNodes = before ++ n :: after →
      r.Mirrors p d' (p.stage math ts cells kept typed stays moves) → r.Reached p skip before →
      (step n).Meets r fails fun _ r' => r.Advances r' p d' (p.stage math ts cells kept typed stays moves) skip n) :
    match p.rebuild step with
    | .ok q => p.Rebuilt q d' (p.stage math ts cells kept typed stays moves)
    | .error e => fails e :=
  rebuild_of_opening valid leaves asked roots (opening_meets valid leaves each)

end Steps

/-- A rebuild fails with its first step that fails. -/
theorem rebuild_eq_error {step : Node → Rebuilding Unit} {before after : List Node} {n : Node} {e : Error}
    {post : PUnit → Rebuild → Prop} (split : p.liveNodes = before ++ n :: after)
    (opened : (p.opening step before).Meets (.start p) (fun _ => False) post)
    (failed : ∀ r, post ⟨⟩ r → step n r = .error e) : p.rebuild step = .error e := by
  have parts : p.opening step p.liveNodes =
      (p.opening step before >>= fun _ => step n >>= fun _ => after.forM step) := by
    simp only [opening, split, List.forM_eq_forM, List.forM_append, List.forM_cons, bind_assoc]
  unfold Rebuilding.Meets at opened
  rw [rebuild_eq, parts]
  cases ran : p.opening step before (.start p) with
  | error e' =>
    rw [ran] at opened
    exact opened.elim
  | ok result =>
    rw [ran] at opened
    have whole : ((p.opening step before >>= fun _ => step n >>= fun _ => after.forM step) >>=
        fun _ => Rebuild.finish p : Rebuilding Program) (.start p) = .error e := by
      simp only [bind_apply, ran, ok_bind, failed _ opened, error_bind]
    rw [StateT.run', whole]
    rfl

end Program

end TensorGraph
