import TensorGraph.Proofs.Logic.Rebuilding
import TensorGraph.Proofs.Program.Valid

/-! What every rebuild keeps: the new graph is well formed, the image of a variable has its type and its
value, and leaves are copied as they are. Each primitive of a rebuild has one lemma that says so, and
a pass is correct once its steps are. -/
namespace TensorGraph

open Checked Rebuilding

/-- What the images of a rebuild are held to. -/
structure Stage where
  old : Binding
  new : Binding
  sameCells : new.cells = old.cells
  math : MathMode
  /-- Images have the values of the variables. -/
  kept : Prop
  /-- Images have the types of the variables. -/
  typed : Prop
  /-- Images are where the variables are. -/
  stays : Prop
  /-- A known transfer is where it leads. -/
  moves : Prop

variable [BlockRoutine]

namespace Stage

/-- The value of an old variable. -/
def before (s : Stage) (p : Program) (v : VarId) : Option Tensor :=
  p.graph.value (fun _ => s.math) s.old v

/-- The value of a new variable. -/
def after (s : Stage) (g : Graph) (w : VarId) : Option Tensor :=
  g.value (fun _ => s.math) s.new w

/-- No operation that is computed has sizes that overflow. -/
def Calm (s : Stage) (p : Program) : Prop := ∀ n ∈ p.liveNodes, n.op.Calm (n.inputs.mapM (s.before p))

/-- An operation that is computed gives its output its value. -/
theorem before_output (s : Stage) {p : Program} {d : Discipline} (valid : p.Valid d) {n : Node}
    (live : n ∈ p.liveNodes) :
    s.before p n.output = (n.inputs.mapM (s.before p)).bind fun ts => (n.op.eval s.math ts).toOption :=
  valid.graph.value_output (valid.graph.live_mem live)

end Stage

/-- The variable has the type and the value of an operation on others. -/
structure Graph.Knows (g : Graph) (s : Stage) (op : Op) (inputs : List VarId) (v : VarId) : Prop where
  typed : ∃ tys ty y, g.Types inputs tys ∧ op.infer tys = .ok ty ∧ g.vars[v]? = some y ∧
    ty.Alike y.ty
  place : s.moves → ∀ dest, op = .transferTo dest → ∀ y, g.vars[v]? = some y → y.ty.place = some dest
  value : s.kept → s.after g v =
    (inputs.mapM (s.after g)).bind fun ts => (op.eval s.math ts).toOption

namespace Rebuild

/-- The new graph mirrors the old one as far as it was rebuilt. -/
structure Mirrors (r : Rebuild) (p : Program) (d : Discipline) (s : Stage) : Prop where
  graph : r.graph.Sound d
  image : ∀ {v w : VarId}, r.image v = some w → ∃ x y, p.graph.vars[v]? = some x ∧
    r.graph.vars[w]? = some y ∧ (s.typed → x.ty.Alike y.ty) ∧ (s.stays → y.ty.place = x.ty.place)
  leaf : ∀ {v w : VarId} {x : Var}, r.image v = some w → p.graph.vars[v]? = some x → x.isLeaf →
    r.graph.vars[w]? = some x
  /-- Different leaves stay different. -/
  apart : ∀ {u v w : VarId} {x y : Var}, r.image u = some w → r.image v = some w →
    p.graph.vars[u]? = some x → x.isLeaf → p.graph.vars[v]? = some y → y.isLeaf → u = v
  value : s.kept → ∀ {v w : VarId}, r.image v = some w → s.after r.graph w = s.before p v
  known : ∀ e ∈ r.known, r.graph.Knows s e.1.1 e.1.2 e.2
  inputs : ∀ {w : VarId} {y : Var}, r.graph.vars[w]? = some y → y.isInput → w < p.inputs.length
  /-- No operation of the new graph has sizes that overflow, unless one of the old program has. -/
  calm : s.kept → s.Calm p → ∀ n ∈ r.graph.nodes, n.op.Calm (n.inputs.mapM (s.after r.graph))

/-- Nothing that was rebuilt is forgotten. -/
structure Grows (r r' : Rebuild) : Prop where
  graph : r.graph.Grows r'.graph
  image : ∀ {v w : VarId}, r.image v = some w → r'.image v = some w

omit [BlockRoutine] in
theorem Grows.refl (r : Rebuild) : r.Grows r := ⟨.refl _, id⟩

omit [BlockRoutine] in
theorem Grows.trans {r r' r'' : Rebuild} (first : r.Grows r') (second : r'.Grows r'') :
    r.Grows r'' := ⟨first.graph.trans second.graph, fun at_ => second.image (first.image at_)⟩

omit [BlockRoutine] in
/-- A variable that gets its first image leaves the other images as they are. -/
theorem image_bound {r : Rebuild} {v : VarId} (fresh : r.image v = none) (new : VarId) {u w : VarId}
    (at_ : r.image u = some w) : (if u = v then some new else r.image u) = some w := by
  have other : u ≠ v := by
    rintro rfl
    cases fresh.symm.trans at_
  rw [if_neg other, at_]

omit [BlockRoutine] in
/-- As long as leaves and results of operations that are done have images only, the next result has none. -/
theorem unread_of_domain {r : Rebuild} {p : Program} {done : List Node} {v : VarId}
    (domain : ∀ {u w : VarId}, r.image u = some w →
      (∃ x, p.graph.vars[u]? = some x ∧ x.isLeaf) ∨ ∃ n ∈ done, n.output = u)
    (computed : ∀ x : Var, p.graph.vars[v]? = some x → ¬ x.isLeaf) (apart : ∀ n ∈ done, n.output ≠ v) :
    r.image v = none := by
  cases imaged : r.image v with
  | none => rfl
  | some w =>
    rcases domain imaged with ⟨x, atV, isLeaf⟩ | ⟨n, member, same⟩
    · exact absurd isLeaf (computed x atV)
    · exact absurd same (apart n member)

/-- A variable that may be read: it has an image, or is a leaf that the caller does not bind. -/
def Ready (r : Rebuild) (p : Program) (v : VarId) : Prop :=
  (r.image v).isSome ∨ ∃ x, p.graph.vars[v]? = some x ∧ x.isLeaf ∧ ¬ x.isInput

omit [BlockRoutine] in
theorem Ready.grows {r r' : Rebuild} {p : Program} {v : VarId} (ready : r.Ready p v)
    (grows : r.Grows r') : r'.Ready p v := by
  rcases ready with imaged | leaf
  · obtain ⟨w, atV⟩ := Option.isSome_iff_exists.mp imaged
    exact .inl (by rw [grows.image atV]; rfl)
  · exact .inr leaf

omit [BlockRoutine] in
/-- An operation whose operands have other types than it asks for is refused. -/
theorem emit_fails {r : Rebuild} {op : Op} {inputs : List VarId} {tys : List Ty} {e : Error} {place : Place}
    {mark : Option Nat} {fails : Error → Prop} {post : VarId → Rebuild → Prop} (types : r.graph.Types inputs tys)
    (refused : op.infer tys = .error e) (failed : fails e) : (emit op inputs place mark).Meets r fails post := by
  have pushed : r.graph.push op inputs place mark = .error e := by
    rw [Graph.push, Graph.tys_eq_ok.mpr types, ok_bind, refused]
    rfl
  simp only [emit, meets_bind, meets_get, meets_lift, pushed]
  exact failed

end Rebuild

theorem Graph.Knows.grows {g g' : Graph} {d d' : Discipline} {s : Stage} {op : Op}
    {inputs : List VarId} {v : VarId} (knows : g.Knows s op inputs v) (sound : g.Sound d)
    (sound' : g'.Sound d') (grows : g.Grows g') : g'.Knows s op inputs v := by
  obtain ⟨tys, ty, y, types, inferred, atV, alike⟩ := knows.typed
  refine ⟨⟨tys, ty, y, grows.types types, inferred, grows.vars atV, alike⟩, ?_, ?_⟩
  · intro moves dest isTransfer z atZ
    obtain rfl : y = z := Option.some.inj ((grows.vars atV).symm.trans atZ)
    exact knows.place moves dest isTransfer y atV
  · intro kept
    have inRange := (Array.getElem?_eq_some_iff.mp atV).1
    have same := knows.value kept
    have operands : inputs.mapM (s.after g') = inputs.mapM (s.after g) :=
      mapM_congr fun u member => sound.value_grows sound' grows (types.inRange u member)
    rw [operands, ← same]
    exact sound.value_grows sound' grows inRange

namespace Rebuild.Mirrors

variable {r : Rebuild} {p : Program} {d : Discipline} {s : Stage} {fails : Error → Prop}

theorem inRange (mirrors : r.Mirrors p d s) {v w : VarId} (at_ : r.image v = some w) :
    w < r.graph.vars.size := by
  obtain ⟨x, y, -, atW, -, -⟩ := mirrors.image at_
  exact (Array.getElem?_eq_some_iff.mp atW).1

theorem reads (mirrors : r.Mirrors p d s) {n : Node} (member : n ∈ r.graph.nodes) :
    ∀ v ∈ n.inputs, v < r.graph.vars.size := by
  obtain ⟨i, at_⟩ := Array.getElem?_of_mem member
  obtain ⟨-, -, -, tys, -, -, types, -⟩ := mirrors.graph.node at_
  exact types.inRange

/-- A larger graph with the same images mirrors as much. -/
theorem grow (mirrors : r.Mirrors p d s) {g : Graph} (sound : g.Sound d) (grows : r.graph.Grows g)
    (inputs : ∀ {w : VarId} {y : Var}, g.vars[w]? = some y → y.isInput → w < p.inputs.length)
    (calm : ∀ n ∈ g.nodes, n ∈ r.graph.nodes ∨ (∀ v ∈ n.inputs, v < r.graph.vars.size) ∧
      (s.kept → s.Calm p → n.op.Calm (n.inputs.mapM (s.after r.graph)))) :
    Mirrors { r with graph := g } p d s where
  graph := sound
  image at_ := by
    obtain ⟨x, y, atV, atW, alike, place⟩ := mirrors.image at_
    exact ⟨x, y, atV, grows.vars atW, alike, place⟩
  leaf at_ atV isLeaf := grows.vars (mirrors.leaf at_ atV isLeaf)
  apart := mirrors.apart
  value kept {v w} at_ := by
    rw [← mirrors.value kept at_]
    exact mirrors.graph.value_grows sound grows (mirrors.inRange at_)
  known e member := (mirrors.known e member).grows mirrors.graph sound grows
  inputs := inputs
  calm kept quiet n member := by
    obtain ⟨reads, calm⟩ : (∀ v ∈ n.inputs, v < r.graph.vars.size) ∧ n.op.Calm (n.inputs.mapM (s.after r.graph)) := by
      rcases calm n member with old | ⟨reads, new⟩
      · exact ⟨mirrors.reads old, mirrors.calm kept quiet n old⟩
      · exact ⟨reads, new kept quiet⟩
    have same : n.inputs.mapM (s.after g) = n.inputs.mapM (s.after r.graph) :=
      mapM_congr fun v here => mirrors.graph.value_grows sound grows (reads v here)
    rwa [same]

/-- One more variable has an image. -/
theorem bound (mirrors : r.Mirrors p d s) {v w : VarId} {x y : Var} (atV : p.graph.vars[v]? = some x)
    (atW : r.graph.vars[w]? = some y) (alike : s.typed → x.ty.Alike y.ty)
    (place : s.stays → y.ty.place = x.ty.place) (copied : x.isLeaf → y = x)
    (fresh : x.isLeaf → ∀ u, r.image u ≠ some w) (value : s.kept → s.after r.graph w = s.before p v) :
    Mirrors { r with image := fun u => if u = v then some w else r.image u } p d s where
  graph := mirrors.graph
  image {u z} at_ := by
    simp only at at_
    split at at_
    · rename_i same
      subst same
      cases at_
      exact ⟨x, y, atV, atW, alike, place⟩
    · exact mirrors.image at_
  leaf {u z x'} at_ atU isLeaf := by
    simp only at at_
    split at at_
    · rename_i same
      subst same
      cases at_
      obtain rfl : x = x' := Option.some.inj (atV.symm.trans atU)
      rw [← copied isLeaf]
      exact atW
    · exact mirrors.leaf at_ atU isLeaf
  apart {a b z x₁ x₂} atA atB atOldA leafA atOldB leafB := by
    simp only at atA atB
    split at atA <;> split at atB
    · rename_i sameA sameB
      rw [sameA, sameB]
    · rename_i same _
      subst same
      cases atA
      obtain rfl : x = x₁ := Option.some.inj (atV.symm.trans atOldA)
      exact absurd atB (fresh leafA b)
    · rename_i same
      subst same
      cases atB
      obtain rfl : x = x₂ := Option.some.inj (atV.symm.trans atOldB)
      exact absurd atA (fresh leafB a)
    · exact mirrors.apart atA atB atOldA leafA atOldB leafB
  value kept {u z} at_ := by
    simp only at at_
    split at at_
    · rename_i same
      subst same
      cases at_
      exact value kept
    · exact mirrors.value kept at_
  known := mirrors.known
  inputs := mirrors.inputs
  calm := mirrors.calm

/-- A leaf may be copied. -/
theorem leafAdded (fails : Error → Prop) (mirrors : r.Mirrors p d s) {v : VarId} {x : Var} (fresh : r.image v = none)
    (atV : p.graph.vars[v]? = some x) (isLeaf : x.isLeaf) (fits : x.Fits d)
    (input : x.isInput → r.graph.vars.size < p.inputs.length ∧
      (s.kept → s.new.input r.graph.vars.size = s.old.input v)) :
    (Rebuild.leaf x >>= fun w => Rebuild.bind v w >>= fun _ => pure w).Meets r fails
      fun w r' => r'.Mirrors p d s ∧ r.Grows r' ∧ r'.image v = some w ∧ w = r.graph.vars.size ∧
        r'.graph.vars.size = r.graph.vars.size + 1 ∧
        ∀ u, u ≠ v → r'.image u = r.image u := by
  have sound := mirrors.graph.pushLeaf isLeaf fits
  have grows := Graph.pushLeaf_grows r.graph x
  have atNew : (r.graph.pushLeaf x).1.vars[r.graph.vars.size]? = some x :=
    Array.getElem?_push_size
  have grown : Mirrors { r with graph := (r.graph.pushLeaf x).1 } p d s := by
    refine mirrors.grow sound grows (fun {w y} atW isInput => ?_) fun n member => .inl member
    by_cases last : w = r.graph.vars.size
    · subst last
      obtain rfl : x = y := Option.some.inj (atNew.symm.trans atW)
      exact (input isInput).1
    · have old : r.graph.vars[w]? = some y := by
        simpa [Graph.pushLeaf, Array.getElem?_push, last] using atW
      exact mirrors.inputs old isInput
  have value : s.kept → s.after (r.graph.pushLeaf x).1 r.graph.vars.size = s.before p v := by
    intro kept
    rw [Stage.after, Stage.before, Graph.value_leaf atNew isLeaf, Graph.value_leaf atV isLeaf]
    cases origin : x.origin with
    | input =>
      exact (input (by simp [Var.isInput, origin])).2 kept
    | constant t => rfl
    | shared c => simp only [Origin.value?, s.sameCells]
    | output i => rfl
  simp only [Rebuild.leaf, Rebuild.bind, meets_bind, meets_get, meets_set, meets_pure, meets_modify]
  have unread : ∀ u, r.image u ≠ some r.graph.vars.size := fun u atU =>
    absurd (mirrors.inRange atU) (Nat.lt_irrefl _)
  refine ⟨grown.bound atV atNew (fun _ => .refl _) (fun _ => rfl) (fun _ => rfl) (fun _ => unread) value,
    ⟨grows, ?_⟩, ?_, rfl, ?_, ?_⟩
  · exact image_bound fresh _
  · simp [Graph.pushLeaf]
  · simp [Graph.pushLeaf]
  · intro u different
    simp [different]

/-- A constant may be added. -/
theorem constant (mirrors : r.Mirrors p d s) {t : Tensor}
    (leaf : d.leaf { kind := t.kind, rank := t.rank }) :
    (Rebuild.constant t).Meets r fails fun w r' => r'.Mirrors p d s ∧ r.Grows r' ∧
      s.after r'.graph w = some t ∧
      r'.graph.vars[w]? = some ⟨{ kind := t.kind, rank := t.rank }, .constant t, none⟩ := by
  have fits : Var.Fits d ⟨{ kind := t.kind, rank := t.rank }, .constant t, none⟩ :=
    ⟨leaf, rfl, rfl⟩
  have sound := mirrors.graph.pushLeaf rfl fits
  have grows := Graph.pushLeaf_grows r.graph ⟨{ kind := t.kind, rank := t.rank }, .constant t, none⟩
  have atNew : (r.graph.pushLeaf ⟨{ kind := t.kind, rank := t.rank }, .constant t, none⟩).1.vars[
      r.graph.vars.size]? = some ⟨{ kind := t.kind, rank := t.rank }, .constant t, none⟩ :=
    Array.getElem?_push_size
  simp only [Rebuild.constant, Rebuild.leaf, meets_bind, meets_get, meets_set, meets_pure]
  refine ⟨mirrors.grow sound grows (fun {w y} atW isInput => ?_) fun n member => .inl member, ⟨grows, id⟩, ?_, atNew⟩
  · by_cases last : w = r.graph.vars.size
    · subst last
      rw [atNew] at atW
      cases atW
      cases isInput
    · have old : r.graph.vars[w]? = some y := by
        simpa [Graph.pushLeaf, Array.getElem?_push, last] using atW
      exact mirrors.inputs old isInput
  · exact Graph.value_leaf atNew rfl

/-- What is wanted can be read, and its image is known afterwards. -/
theorem read (mirrors : r.Mirrors p d s) {v : VarId} (ready : r.Ready p v)
    (leaves : ∀ x : Var, p.graph.vars[v]? = some x → x.isLeaf → x.Fits d) :
    (Rebuild.read p v).Meets r fails fun w r' =>
      r'.Mirrors p d s ∧ r.Grows r' ∧ r'.image v = some w := by
  unfold Rebuild.read
  rw [meets_bind, meets_get]
  cases imaged : r.image v with
  | some w => exact ⟨mirrors, .refl r, imaged⟩
  | none =>
    obtain ⟨x, atV, isLeaf, notInput⟩ := ready.resolve_left (by simp [imaged])
    simp only [meets_bind, meets_lift, Graph.var_eq_ok.mpr atV, isLeaf, Bool.not_true,
      Bool.false_eq_true, ↓reduceIte, meets_pure]
    have added := mirrors.leafAdded fails imaged atV isLeaf (leaves x atV isLeaf)
      fun isInput => absurd isInput notInput
    simp only [meets_bind, meets_pure] at added
    refine added.mono fun w r' met => met.mono ?_
    rintro _ r'' ⟨mirrors', grows, image, -⟩
    exact ⟨mirrors', grows, image⟩

theorem readAll (mirrors : r.Mirrors p d s) {vs : List VarId} (ready : ∀ v ∈ vs, r.Ready p v)
    (leaves : ∀ v ∈ vs, ∀ x : Var, p.graph.vars[v]? = some x → x.isLeaf → x.Fits d) :
    (Rebuild.readAll p vs).Meets r fails fun ws r' =>
      r'.Mirrors p d s ∧ r.Grows r' ∧ List.Forall₂ (fun v w => r'.image v = some w) vs ws := by
  refine meets_mapM (fun done ws r' => r'.Mirrors p d s ∧ r.Grows r' ∧
    List.Forall₂ (fun v w => r'.image v = some w) done ws) vs ⟨mirrors, .refl r, .nil⟩ ?_
    fun _ _ held => held
  rintro before v after ws r' split ⟨mirrors', grows, images⟩
  have member : v ∈ vs := by simp [split]
  refine (mirrors'.read ((ready v member).grows grows) (leaves v member)).mono ?_
  rintro w r'' ⟨mirrors'', grows', image⟩
  refine ⟨mirrors'', grows.trans grows', ?_⟩
  exact List.rel_append (images.imp fun _ _ at_ => grows'.image at_) (.cons image .nil)

/-- An operation whose operands have the types that it asks for can be emitted. -/
theorem emit (mirrors : r.Mirrors p d s) {op : Op} {inputs : List VarId} {tys : List Ty} {ty : Ty}
    {place : Place} {mark : Option Nat} (types : r.graph.Types inputs tys)
    (inferred : op.infer tys = .ok ty) (held : d.op op tys place mark)
    (calm : s.kept → s.Calm p → ¬ op.isPointwise → op.Calm (inputs.mapM (s.after r.graph))) :
    (Rebuild.emit op inputs place mark).Meets r fails fun w r' =>
      r'.Mirrors p d s ∧ r.Grows r' ∧ r'.image = r.image ∧ r'.known = r.known ∧
        r'.graph = r.graph.grown op inputs ty place mark ∧ w = r.graph.vars.size ∧
        (∃ y, r'.graph.vars[w]? = some y ∧ y.ty = ty.placed place ∧ ¬ y.isLeaf) ∧
        s.after r'.graph w =
          (inputs.mapM (s.after r.graph)).bind fun ts => (op.eval s.math ts).toOption := by
  have sound := mirrors.graph.grown types inferred held
  have grows := Graph.grown_grows r.graph op inputs ty place mark
  have pushed : r.graph.push op inputs place mark =
      .ok (r.graph.grown op inputs ty place mark, r.graph.vars.size) :=
    Graph.push_eq_ok.mpr ⟨tys, ty, types, inferred, rfl, rfl⟩
  have atNew : (r.graph.grown op inputs ty place mark).nodes[r.graph.nodes.size]? = some
      { id := r.graph.nodes.size, op, inputs, output := r.graph.vars.size, place, inPlace := mark } :=
    Array.getElem?_push_size
  simp only [Rebuild.emit, meets_bind, meets_get, meets_lift, pushed, meets_set, meets_pure]
  refine ⟨?_, ⟨grows, id⟩, trivial, trivial, trivial, trivial,
    ⟨_, Array.getElem?_push_size, rfl, by simp [Var.isLeaf]⟩, ?_⟩
  · refine mirrors.grow sound grows (fun {w y} atW isInput => ?_) fun n member => ?_
    · by_cases last : w = r.graph.vars.size
      · subst last
        simp only [Array.getElem?_push_size, Option.some.injEq] at atW
        subst atW
        simp [Var.isInput] at isInput
      · have old : r.graph.vars[w]? = some y := by simpa [Array.getElem?_push, last] using atW
        exact mirrors.inputs old isInput
    · refine (Array.mem_push.mp member).imp id ?_
      rintro rfl
      refine ⟨types.inRange, fun kept quiet => ?_⟩
      by_cases pointwise : op.isPointwise
      · refine Op.calm_of_pointwise pointwise ?_
        rintro rfl
        obtain ⟨first, rest, rfl, -⟩ := Op.infer_eq_ok.mp inferred
        cases types
      · exact calm kept quiet pointwise
  · rw [Stage.after]
    refine (sound.value_output atNew).trans ?_
    refine congrArg₂ _ (mapM_congr fun u member => ?_) rfl
    exact mirrors.graph.value_grows sound grows (types.inRange u member)

/-- An output can be given an image of its type and value. -/
theorem bind (mirrors : r.Mirrors p d s) {v w : VarId} {x y : Var} (atV : p.graph.vars[v]? = some x)
    (notLeaf : ¬ x.isLeaf) (atW : r.graph.vars[w]? = some y) (alike : s.typed → x.ty.Alike y.ty)
    (place : s.stays → y.ty.place = x.ty.place)
    (value : s.kept → s.after r.graph w = s.before p v) :
    (Rebuild.bind v w).Meets r fails fun _ r' => r'.Mirrors p d s ∧ r'.image v = some w ∧
      r'.graph = r.graph ∧ r'.known = r.known ∧ ∀ u, u ≠ v → r'.image u = r.image u := by
  rw [Rebuild.bind, meets_modify]
  refine ⟨mirrors.bound atV atW alike place (fun isLeaf => absurd isLeaf notLeaf)
    (fun isLeaf => absurd isLeaf notLeaf) value, ?_, rfl, rfl, ?_⟩
  · simp
  · intro u different
    simp [different]

theorem note (mirrors : r.Mirrors p d s) {op : Op} {inputs : List VarId} {v : VarId}
    (knows : r.graph.Knows s op inputs v) :
    (Rebuild.note op inputs v).Meets r fails fun _ r' => r'.Mirrors p d s ∧
      r'.graph = r.graph ∧ r'.image = r.image := by
  rw [Rebuild.note, meets_modify]
  refine ⟨{ mirrors with known := ?_ }, rfl, rfl⟩
  intro e member
  rcases List.mem_cons.mp member with rfl | old
  · exact knows
  · exact mirrors.known e old

/-- What is known is true. -/
theorem known? (mirrors : r.Mirrors p d s) (op : Op) (inputs : List VarId) :
    (Rebuild.known? op inputs).Meets r fails fun found r' => r' = r ∧
      ∀ v, found = some v → r.graph.Knows s op inputs v := by
  simp only [Rebuild.known?, meets_bind, meets_get, meets_pure, true_and]
  intro v found
  obtain ⟨e, atE, rfl⟩ := Option.map_eq_some_iff.mp found
  have member := List.mem_of_find?_eq_some atE
  have same := List.find?_some atE
  have key : e.1 = (op, inputs) := by simpa using same
  have knows := mirrors.known e member
  rw [key] at knows
  exact knows

/-- What is emitted later does not change the values of operands. -/
theorem values_grow (mirrors : r.Mirrors p d s) {g : Graph} (sound : g.Sound d)
    (grows : r.graph.Grows g) {vs : List VarId} {tys : List Ty} (types : r.graph.Types vs tys) :
    vs.mapM (s.after g) = vs.mapM (s.after r.graph) :=
  mapM_congr fun u member => mirrors.graph.value_grows sound grows (types.inRange u member)

/-- The images of variables have their types. -/
theorem types (mirrors : r.Mirrors p d s) {vs ws : List VarId} {tys : List Ty}
    (images : List.Forall₂ (fun v w => r.image v = some w) vs ws) (types : p.graph.Types vs tys) :
    ∃ tys', r.graph.Types ws tys' ∧ (s.typed → List.Forall₂ Ty.Alike tys tys') ∧
      (s.stays → List.Forall₂ (fun t t' : Ty => t'.place = t.place) tys tys') := by
  induction images generalizing tys with
  | nil =>
    cases types
    exact ⟨[], .nil, fun _ => .nil, fun _ => .nil⟩
  | cons image images ih =>
    cases types with
    | cons head tail =>
      obtain ⟨x, atX, rfl⟩ := head
      obtain ⟨tys', typesRest, alikeRest, placesRest⟩ := ih tail
      obtain ⟨x', y, atX', atY, alike, place⟩ := mirrors.image image
      obtain rfl : x = x' := Option.some.inj (atX.symm.trans atX')
      exact ⟨y.ty :: tys', .cons ⟨y, atY, rfl⟩ typesRest, fun typed => .cons (alike typed) (alikeRest typed),
        fun stays => .cons (place stays) (placesRest stays)⟩

/-- The images of variables have their values. -/
theorem values (mirrors : r.Mirrors p d s) (kept : s.kept) {vs ws : List VarId}
    (images : List.Forall₂ (fun v w => r.image v = some w) vs ws) :
    ws.mapM (s.after r.graph) = vs.mapM (s.before p) := by
  induction images with
  | nil => rfl
  | cons image images ih =>
    rw [List.mapM_cons, List.mapM_cons, mirrors.value kept image, ih]

end Rebuild.Mirrors

end TensorGraph
