import TensorGraph.Pass.InPlace
import TensorGraph.Proofs.Pass.Rebuilt

/-! Rebuilds that copy every live operation, perhaps with another mark. Different variables have different
images, so what a program may overwrite, its copy may overwrite too. -/
namespace TensorGraph

open Checked Rebuilding

-- Where the product of blocks plays no part, any one serves for the lemmas that ask for it.
open scoped BlockRoutine

/-- The rule for operations asks for kinds, ranks and places only. -/
def Discipline.Congruent (d : Discipline) : Prop :=
  ∀ {op : Op} {tys tys' : List Ty} {place : Place} {mark : Option Nat}, d.op op tys place mark →
    List.Forall₂ Ty.Alike tys tys' → List.Forall₂ (fun t t' : Ty => t'.place = t.place) tys tys' →
      d.op op tys' place mark

namespace Program

/-- An operation may overwrite a variable that another operation computed and that nobody needs any
more: no constant that was uploaded, no root, and nothing that a later operation reads. -/
structure Spares (p : Program) (n : Node) (v : VarId) : Prop where
  producer : ∃ m, p.graph.producer? v = some m ∧ InPlace.isUpload p.graph m = false
  root : v ∉ p.roots
  last : ∀ k ∈ p.liveNodes, n.output < k.output → v ∉ k.inputs

/-- Every mark is on an operand that the operation may overwrite. -/
def OverwritesSafely (p : Program) : Prop :=
  ∀ n ∈ p.liveNodes, ∀ i, n.inPlace = some i → ∃ v, n.inputs[i]? = some v ∧ p.Spares n v

end Program

/-- The second operation is the first one on the images of its operands, with another mark. -/
structure Node.CopiedAs (n m : Node) (image : VarId → Option VarId) (mark : Option Nat) : Prop where
  op : m.op = n.op
  place : m.place = n.place
  inPlace : m.inPlace = mark
  output : image n.output = some m.output
  inputs : List.Forall₂ (fun v w => image v = some w) n.inputs m.inputs

theorem Node.CopiedAs.grows {n m : Node} {image image' : VarId → Option VarId} {mark : Option Nat}
    (copied : n.CopiedAs m image mark)
    (grows : ∀ {v w : VarId}, image v = some w → image' v = some w) : n.CopiedAs m image' mark :=
  { copied with output := grows copied.output, inputs := copied.inputs.imp fun _ _ at_ => grows at_ }

/-- What a call of a program has to do with: its interface, and what its live operations read. -/
def Program.Needs (p : Program) (v : VarId) : Prop :=
  v ∈ p.inputs ∨ v ∈ p.roots ∨ v ∈ p.updates.map Prod.fst ∨ ∃ n ∈ p.liveNodes, v ∈ n.inputs

/-- The second program is the part of the first one that is needed, with other numbers and other marks. -/
structure Program.Copied (p q : Program) (marking : Node → Except Error (Option Nat))
    (image : VarId → Option VarId) : Prop where
  float : q.graph.float = p.graph.float
  injective : ∀ {u v w : VarId}, image u = some w → image v = some w → u = v
  needed : ∀ {v w : VarId}, image v = some w → p.Needs v
  onto : ∀ {w : VarId}, w < q.graph.vars.size → ∃ v, image v = some w
  leaf : ∀ {v w : VarId} {x : Var}, image v = some w → p.graph.vars[v]? = some x → x.isLeaf →
    q.graph.vars[w]? = some x
  nodes : List.Forall₂ (fun n m => ∃ mark, marking n = .ok mark ∧ n.CopiedAs m image mark)
    p.liveNodes q.graph.nodes.toList
  inputs : List.Forall₂ (fun v w => image v = some w) p.inputs q.inputs
  outputs : List.Forall₂ (fun v w => image v = some w) p.outputs q.outputs
  updates : List.Forall₂ (fun u u' => image u.1 = some u'.1 ∧ image u.2 = some u'.2) p.updates q.updates

theorem Program.Copied.roots {p q : Program} {marking : Node → Except Error (Option Nat)}
    {image : VarId → Option VarId} (copied : p.Copied q marking image) :
    List.Forall₂ (fun v w => image v = some w) p.roots q.roots := by
  refine List.rel_append copied.outputs ?_
  rw [List.forall₂_map_left_iff, List.forall₂_map_right_iff]
  exact copied.updates.imp fun _ _ images => images.2

namespace Rebuild

/-- A copy in progress. -/
structure Copies (r : Rebuild) (p : Program) (marking : Node → Except Error (Option Nat))
    (done : List Node) : Prop where
  float : r.graph.float = p.graph.float
  injective : ∀ {u v w : VarId}, r.image u = some w → r.image v = some w → u = v
  needed : ∀ {v w : VarId}, r.image v = some w → p.Needs v
  onto : ∀ {w : VarId}, w < r.graph.vars.size → ∃ v, r.image v = some w
  inRange : ∀ {v w : VarId}, r.image v = some w → w < r.graph.vars.size
  domain : ∀ {v w : VarId}, r.image v = some w →
    (∃ x, p.graph.vars[v]? = some x ∧ x.isLeaf) ∨ ∃ n ∈ done, n.output = v
  leaf : ∀ {v w : VarId} {x : Var}, r.image v = some w → p.graph.vars[v]? = some x → x.isLeaf →
    r.graph.vars[w]? = some x
  nodes : List.Forall₂ (fun n m => ∃ mark, marking n = .ok mark ∧ n.CopiedAs m r.image mark) done
    r.graph.nodes.toList

variable {r : Rebuild} {p : Program} {marking : Node → Except Error (Option Nat)} {done : List Node}

theorem copies_start : (Rebuild.start p).Copies p marking [] where
  float := rfl
  injective at_ := by cases at_
  needed at_ := by cases at_
  onto inRange := absurd inRange (Nat.not_lt_zero _)
  inRange at_ := by cases at_
  domain at_ := by cases at_
  leaf at_ := by cases at_
  nodes := .nil

/-- A fresh variable may become the image of a variable that had none. -/
theorem Copies.bound (copies : r.Copies p marking done) {done' : List Node} {g : Graph}
    (grows : r.graph.Grows g) (float : g.float = r.graph.float) {v : VarId} (fresh : r.image v = none)
    (needs : p.Needs v) (size : g.vars.size = r.graph.vars.size + 1)
    (here : (∃ x, p.graph.vars[v]? = some x ∧ x.isLeaf ∧ g.vars[r.graph.vars.size]? = some x ∧ done' = done) ∨
      ∃ n, n.output = v ∧ done' = done ++ [n] ∧ ∀ x : Var, p.graph.vars[v]? = some x → ¬ x.isLeaf)
    (nodes : List.Forall₂ (fun n m => ∃ mark, marking n = .ok mark ∧
      n.CopiedAs m (fun u => if u = v then some r.graph.vars.size else r.image u) mark) done'
      g.nodes.toList) :
    Copies ⟨g, fun u => if u = v then some r.graph.vars.size else r.image u, r.known⟩ p marking done' where
  float := float.trans copies.float
  needed {u w} atU := by
    simp only at atU
    by_cases same : u = v
    · exact same ▸ needs
    · exact copies.needed ((if_neg same).symm.trans atU)
  onto {w} inRange := by
    by_cases old : w < r.graph.vars.size
    · obtain ⟨u, atU⟩ := copies.onto old
      exact ⟨u, Rebuild.image_bound fresh _ atU⟩
    · have bound : w < g.vars.size := inRange
      rw [size] at bound
      obtain rfl : w = r.graph.vars.size := Nat.le_antisymm (Nat.le_of_lt_succ bound) (Nat.le_of_not_lt old)
      exact ⟨v, if_pos rfl⟩
  injective {u u' w} atU atU' := by
    simp only at atU atU'
    by_cases first : u = v
    · by_cases second : u' = v
      · rw [first, second]
      · rw [if_pos first] at atU
        rw [if_neg second] at atU'
        cases atU
        exact absurd (copies.inRange atU') (Nat.lt_irrefl _)
    · by_cases second : u' = v
      · rw [if_neg first] at atU
        rw [if_pos second] at atU'
        cases atU'
        exact absurd (copies.inRange atU) (Nat.lt_irrefl _)
      · rw [if_neg first] at atU
        rw [if_neg second] at atU'
        exact copies.injective atU atU'
  inRange {u w} atU := by
    simp only at atU ⊢
    rw [size]
    by_cases same : u = v
    · rw [if_pos same] at atU
      cases atU
      exact Nat.lt_succ_self _
    · rw [if_neg same] at atU
      exact Nat.lt_succ_of_lt (copies.inRange atU)
  domain {u w} atU := by
    simp only at atU
    by_cases same : u = v
    · subst same
      rcases here with ⟨x, atV, isLeaf, -, -⟩ | ⟨n, output, rfl, -⟩
      · exact .inl ⟨x, atV, isLeaf⟩
      · exact .inr ⟨n, by simp, output⟩
    · rw [if_neg same] at atU
      rcases copies.domain atU with leaf | ⟨n, member, output⟩
      · exact .inl leaf
      · refine .inr ⟨n, ?_, output⟩
        rcases here with ⟨-, -, -, -, rfl⟩ | ⟨-, -, rfl, -⟩
        · exact member
        · exact List.mem_append_left _ member
  leaf {u w y} atU atP isLeaf := by
    simp only at atU
    by_cases same : u = v
    · subst same
      rw [if_pos rfl] at atU
      cases atU
      rcases here with ⟨x, atV, -, atNew, -⟩ | ⟨n, -, -, notLeaf⟩
      · obtain rfl : x = y := Option.some.inj (atV.symm.trans atP)
        exact atNew
      · exact absurd isLeaf (notLeaf y atP)
    · rw [if_neg same] at atU
      exact grows.vars (copies.leaf atU atP isLeaf)
  nodes := nodes

/-- Reading keeps a copy a copy. -/
theorem Copies.read (copies : r.Copies p marking done) {v : VarId} (needs : p.Needs v) :
    (Rebuild.read p v).Meets r (fun _ => True) fun w r' => r'.Copies p marking done ∧ r'.image v = some w ∧
      ∀ {u z : VarId}, r.image u = some z → r'.image u = some z := by
  unfold Rebuild.read
  rw [meets_bind, meets_get]
  cases imaged : r.image v with
  | some w => exact ⟨copies, imaged, id⟩
  | none =>
    simp only
    rw [meets_bind, meets_lift]
    cases atV : p.graph.var v with
    | error e => trivial
    | ok x =>
      rw [Graph.var_eq_ok] at atV
      simp only
      by_cases isLeaf : x.isLeaf
      swap
      · simp [isLeaf]
      simp only [isLeaf, Bool.not_true, Bool.false_eq_true, ↓reduceIte, meets_bind, Rebuild.leaf,
        Rebuild.bind, meets_get, meets_set, meets_pure, meets_modify]
      have grows := Graph.pushLeaf_grows r.graph x
      have kept : ∀ {u z : VarId}, r.image u = some z →
          (if u = v then some r.graph.vars.size else r.image u) = some z := Rebuild.image_bound imaged _
      refine ⟨copies.bound grows rfl imaged needs (by simp [Graph.pushLeaf])
        (.inl ⟨x, atV, isLeaf, Array.getElem?_push_size, rfl⟩) ?_, trivial, kept⟩
      refine copies.nodes.imp ?_
      rintro n m ⟨mark, marked, copied⟩
      exact ⟨mark, marked, copied.grows kept⟩

theorem Copies.readAll (copies : r.Copies p marking done) {vs : List VarId} (needs : ∀ v ∈ vs, p.Needs v) :
    (Rebuild.readAll p vs).Meets r (fun _ => True) fun ws r' => r'.Copies p marking done ∧
      List.Forall₂ (fun v w => r'.image v = some w) vs ws ∧
      ∀ {u z : VarId}, r.image u = some z → r'.image u = some z := by
  refine meets_mapM (fun seen ws r' => r'.Copies p marking done ∧
    List.Forall₂ (fun v w => r'.image v = some w) seen ws ∧
    ∀ {u z : VarId}, r.image u = some z → r'.image u = some z) vs ⟨copies, .nil, id⟩ ?_
    fun _ _ held => held
  rintro before v after ws r' split ⟨copies', images, kept⟩
  refine (copies'.read (needs v (by simp [split]))).mono ?_
  rintro w r'' ⟨copies'', image, kept'⟩
  exact ⟨copies'', List.rel_append (images.imp fun _ _ at_ => kept' at_) (.cons image .nil),
    fun at_ => kept' (kept at_)⟩

/-- One more operation is copied. -/
theorem Copies.copyAs (copies : r.Copies p marking done) {n : Node} {mark : Option Nat}
    (marked : marking n = .ok mark) (live : n ∈ p.liveNodes) (needs : p.Needs n.output)
    (notLeaf : ∀ x : Var, p.graph.vars[n.output]? = some x → ¬ x.isLeaf)
    (fresh : ∀ m ∈ done, m.output ≠ n.output) :
    (Rebuild.copyAs p n mark).Meets r (fun _ => True) fun _ r' => r'.Copies p marking (done ++ [n]) := by
  unfold Rebuild.copyAs
  rw [meets_bind]
  refine (copies.readAll fun v reads => .inr (.inr (.inr ⟨n, live, reads⟩))).mono ?_
  rintro ws r₁ ⟨copies₁, images, -⟩
  simp only [Rebuild.emit, meets_bind, meets_get, meets_lift]
  cases pushed : r₁.graph.push n.op ws n.place mark with
  | error e => trivial
  | ok result =>
    obtain ⟨g, w⟩ := result
    obtain ⟨tys, ty, -, -, rfl, rfl⟩ := Graph.push_eq_ok.mp pushed
    simp only [meets_set, meets_pure, Rebuild.bind, meets_modify]
    have grows := Graph.grown_grows r₁.graph n.op ws ty n.place mark
    have unread := Rebuild.unread_of_domain copies₁.domain notLeaf fresh
    have kept : ∀ {u z : VarId}, r₁.image u = some z →
        (if u = n.output then some r₁.graph.vars.size else r₁.image u) = some z := Rebuild.image_bound unread _
    refine copies₁.bound grows rfl unread needs (by simp) (.inr ⟨n, rfl, rfl, notLeaf⟩) ?_
    rw [Array.toList_push]
    refine List.rel_append ?_ (.cons ⟨mark, marked, rfl, rfl, rfl, if_pos rfl, ?_⟩ .nil)
    · refine copies₁.nodes.imp ?_
      rintro m k ⟨mark', marked', copied⟩
      exact ⟨mark', marked', copied.grows kept⟩
    · exact images.imp fun _ _ at_ => kept at_

end Rebuild

namespace Program

variable {p : Program} {d : Discipline} {marking : Node → Except Error (Option Nat)}

/-- Marks operations and copies them. -/
def marked (p : Program) (marking : Node → Except Error (Option Nat)) (n : Node) :
    Rebuilding Unit := do
  Rebuild.copyAs p n (← marking n)

/-- Operations are live because the result of each is needed. -/
theorem needs_output (valid : p.Valid d) {n : Node} (live : n ∈ p.liveNodes) : p.Needs n.output := by
  rcases (valid.graph.mem_live.mp live).2 with root | reader
  · exact .inr (.inl root)
  · exact .inr (.inr (.inr reader))

theorem finish_copied {r : Rebuild} {done : List Node} (copies : r.Copies p marking done) :
    (Rebuild.finish p).Meets r (fun _ => True) fun q r' => r'.Copies p marking done ∧ q.graph = r'.graph ∧
      List.Forall₂ (fun v w => r'.image v = some w) p.inputs q.inputs ∧
      List.Forall₂ (fun v w => r'.image v = some w) p.outputs q.outputs ∧
      List.Forall₂ (Images r') p.updates q.updates := by
  unfold Rebuild.finish
  rw [meets_bind]
  refine (copies.readAll fun v input => .inl input).mono ?_
  rintro inputs r₁ ⟨copies₁, atInputs, -⟩
  rw [meets_bind]
  refine (copies₁.readAll fun v output => .inr (.inl (List.mem_append_left _ output))).mono ?_
  rintro outputs r₂ ⟨copies₂, atOutputs, kept₂⟩
  rw [meets_bind]
  refine Rebuilding.meets_mapM (fun seen us r' => r'.Copies p marking done ∧
    (∀ {u z : VarId}, r₂.image u = some z → r'.image u = some z) ∧ List.Forall₂ (Images r') seen us) p.updates
    ⟨copies₂, id, .nil⟩ ?_ ?_
  · rintro before u after us r' split ⟨copies', kept, images⟩
    have member : u ∈ p.updates := by simp [split]
    rw [meets_bind]
    refine (copies'.read (.inr (.inr (.inl (List.mem_map_of_mem member))))).mono ?_
    rintro target r₃ ⟨copies₃, atTarget, kept₃⟩
    rw [meets_bind]
    refine (copies₃.read (.inr (.inl (mem_roots_of_update member)))).mono ?_
    rintro value r₄ ⟨copies₄, atValue, kept₄⟩
    rw [meets_pure]
    refine ⟨copies₄, fun at_ => kept₄ (kept₃ (kept at_)), ?_⟩
    exact List.rel_append (images.imp fun _ _ at_ => ⟨kept₄ (kept₃ at_.1), kept₄ (kept₃ at_.2)⟩)
      (.cons ⟨kept₄ atTarget, atValue⟩ .nil)
  · rintro us r' ⟨copies', kept, images⟩
    rw [meets_bind, meets_get, meets_pure]
    exact ⟨copies', rfl, atInputs.imp fun _ _ at_ => kept (kept₂ at_), atOutputs.imp fun _ _ at_ => kept at_, images⟩

/-- A rebuild that marks and copies makes a copy. -/
theorem rebuild_copied (valid : p.Valid d) :
    match p.rebuild (p.marked marking) with
    | .ok q => ∃ image, p.Copied q marking image
    | .error _ => True := by
  have whole : (do
      discard (Rebuild.readAll p p.inputs)
      p.liveNodes.forM (p.marked marking)
      Rebuild.finish p : Rebuilding Program).Meets (.start p) (fun _ => True)
      fun q _ => ∃ image, p.Copied q marking image := by
    rw [meets_bind]
    have opened : (discard (Rebuild.readAll p p.inputs) : Rebuilding Unit) =
        (fun _ => ()) <$> Rebuild.readAll p p.inputs := rfl
    rw [opened, meets_map]
    have start : (Rebuild.start p).Copies p marking [] := Rebuild.copies_start
    refine (start.readAll fun v input => .inl input).mono ?_
    rintro _ r₀ ⟨copies₀, -, -⟩
    rw [meets_bind]
    refine meets_forM (fun done r => r.Copies p marking done) p.liveNodes copies₀ ?_ ?_
    · intro before n after r split copies
      have live : n ∈ p.liveNodes := by
        rw [split]
        simp
      obtain ⟨tys, ty, x, known⟩ := valid.operation live
      unfold marked
      rw [meets_bind, meets_lift]
      cases found : marking n with
      | error e => trivial
      | ok mark =>
        refine copies.copyAs found live (needs_output valid live) ?_ ?_
        · intro y atV
          obtain rfl : x = y := Option.some.inj (known.atOutput.symm.trans atV)
          exact known.notLeaf
        · exact fun m member => Nat.ne_of_lt (valid.graph.live_earlier split m member)
    · intro r copies
      refine (finish_copied copies).mono ?_
      rintro q r' ⟨copies', graph, inputs, outputs, updates⟩
      refine ⟨r'.image, ?_, copies'.injective, copies'.needed, ?_, ?_, ?_, inputs, outputs, updates⟩
      · rw [graph]
        exact copies'.float
      · rw [graph]
        exact copies'.onto
      · rw [graph]
        exact copies'.leaf
      · rw [graph]
        exact copies'.nodes
  unfold Rebuilding.Meets at whole
  unfold Program.rebuild StateT.run'
  revert whole
  generalize (do
      discard (Rebuild.readAll p p.inputs)
      p.liveNodes.forM (p.marked marking)
      Rebuild.finish p : Rebuilding Program) (Rebuild.start p) = result
  intro whole
  cases result with
  | error e => exact whole
  | ok final => exact whole

variable {q : Program} {d' : Discipline} {image : VarId → Option VarId}

/-- In a copy, every operation is needed. -/
theorem Copied.all_live (valid : p.Valid d) (copied : p.Copied q marking image)
    (sound : q.graph.Sound d') : q.liveNodes = q.graph.nodes.toList := by
  have each : ∀ m ∈ q.graph.nodes.toList, m ∈ q.liveNodes := by
    intro m member
    induction distance : q.graph.vars.size - m.output using Nat.strong_induction_on generalizing m with
    | _ k ih =>
      refine sound.mem_live.mpr ⟨member, ?_⟩
      obtain ⟨n, live, mark, -, here⟩ := partner_of copied.nodes member
      rcases (valid.graph.mem_live.mp live).2 with root | ⟨k', live', reads⟩
      · left
        obtain ⟨w, inRoots, at_⟩ := partner copied.roots root
        rw [Option.some.inj (here.output.symm.trans at_)]
        exact inRoots
      · right
        obtain ⟨m', member', mark', -, there⟩ := partner copied.nodes live'
        obtain ⟨w, inInputs, at_⟩ := partner there.inputs reads
        have read : m.output ∈ m'.inputs := by
          rw [Option.some.inj (here.output.symm.trans at_)]
          exact inInputs
        refine ⟨_, ih _ ?_ _ member' rfl, read⟩
        have less := (sound.node (sound.mem_nodes member')).reads _ read
        have bound := sound.output_lt (sound.mem_nodes member')
        rw [← distance]
        exact Nat.sub_lt_sub_left (Nat.lt_trans less bound) less
  have distinct : q.graph.nodes.toList.Nodup := by
    refine sound.nodes_sorted.imp fun {a b} less same => ?_
    rw [same] at less
    exact Nat.lt_irrefl _ less
  have part : q.liveNodes.Sublist q.graph.nodes.toList := Graph.needed_sublist _ _
  exact part.eq_of_length_le (distinct.subperm each).length_le

/-- The image of what an operation computes is what its copy computes. -/
theorem producer_copied (sound : q.graph.Sound d') {n m : Node} {mark : Option Nat} (member : m ∈ q.graph.nodes.toList)
    (here : n.CopiedAs m image mark) {w : VarId} (at_ : image n.output = some w) : q.graph.producer? w = some m := by
  obtain rfl : m.output = w := Option.some.inj (here.output.symm.trans at_)
  exact sound.producer?_output (sound.mem_nodes member)

/-- The image of an operand is a constant only if the operand is one. -/
theorem Copied.constant (valid : p.Valid d) (copied : p.Copied q marking image)
    (sound : q.graph.Sound d') {k : Node} (live : k ∈ p.liveNodes) {u z : VarId} (reads : u ∈ k.inputs)
    (at_ : image u = some z) :
    q.graph.vars[z]?.bind Var.constant? = p.graph.vars[u]?.bind Var.constant? := by
  obtain ⟨tys, ty, x, known⟩ := valid.operation live
  obtain ⟨y, atU⟩ : ∃ y, p.graph.vars[u]? = some y :=
    ⟨_, Array.getElem?_eq_getElem (known.types.inRange u reads)⟩
  rcases valid.graph.leaf_or_output atU with isLeaf | ⟨i, n, atI, rfl⟩
  · rw [atU, copied.leaf at_ atU isLeaf]
  · have liveN := valid.graph.live_producer live reads (valid.graph.producer?_output atI)
    obtain ⟨m, member, mark, -, here⟩ := partner copied.nodes liveN
    obtain ⟨x', i', atZ, origin, -⟩ :=
      Graph.producer?_eq_some.mp (producer_copied sound member here at_)
    obtain ⟨y', i'', atU', origin', -⟩ :=
      Graph.producer?_eq_some.mp (valid.graph.producer?_output atI)
    simp [atZ, atU', Var.constant?, origin, origin']

theorem Copied.later (valid : p.Valid d) (copied : p.Copied q marking image)
    (sound : q.graph.Sound d') {n k n' k' : Node} {mark mark' : Option Nat} (live : n ∈ p.liveNodes)
    (live' : k ∈ p.liveNodes) (member : n' ∈ q.graph.nodes.toList)
    (member' : k' ∈ q.graph.nodes.toList) (here : n.CopiedAs n' image mark)
    (there : k.CopiedAs k' image mark') (after : n'.output < k'.output) : n.output < k.output := by
  -- Both lists are sorted by output, so the positions decide.
  have position : ∀ {a : Node} {a' : Node} {m : Option Nat}, a ∈ p.liveNodes →
      a' ∈ q.graph.nodes.toList → a.CopiedAs a' image m → ∃ i, ∃ inOld : i < p.liveNodes.length,
        ∃ inNew : i < q.graph.nodes.toList.length, p.liveNodes[i] = a ∧
          q.graph.nodes.toList[i] = a' := by
    intro a a' m liveA memberA hereA
    obtain ⟨i, inOld, rfl⟩ := List.mem_iff_getElem.mp liveA
    have inNew : i < q.graph.nodes.toList.length := by rwa [← copied.nodes.length_eq]
    obtain ⟨m', -, copy⟩ := copied.nodes.get inOld inNew
    refine ⟨i, inOld, inNew, rfl, ?_⟩
    have same : q.graph.nodes.toList[i].output = a'.output :=
      Option.some.inj (copy.output.symm.trans hereA.output)
    have atI := sound.mem_nodes (List.getElem_mem inNew)
    have atA := sound.mem_nodes memberA
    have ids := sound.eq_of_output atI atA same
    rw [ids] at atI
    exact Option.some.inj (atI.symm.trans atA)
  obtain ⟨i, inOld, inNew, rfl, rfl⟩ := position live member here
  obtain ⟨j, inOld', inNew', rfl, rfl⟩ := position live' member' there
  have sorted : p.liveNodes.Pairwise fun a b => a.output < b.output := valid.graph.live_sorted
  have before : i < j := by
    rcases Nat.lt_trichotomy i j with less | rfl | more
    · exact less
    · exact absurd after (Nat.lt_irrefl _)
    · have back := List.pairwise_iff_getElem.mp sound.nodes_sorted j i inNew' inNew more
      exact absurd after (Nat.lt_asymm back)
  exact List.pairwise_iff_getElem.mp sorted i j inOld inOld' before

/-- What an operation may overwrite, its copy may overwrite. -/
theorem Copied.spares (valid : p.Valid d) (copied : p.Copied q marking image)
    (sound : q.graph.Sound d') {n n' : Node} {mark : Option Nat} (live : n ∈ p.liveNodes)
    (member : n' ∈ q.graph.nodes.toList) (here : n.CopiedAs n' image mark) {v w : VarId}
    (reads : v ∈ n.inputs) (at_ : image v = some w) (spares : p.Spares n v) : q.Spares n' w where
  producer := by
    obtain ⟨m, produced, notUpload⟩ := spares.producer
    have liveM := valid.graph.live_producer live reads produced
    obtain ⟨m', memberM, markM, -, hereM⟩ := partner copied.nodes liveM
    obtain ⟨-, rfl⟩ := valid.graph.of_producer? produced
    refine ⟨m', producer_copied sound memberM hereM at_, ?_⟩
    rw [← notUpload, InPlace.isUpload, InPlace.isUpload, hereM.op]
    refine congrArg (m.op.isTransfer && ·) ?_
    have inputs := hereM.inputs
    cases operands : m.inputs with
    | nil =>
      rw [operands] at inputs
      rw [List.forall₂_nil_left_iff.mp inputs]
      rfl
    | cons u us =>
      rw [operands] at inputs
      obtain ⟨z, zs, first, -, images⟩ := List.forall₂_cons_left_iff.mp inputs
      have same := copied.constant valid sound liveM (by simp [operands]) first
      simp only [images, List.head?_cons, Option.any_some, same]
  root root := by
    obtain ⟨u, inRoots, image⟩ := partner_of copied.roots root
    rw [copied.injective image at_] at inRoots
    exact spares.root inRoots
  last k' live' after reads' := by
    rw [copied.all_live valid sound] at live'
    obtain ⟨k, liveK, markK, -, hereK⟩ := partner_of copied.nodes live'
    obtain ⟨u, inInputs, image⟩ := partner_of hereK.inputs reads'
    rw [copied.injective image at_] at inInputs
    exact spares.last k liveK (copied.later valid sound live liveK member live' here hereK after)
      inInputs

/-- A copy whose marks were chosen carefully overwrites safely. -/
theorem Copied.overwritesSafely (valid : p.Valid d) (copied : p.Copied q marking image)
    (sound : q.graph.Sound d')
    (careful : ∀ n ∈ p.liveNodes, ∀ i, marking n = .ok (some i) →
      ∃ v, n.inputs[i]? = some v ∧ p.Spares n v) : q.OverwritesSafely := by
  intro n' live' i marked
  rw [copied.all_live valid sound] at live'
  obtain ⟨n, live, mark, chosen, here⟩ := partner_of copied.nodes live'
  obtain ⟨v, atV, spares⟩ := careful n live i (by rw [chosen, ← here.inPlace, marked])
  obtain ⟨inOld, rfl⟩ := List.getElem?_eq_some_iff.mp atV
  have inNew : i < n'.inputs.length := by
    have lengths := here.inputs.length_eq
    omega
  have at_ : image n.inputs[i] = some n'.inputs[i] := here.inputs.get inOld inNew
  exact ⟨n'.inputs[i], List.getElem?_eq_getElem inNew,
    copied.spares valid sound live live' here (List.getElem_mem inOld) at_ spares⟩

/-- A rebuild that marks and copies mirrors the program, places included, if the new rules allow the marks. -/
theorem marked_meets [BlockRoutine] (valid : p.Valid d) (leaves : ∀ x : Var, x.Fits d → x.Fits d') (asked : d'.typed → d.typed)
    {fails : Prop} (each : ∀ n ∈ p.liveNodes, ∀ {tys : List Ty} {ty : Ty} {x : Var}, p.Operation d n tys ty x →
      match marking n with
      | .ok mark => ∀ tys', List.Forall₂ Ty.Alike tys tys' →
          List.Forall₂ (fun t t' : Ty => t'.place = t.place) tys tys' → d'.op n.op tys' n.place mark
      | .error _ => fails) (math : MathMode) (ts : List Tensor) (cells : Array Tensor) (kept : Prop) :
    match p.rebuild (p.marked marking) with
    | .ok q => p.Rebuilt q d' (p.stage math ts cells kept True True True)
    | .error _ => fails := by
  refine rebuild_meets valid leaves (fun typed => ⟨asked typed, trivial⟩) (fun _ _ => id) ?_
  intro before after n r split mirrors reached
  have live : n ∈ p.liveNodes := by
    rw [split]
    simp
  obtain ⟨tys, ty, x, known⟩ := valid.operation live
  have rule := each n live known
  unfold marked
  rw [meets_bind, meets_lift]
  cases chosen : marking n with
  | error e =>
    rw [chosen] at rule
    exact rule
  | ok mark =>
    rw [chosen] at rule
    exact mirrors.copyAs trivial valid leaves live known
      (fun v reads => reached.ready valid split (by simp) reads id)
      fun tys' alike places => rule tys' alike (places trivial)

/-- The program without what its roots do not need. It mirrors the program, places included. -/
theorem prune_meets [BlockRoutine] (valid : p.Valid d) (congruent : d.Congruent) (math : MathMode)
    (ts : List Tensor) (cells : Array Tensor) (kept : Prop) :
    match p.prune with
    | .ok q => p.Rebuilt q d (p.stage math ts cells kept True True True) ∧
        ∃ image, p.Copied q (fun n => .ok n.inPlace) image
    | .error _ => False := by
  have copied : match p.rebuild (p.marked fun n => .ok n.inPlace) with
      | .ok q => ∃ image, p.Copied q (fun n => .ok n.inPlace) image
      | .error _ => True := rebuild_copied valid
  have rebuilt : match p.rebuild (p.marked fun n => .ok n.inPlace) with
      | .ok q => p.Rebuilt q d (p.stage math ts cells kept True True True)
      | .error _ => False := by
    refine marked_meets valid (fun _ fits => fits) id (fun n live tys ty x known => ?_) math ts cells kept
    exact fun tys' alike places => congruent known.rule alike places
  have same : p.prune = p.rebuild (p.marked fun n => .ok n.inPlace) := rfl
  rw [same]
  revert copied rebuilt
  cases p.rebuild (p.marked fun n => .ok n.inPlace) with
  | error e => exact fun _ none => none
  | ok q => exact fun copied rebuilt => ⟨rebuilt, copied⟩

/-- Marks that overwrite safely do so after a program was pruned. -/
theorem prune_overwritesSafely (valid : p.Valid d) (congruent : d.Congruent)
    (safely : p.OverwritesSafely) (pruned : p.prune = .ok q) : q.OverwritesSafely := by
  have met := prune_meets valid congruent {} [] #[] False
  rw [pruned] at met
  obtain ⟨rebuilt, image, copied⟩ := met
  refine copied.overwritesSafely valid rebuilt.valid.graph fun n live i chosen => ?_
  exact safely n live i (Except.ok.inj chosen)

end Program

end TensorGraph
