import TensorGraph.Proofs.Executable.Pruned

/-! Fusion as two steps. First every operation takes in what it absorbs, without new numbers: it becomes an expression
on what its cluster loads. Then nothing reads the absorbed operations, and the program is pruned. -/
namespace TensorGraph

open Checked

/-- Any operation may stand anywhere. -/
def Discipline.Free (d : Discipline) : Prop := ∀ op tys place mark, d.op op tys place mark

namespace Fusion

section Clusters

variable {g : Graph} {d : Discipline} {vs : List VarId} {n m k : Node} {v : VarId}

/-- What a part of a cluster absorbs is part of the cluster. -/
theorem Cluster.snoc (cluster : Cluster g vs n k) (reads : v ∈ k.inputs) (inside : v ∈ vs)
    (produced : g.producer? v = some m) : Cluster g vs n m := by
  induction cluster with
  | self n => exact .inner reads inside produced (.self m)
  | inner readsN insideN producedN _ ih => exact .inner readsN insideN producedN (ih reads)

/-- What is part of a cluster is its result, or absorbed by another part. -/
theorem Cluster.last (cluster : Cluster g vs n m) :
    m = n ∨ ∃ k v, Cluster g vs n k ∧ v ∈ k.inputs ∧ v ∈ vs ∧ g.producer? v = some m := by
  induction cluster with
  | self n => exact .inl rfl
  | @inner n m' m v reads inside produced rest ih =>
    right
    rcases ih with rfl | ⟨k, u, cluster, readsU, insideU, producedU⟩
    · exact ⟨n, v, .self n, reads, inside, produced⟩
    · exact ⟨k, u, .inner reads inside produced cluster, readsU, insideU, producedU⟩

theorem cluster_output (sound : g.Sound d) (at_ : g.nodes[n.id]? = some n) (cluster : Cluster g vs n m) :
    m.output ≤ n.output := by
  induction cluster with
  | self n => exact Nat.le_refl _
  | inner reads _ produced _ ih =>
    obtain ⟨atM, rfl⟩ := sound.of_producer? produced
    exact Nat.le_trans (ih atM) (Nat.le_of_lt ((sound.node at_).reads _ reads))

theorem cluster_mem (sound : g.Sound d) (at_ : g.nodes[n.id]? = some n) (cluster : Cluster g vs n m) :
    g.nodes[m.id]? = some m := by
  induction cluster with
  | self n => exact at_
  | inner _ _ produced _ ih => exact ih (sound.of_producer? produced).1

theorem loads_lt (sound : g.Sound d) (at_ : g.nodes[n.id]? = some n) (loads : Loads g vs n v) : v < n.output := by
  obtain ⟨m, cluster, reads, -⟩ := loads
  exact Nat.lt_of_lt_of_le ((sound.node (cluster_mem sound at_ cluster)).reads v reads) (cluster_output sound at_ cluster)

/-- An operation that absorbs nothing is a cluster of its own. -/
theorem cluster_alone (alone : ∀ v ∈ n.inputs, v ∉ vs) (cluster : Cluster g vs n m) : m = n := by
  cases cluster with
  | self => rfl
  | inner reads inside => exact absurd inside (alone _ reads)

end Clusters

section Heads

variable {p : Program} {d : Discipline} {vs : List VarId} {n n' m : Node}

theorem cluster_live (valid : p.Valid d) (live : n ∈ p.liveNodes) (cluster : Cluster p.graph vs n m) :
    m ∈ p.liveNodes := by
  induction cluster with
  | self n => exact live
  | inner reads _ produced _ ih => exact ih (valid.graph.live_producer live reads produced)

/-- Every live operation is computed by a cluster whose result is not absorbed. -/
theorem exists_head (valid : p.Valid d) (absorbed : ∀ v ∈ vs, ∃ m n, Absorbed p v m n) (live : m ∈ p.liveNodes) :
    ∃ n ∈ p.liveNodes, n.output ∉ vs ∧ Cluster p.graph vs n m := by
  refine valid.graph.live_induction (motive := fun m => ∃ n ∈ p.liveNodes, n.output ∉ vs ∧ Cluster p.graph vs n m)
    (fun m live ih => ?_) live
  by_cases inside : m.output ∈ vs
  swap
  · exact ⟨m, live, inside, .self m⟩
  obtain ⟨m', k, taken⟩ := absorbed _ inside
  have produced := valid.graph.producer?_output (valid.graph.live_mem live)
  have later := (valid.graph.node (valid.graph.live_mem taken.live)).reads _ taken.reads
  obtain ⟨n, liveN, head, cluster⟩ := ih k taken.live later
  exact ⟨n, liveN, head, cluster.snoc taken.reads inside produced⟩

/-- No operation is computed by two clusters. -/
theorem head_unique (valid : p.Valid d) (absorbed : ∀ v ∈ vs, ∃ m n, Absorbed p v m n) (live : n ∈ p.liveNodes)
    (live' : n' ∈ p.liveNodes) (head : n.output ∉ vs) (head' : n'.output ∉ vs) (cluster : Cluster p.graph vs n m)
    (cluster' : Cluster p.graph vs n' m) : n = n' := by
  refine valid.graph.live_induction (motive := fun m => Cluster p.graph vs n m → Cluster p.graph vs n' m → n = n')
    (fun m liveM ih cluster cluster' => ?_) (cluster_live valid live cluster) cluster cluster'
  rcases cluster.last with rfl | ⟨k, v, inner, reads, inside, produced⟩
  · rcases cluster'.last with same | ⟨k, v, -, -, inside, produced⟩
    · exact same
    · obtain ⟨-, rfl⟩ := valid.graph.of_producer? produced
      exact absurd inside head
  obtain ⟨-, rfl⟩ := valid.graph.of_producer? produced
  rcases cluster'.last with rfl | ⟨k', v', inner', reads', inside', produced'⟩
  · exact absurd inside head'
  obtain ⟨-, rfl⟩ := valid.graph.of_producer? produced'
  -- What is absorbed has one reader, so the clusters meet there already.
  obtain ⟨m', k₀, taken⟩ := absorbed _ inside
  have liveK := cluster_live valid live inner
  obtain rfl : k = k' := (taken.only k liveK reads).trans (taken.only k' (cluster_live valid live' inner') reads').symm
  exact ih k liveK ((valid.graph.node (valid.graph.live_mem liveK)).reads _ reads) inner inner'

end Heads

/-- An operation that absorbs another one. -/
def Absorbs (vs : List VarId) (n : Node) : Prop := n.op.isFusable ∧ ∃ v ∈ n.inputs, v ∈ vs

/-- An operation with everything that it absorbs: an expression on what its cluster loads. -/
def merge (g : Graph) (vs : List VarId) (n : Node) : Node :=
  if n.op.isFusable && n.inputs.any fun v => vs.contains v then
    match Tree.expand g vs (n.id + 1) n {} with
    | .ok (t, _) => { n with op := .fused ⟨t.steps, t.inputs.length⟩, inputs := t.inputs, inPlace := none }
    | .error _ => n
  else n

/-- The program whose operations have taken in what they absorb. What is absorbed is there still, but not live. -/
def merged (p : Program) (vs : List VarId) : Program :=
  { p with graph := { p.graph with nodes := p.graph.nodes.map (merge p.graph vs) } }

section Merge

variable {g : Graph} {d : Discipline} {vs : List VarId} {n : Node}

theorem absorbs_iff : (n.op.isFusable && n.inputs.any fun v => vs.contains v) = true ↔ Absorbs vs n := by
  simp only [Bool.and_eq_true, List.any_eq_true, List.contains_iff_mem, Absorbs]

theorem merge_alone (alone : ¬ Absorbs vs n) : merge g vs n = n := by
  unfold merge
  rw [if_neg (fun absorbs => alone (absorbs_iff.mp absorbs))]

theorem merge_absorbs (absorbs : Absorbs vs n) {t : Tree} {i : Nat}
    (expanded : Tree.expand g vs (n.id + 1) n {} = .ok (t, i)) :
    merge g vs n = { n with op := .fused ⟨t.steps, t.inputs.length⟩, inputs := t.inputs, inPlace := none } := by
  unfold merge
  rw [if_pos (absorbs_iff.mpr absorbs), expanded]

/-- An operation and its merged form have one number, one output and one place, and both or neither can be fused. -/
theorem merge_same (g : Graph) (vs : List VarId) (n : Node) : (merge g vs n).id = n.id ∧
    (merge g vs n).output = n.output ∧ (merge g vs n).place = n.place ∧
      (merge g vs n).op.isFusable = n.op.isFusable := by
  by_cases absorbs : Absorbs vs n
  swap
  · rw [merge_alone absorbs]
    exact ⟨rfl, rfl, rfl, rfl⟩
  cases expanded : Tree.expand g vs (n.id + 1) n {} with
  | ok result =>
    rw [merge_absorbs absorbs (t := result.1) (i := result.2) expanded]
    exact ⟨rfl, rfl, rfl, absorbs.1.symm⟩
  | error e =>
    unfold merge
    rw [expanded, ite_self]
    exact ⟨rfl, rfl, rfl, rfl⟩

@[simp] theorem merge_id : (merge g vs n).id = n.id := (merge_same g vs n).1

@[simp] theorem merge_output : (merge g vs n).output = n.output := (merge_same g vs n).2.1

@[simp] theorem merge_place : (merge g vs n).place = n.place := (merge_same g vs n).2.2.1

@[simp] theorem merge_isFusable : (merge g vs n).op.isFusable = n.op.isFusable := (merge_same g vs n).2.2.2

theorem merge_nil (g : Graph) (n : Node) : merge g [] n = n :=
  merge_alone fun ⟨_, _, _, inside⟩ => by cases inside

theorem exists_expand (sound : g.Sound d) (absorbing : Absorbing g vs (·.isFusable)) (at_ : g.nodes[n.id]? = some n)
    (absorbs : Absorbs vs n) : ∃ t i, Tree.expand g vs (n.id + 1) n {} = .ok (t, i) := by
  obtain ⟨-, -, -, tys, ty, x, types, inferred, atOutput, placed, -⟩ := sound.node at_
  have typed : Typed g n.output ty.kind ty.rank := ⟨x, atOutput, by rw [placed]; rfl, by rw [placed]; rfl⟩
  obtain ⟨t, i, tys', expanded, -⟩ := expand_typed sound absorbing at_ absorbs.1 typed
  exact ⟨t, i, expanded⟩

/-- The merged form of an operation fits its output as the operation does, and reads what the cluster loads. -/
theorem merge_typed (sound : g.Sound d) (absorbing : Absorbing g vs (·.isFusable)) (at_ : g.nodes[n.id]? = some n) :
    (∃ tys ty x, g.Types (merge g vs n).inputs tys ∧ (merge g vs n).op.infer tys = .ok ty ∧
      g.vars[n.output]? = some x ∧ x.ty = ty.placed n.place) ∧
    (Absorbs vs n → (merge g vs n).inputs.Nodup ∧ ∀ v, v ∈ (merge g vs n).inputs ↔ Loads g vs n v) := by
  obtain ⟨-, -, -, tys, ty, x, types, inferred, atOutput, placed, -⟩ := sound.node at_
  by_cases absorbs : Absorbs vs n
  swap
  · rw [merge_alone absorbs]
    exact ⟨⟨tys, ty, x, types, inferred, atOutput, placed⟩, fun wrong => absurd wrong absorbs⟩
  have typed : Typed g n.output ty.kind ty.rank := ⟨x, atOutput, by rw [placed]; rfl, by rw [placed]; rfl⟩
  obtain ⟨t, i, tys', expanded, -, distinct, members, types', inferred'⟩ :=
    expand_typed sound absorbing at_ absorbs.1 typed
  rw [merge_absorbs absorbs expanded]
  exact ⟨⟨tys', _, x, types', inferred', atOutput, placed⟩, fun _ => ⟨distinct, members⟩⟩

end Merge

section Merged

variable {c : Context} {p : Program} {d : Discipline} {vs : List VarId} {n m : Node} {v : VarId}

theorem merged_node {i : NodeId} : (merged p vs).graph.nodes[i]? = some m ↔
    ∃ n, p.graph.nodes[i]? = some n ∧ merge p.graph vs n = m := by
  rw [merged, Array.getElem?_map, Option.map_eq_some_iff]

/-- The merged program is well formed where any operation may stand anywhere. -/
theorem merged_sound (sound : p.graph.Sound d) (absorbing : Absorbing p.graph vs (·.isFusable))
    (free : d.Free) : (merged p vs).graph.Sound d where
  node at_ := by
    obtain ⟨n, atN, rfl⟩ := merged_node.mp at_
    obtain ⟨id, output, reads, -⟩ := sound.node atN
    rw [← id] at atN output
    obtain ⟨⟨tys, ty, x, types, inferred, atOutput, placed⟩, loads⟩ := merge_typed sound absorbing atN
    refine ⟨merge_id.trans id, ?_, fun v member => ?_, tys, ty, x, types, inferred, ?_, ?_, free _ _ _ _⟩
    · rw [merge_output, ← id]
      exact output
    · rw [merge_output]
      by_cases absorbs : Absorbs vs n
      · exact loads_lt sound atN (((loads absorbs).2 v).mp member)
      · rw [merge_alone absorbs] at member
        exact reads v member
    · rw [merge_output]
      exact atOutput
    · rw [merge_place]
      exact placed
  produced atV origin := by
    obtain ⟨n, atI, output⟩ := sound.produced atV origin
    exact ⟨_, merged_node.mpr ⟨n, atI, rfl⟩, merge_output.trans output⟩
  ordered atI atJ before := by
    obtain ⟨m, atM, rfl⟩ := merged_node.mp atI
    obtain ⟨n, atN, rfl⟩ := merged_node.mp atJ
    rw [merge_output, merge_output]
    exact sound.ordered atM atN before
  leaf := sound.leaf

/-- A live operation that absorbs nothing reads nothing that is absorbed. -/
theorem reads_outside (absorbed : ∀ v ∈ vs, ∃ m n, Absorbed p v m n) (live : n ∈ p.liveNodes) (alone : ¬ Absorbs vs n) : ∀ v ∈ n.inputs, v ∉ vs := by
  intro v reads inside
  obtain ⟨m, k, taken⟩ := absorbed v inside
  obtain rfl : n = k := taken.only n live reads
  exact alone ⟨taken.fusable.2, v, reads, inside⟩

section Live

variable (valid : p.Valid d) (absorbed : ∀ v ∈ vs, ∃ m n, Absorbed p v m n)
include valid absorbed

/-- The merged form of a live operation reads what its cluster loads. -/
theorem reads_merge (live : n ∈ p.liveNodes) : v ∈ (merge p.graph vs n).inputs ↔ Loads p.graph vs n v := by
  by_cases absorbs : Absorbs vs n
  · exact ((merge_typed valid.graph (absorbing_of_absorbed absorbed) (valid.graph.live_mem live)).2 absorbs).2 v
  have outside := reads_outside absorbed live absorbs
  rw [merge_alone absorbs]
  constructor
  · exact fun reads => ⟨n, .self n, reads, outside v reads⟩
  · rintro ⟨m, cluster, reads, -⟩
    rwa [← cluster_alone outside cluster]

theorem mem_live_merged (free : d.Free) :
    m ∈ (merged p vs).liveNodes ↔ ∃ n ∈ p.liveNodes, n.output ∉ vs ∧ merge p.graph vs n = m := by
  have sound := merged_sound valid.graph (absorbing_of_absorbed absorbed) free
  constructor
  · intro live
    refine Graph.Sound.live_induction sound
      (motive := fun m => ∃ n ∈ p.liveNodes, n.output ∉ vs ∧ merge p.graph vs n = m) (fun m live ih => ?_) live
    obtain ⟨member, wanted⟩ := sound.mem_live.mp live
    obtain ⟨n, atN, rfl⟩ := merged_node.mp (sound.mem_nodes member)
    have inNodes := Graph.Sound.mem_toList atN
    rw [merge_output] at wanted
    rcases wanted with root | ⟨k', liveK', reads⟩
    · refine ⟨n, valid.graph.mem_live.mpr ⟨inNodes, .inl root⟩, fun inside => ?_, rfl⟩
      obtain ⟨m, k, taken⟩ := absorbed _ inside
      exact taken.root root
    · have later := (sound.node (sound.live_mem liveK')).reads _ reads
      obtain ⟨k, liveK, -, rfl⟩ := ih k' liveK' (by rwa [merge_output])
      obtain ⟨m, cluster, readsM, outside⟩ := (reads_merge valid absorbed liveK).mp reads
      refine ⟨n, valid.graph.mem_live.mpr ⟨inNodes, .inr ⟨m, cluster_live valid liveK cluster, readsM⟩⟩, outside, rfl⟩
  · rintro ⟨n, live, outside, rfl⟩
    refine valid.graph.live_induction (motive := fun n => n.output ∉ vs → merge p.graph vs n ∈ (merged p vs).liveNodes)
      (fun n live ih outside => ?_) live outside
    have atN : (merged p vs).graph.nodes[n.id]? = some (merge p.graph vs n) :=
      merged_node.mpr ⟨n, valid.graph.live_mem live, rfl⟩
    refine sound.mem_live.mpr ⟨Graph.Sound.mem_toList atN, ?_⟩
    rw [merge_output]
    refine (valid.graph.mem_live.mp live).2.imp_right ?_
    rintro ⟨m, liveM, reads⟩
    obtain ⟨k, liveK, head, cluster⟩ := exists_head valid absorbed liveM
    have loads : Loads p.graph vs k n.output := ⟨m, cluster, reads, outside⟩
    exact ⟨_, ih k liveK (loads_lt valid.graph (valid.graph.live_mem liveK) loads) head,
      (reads_merge valid absorbed liveK).mpr loads⟩

/-- What is live after merging are the merged forms of what is not absorbed. -/
theorem live_merged (free : d.Free) :
    (merged p vs).liveNodes = (p.liveNodes.filter fun n => !vs.contains n.output).map (merge p.graph vs) := by
  have sound := merged_sound valid.graph (absorbing_of_absorbed absorbed) free
  have sorted : ((p.liveNodes.filter fun n => !vs.contains n.output).map (merge p.graph vs)).Pairwise
      fun a b => a.output < b.output := by
    rw [List.pairwise_map]
    simp only [merge_output]
    exact valid.graph.live_sorted.sublist List.filter_sublist
  have sorted' : (merged p vs).liveNodes.Pairwise fun a b => a.output < b.output := sound.live_sorted
  have apart : ∀ {ns : List Node}, (ns.Pairwise fun a b => a.output < b.output) → ns.Nodup := fun sorted =>
    sorted.imp fun less same => Nat.ne_of_lt less (congrArg Node.output same)
  refine List.Perm.eq_of_pairwise (fun a b _ _ less more => absurd less (Nat.lt_asymm more)) sorted' sorted ?_
  refine (List.perm_ext_iff_of_nodup (apart sorted') (apart sorted)).mpr fun m => ?_
  rw [mem_live_merged valid absorbed free]
  simp only [List.mem_map, List.mem_filter, Bool.not_eq_true', List.contains_eq_mem, decide_eq_false_iff_not,
    and_assoc]

/-- The merged program is valid where any operation may stand anywhere. -/
theorem merged_valid (free : d.Free) : (merged p vs).Valid d where
  graph := merged_sound valid.graph (absorbing_of_absorbed absorbed) free
  inputs := valid.inputs
  distinct := valid.distinct
  outputs := valid.outputs
  updates := valid.updates
  bound := by
    rintro v x (root | ⟨k', liveK', reads⟩) atV isInput
    · exact valid.bound (.inl root) atV isInput
    · obtain ⟨k, liveK, -, rfl⟩ := (mem_live_merged valid absorbed free).mp liveK'
      obtain ⟨m, cluster, readsM, -⟩ := (reads_merge valid absorbed liveK).mp reads
      exact valid.bound (.inr ⟨m, cluster_live valid liveK cluster, readsM⟩) atV isInput

/-- What fusion does with a live operation that is not absorbed: it copies the merged form. -/
theorem step_eq_copy (live : n ∈ p.liveNodes) (outside : n.output ∉ vs) :
    step p vs n = Rebuild.copy (merged p vs) (merge p.graph vs n) := by
  unfold step
  rw [if_neg (fun inside => outside (List.contains_iff_mem.mp inside))]
  by_cases absorbs : Absorbs vs n
  swap
  · rw [if_neg (fun fuses => absorbs (absorbs_iff.mp fuses)), merge_alone absorbs]
    rfl
  obtain ⟨t, i, expanded⟩ :=
    exists_expand valid.graph (absorbing_of_absorbed absorbed) (valid.graph.live_mem live) absorbs
  rw [if_pos (absorbs_iff.mpr absorbs), merge_absorbs absorbs expanded, expanded]
  rfl

/-- Fusion merges and prunes. -/
theorem rebuild_eq_prune (free : d.Free) :
    p.rebuild (step p vs) = (merged p vs).prune := by
  have steps : ∀ ns : List Node, (∀ n ∈ ns, n ∈ p.liveNodes) → ns.forM (step p vs) =
      ((ns.filter fun n => !vs.contains n.output).map (merge p.graph vs)).forM (Rebuild.copy (merged p vs)) := by
    intro ns live
    induction ns with
    | nil => rfl
    | cons n ns ih =>
      have rest := ih fun m member => live m (List.mem_cons_of_mem _ member)
      rw [List.forM_eq_forM] at rest
      rw [List.forM_eq_forM, List.forM_cons, rest]
      by_cases inside : n.output ∈ vs
      · have skipped : step p vs n = pure ⟨⟩ := by
          unfold step
          exact if_pos (List.contains_iff_mem.mpr inside)
        rw [skipped, pure_bind, List.filter_cons_of_neg (by simpa using inside)]
      · rw [step_eq_copy valid absorbed (live n (by simp)) inside, List.filter_cons_of_pos (by simpa using inside),
          List.map_cons, List.forM_cons]
  unfold Program.prune Program.rebuild
  rw [steps _ fun _ => id, live_merged valid absorbed free]
  rfl

end Live

end Merged

end Fusion

end TensorGraph
