import Mathlib.Data.List.Nodup
import TensorGraph.Proofs.Pass.Meaning
import TensorGraph.Proofs.Pass.Merging

/-! Fusion of a program that is fused already. A value that is read twice is computed by an operation of its own, but
when one expression has come to compute all that read it, then it is loaded once, and the next run absorbs it. Where
there is no such value, the next run gives the same program again. -/
namespace TensorGraph

open Checked

namespace Fusion

/-- A variable that a first run of fusion leaves to a second one. It is read more than once, but by operations that the
first run computes in one expression, which could compute the variable as well. -/
structure Deferred (c : Context) (p : Program) (vs : List VarId) (v : VarId) (m n : Node) : Prop where
  produced : p.graph.producer? v = some m
  live : n ∈ p.liveNodes
  head : n.output ∉ vs
  absorbs : Absorbs vs n
  several : 1 < p.uses v
  inside : ∀ k ∈ p.liveNodes, v ∈ k.inputs → Cluster p.graph vs n k
  root : v ∉ p.roots
  joins : Joins c p.graph m n

variable {c : Context} {p q : Program} {d d' : Discipline} {vs : List VarId} {v w : VarId} {m n k : Node}

theorem Joins.symm {g : Graph} (joins : Joins c g m n) : Joins c g n m := by
  obtain ⟨ty, ty', t, tyM, tyN, kind, table, supported⟩ := joins.supported
  rw [joins.place] at table
  rw [← kind] at supported
  exact ⟨joins.fusable.symm, joins.place.symm, ty', ty, t, tyN, tyM, kind.symm, table, supported⟩

theorem Joins.trans {g : Graph} (first : Joins c g m n) (second : Joins c g n k) : Joins c g m k := by
  obtain ⟨ty, ty', t, tyM, tyN, kind, table, supported⟩ := first.supported
  obtain ⟨_, ty'', -, tyN', tyK, kind', -⟩ := second.supported
  obtain rfl := Except.ok.inj (tyN.symm.trans tyN')
  exact ⟨⟨first.fusable.1, second.fusable.2⟩, first.place.trans second.place, ty, ty'', t, tyM, tyK,
    kind'.trans kind, table, supported⟩

/-- The second operation stands as the first one does. -/
structure Resembles (g g' : Graph) (n n' : Node) : Prop where
  fusable : n'.op.isFusable = n.op.isFusable
  place : n'.place = n.place
  ty : g'.ty n'.output = g.ty n.output

theorem Joins.congr {g g' : Graph} {m' n' : Node} (first : Resembles g g' m m') (second : Resembles g g' n n') :
    Joins c g' m' n' ↔ Joins c g m n := by
  constructor
  · rintro ⟨fusable, place, supported⟩
    rw [first.fusable, second.fusable] at fusable
    rw [first.place, second.place] at place
    rw [first.ty, second.ty, first.place] at supported
    exact ⟨fusable, place, supported⟩
  · rintro ⟨fusable, place, supported⟩
    rw [← first.fusable, ← second.fusable] at fusable
    rw [← first.place, ← second.place] at place
    rw [← first.ty, ← second.ty, ← first.place] at supported
    exact ⟨fusable, place, supported⟩

theorem uses_pos (live : n ∈ p.liveNodes) (reads : v ∈ n.inputs) : 0 < p.uses v :=
  List.count_pos_iff.mpr (List.mem_flatMap.mpr ⟨n, live, reads⟩)

/-- When one operation alone reads a variable, the reads are those of the operation. -/
theorem uses_of_only (valid : p.Valid d) (live : n ∈ p.liveNodes)
    (only : ∀ k ∈ p.liveNodes, v ∈ k.inputs → k = n) : p.uses v = n.inputs.count v := by
  obtain ⟨front, back, split⟩ := List.append_of_mem live
  have sorted : p.liveNodes.Pairwise fun a b => a.output < b.output := valid.graph.live_sorted
  have elsewhere : ∀ ms : List Node, (∀ k ∈ ms, k ∈ p.liveNodes ∧ k ≠ n) → (ms.flatMap Node.inputs).count v = 0 := by
    intro ms others
    refine List.count_eq_zero.mpr fun member => ?_
    obtain ⟨k, inMs, reads⟩ := List.mem_flatMap.mp member
    exact (others k inMs).2 (only k (others k inMs).1 reads)
  rw [split] at sorted
  obtain ⟨-, sortedBack, before⟩ := List.pairwise_append.mp sorted
  have early : (front.flatMap Node.inputs).count v = 0 := by
    refine elsewhere front fun k member => ⟨by simp [split, member], ?_⟩
    rintro rfl
    exact Nat.lt_irrefl _ (before k member k (by simp))
  have late : (back.flatMap Node.inputs).count v = 0 := by
    refine elsewhere back fun k member => ⟨by simp [split, member], ?_⟩
    rintro rfl
    exact Nat.lt_irrefl _ ((List.pairwise_cons.mp sortedBack).1 k member)
  unfold Program.uses
  rw [split, List.flatMap_append, List.flatMap_cons, List.count_append, List.count_append, early, late,
    Nat.zero_add, Nat.add_zero]

section Matching

variable {image : VarId → Option VarId} {m' n' : Node}

theorem count_images (agrees : p.Matches q image) (at_ : image v = some w) {us zs : List VarId}
    (images : List.Forall₂ (fun u z => image u = some z) us zs) : zs.count w = us.count v := by
  induction images with
  | nil => rfl
  | @cons u z us zs here _ ih =>
    rw [List.count_cons, List.count_cons, ih]
    by_cases same : u = v
    · subst same
      obtain rfl : z = w := Option.some.inj (here.symm.trans at_)
      simp
    · have other : z ≠ w := by
        rintro rfl
        exact same (agrees.injective here at_)
      simp [same, other]

theorem uses_of_matches (agrees : p.Matches q image) (at_ : image v = some w) : q.uses w = p.uses v := by
  refine count_images agrees at_ ?_
  have nodes := agrees.nodes
  generalize p.liveNodes = ns at nodes ⊢
  generalize q.liveNodes = ms at nodes ⊢
  induction nodes with
  | nil => exact .nil
  | cons here _ ih =>
    rw [List.flatMap_cons, List.flatMap_cons]
    exact List.rel_append here.inputs ih

theorem resembles_of_matches (agrees : p.Matches q image) (copied : n.CopiedAs n' image n.inPlace) :
    Resembles p.graph q.graph n n' :=
  ⟨by rw [copied.op], copied.place, (agrees.ty copied.output).symm⟩

theorem mem_images (agrees : p.Matches q image) (at_ : image v = some w) {us zs : List VarId}
    (images : List.Forall₂ (fun u z => image u = some z) us zs) : w ∈ zs ↔ v ∈ us := by
  rw [← List.count_pos_iff, ← List.count_pos_iff, count_images agrees at_ images]

theorem roots_of_matches (agrees : p.Matches q image) :
    List.Forall₂ (fun v w => image v = some w) p.roots q.roots := by
  refine List.rel_append agrees.outputs ?_
  rw [List.forall₂_map_left_iff, List.forall₂_map_right_iff]
  exact agrees.updates.imp fun _ _ images => images.2

/-- Of programs with one live part, a variable is absorbed in one exactly when its counterpart is in the other. -/
theorem taken_iff (agrees : p.Matches q image) (valid : p.Valid d) (valid' : q.Valid d') (at_ : image v = some w)
    (liveM : m ∈ p.liveNodes) (liveM' : m' ∈ q.liveNodes) (copiedM : m.CopiedAs m' image m.inPlace)
    (liveN : n ∈ p.liveNodes) (liveN' : n' ∈ q.liveNodes) (copiedN : n.CopiedAs n' image n.inPlace) :
    Taken c q w m' n' ↔ Taken c p v m n := by
  have output : m'.output = w ↔ m.output = v := by
    constructor
    · rintro rfl
      exact agrees.injective copiedM.output at_
    · rintro rfl
      exact Option.some.inj (copiedM.output.symm.trans at_)
  have produced : q.graph.producer? w = some m' ↔ p.graph.producer? v = some m := by
    constructor
    · intro produced
      rw [← output.mp (valid'.graph.of_producer? produced).2]
      exact valid.graph.producer?_output (valid.graph.live_mem liveM)
    · intro produced
      rw [← output.mpr (valid.graph.of_producer? produced).2]
      exact valid'.graph.producer?_output (valid'.graph.live_mem liveM')
  have reads := mem_images agrees at_ copiedN.inputs
  have uses := uses_of_matches agrees at_
  have root := mem_images agrees at_ (roots_of_matches agrees)
  have joins := Joins.congr (c := c) (resembles_of_matches agrees copiedM) (resembles_of_matches agrees copiedN)
  constructor
  · intro taken
    exact ⟨produced.mp taken.produced, liveN, reads.mp taken.reads, uses ▸ taken.once,
      fun isRoot => taken.root (root.mpr isRoot), joins.mp taken.joins⟩
  · intro taken
    exact ⟨produced.mpr taken.produced, liveN', reads.mpr taken.reads, uses.trans taken.once,
      fun isRoot => taken.root (root.mp isRoot), joins.mpr taken.joins⟩

/-- Of programs with one live part, fusion absorbs something in both or in neither. -/
theorem taken_of_matches (agrees : p.Matches q image) (valid : p.Valid d) (valid' : q.Valid d') :
    (∃ v m n, Taken c q v m n) ↔ ∃ v m n, Taken c p v m n := by
  constructor
  · rintro ⟨w, m', n', taken⟩
    have liveM' := valid'.graph.live_producer taken.live taken.reads taken.produced
    obtain ⟨m, liveM, copiedM⟩ := partner_of agrees.nodes liveM'
    obtain ⟨n, liveN, copiedN⟩ := partner_of agrees.nodes taken.live
    obtain ⟨v, -, at_⟩ := partner_of copiedN.inputs taken.reads
    exact ⟨v, m, n, (taken_iff agrees valid valid' at_ liveM liveM' copiedM liveN taken.live copiedN).mp taken⟩
  · rintro ⟨v, m, n, taken⟩
    have liveM := valid.graph.live_producer taken.live taken.reads taken.produced
    obtain ⟨m', liveM', copiedM⟩ := partner agrees.nodes liveM
    obtain ⟨n', liveN', copiedN⟩ := partner agrees.nodes taken.live
    obtain ⟨w, -, at_⟩ := partner copiedN.inputs taken.reads
    exact ⟨w, m', n', (taken_iff agrees valid valid' at_ liveM liveM' copiedM taken.live liveN' copiedN).mpr taken⟩

end Matching

/-- Operations keep apart when they are merged. -/
theorem merge_inj (valid : p.Valid d) (live : n ∈ p.liveNodes) (live' : k ∈ p.liveNodes)
    (same : merge p.graph vs n = merge p.graph vs k) : n = k := by
  have ids := congrArg Node.id same
  rw [merge_id, merge_id] at ids
  have at_ := valid.graph.live_mem live
  rw [ids, valid.graph.live_mem live'] at at_
  exact (Option.some.inj at_).symm

/-- An operation and its merged form can be computed together with the same others. -/
theorem resembles_merge (p : Program) (vs : List VarId) (n : Node) :
    Resembles p.graph (merged p vs).graph n (merge p.graph vs n) :=
  ⟨merge_isFusable, merge_place, by rw [merge_output]; rfl⟩

section Again

variable (free : d.Free) (valid : p.Valid d) (found : absorbed c p = .ok vs)

section
include valid found

theorem absorbed_of_mem : ∀ v ∈ vs, ∃ m n, Absorbed p v m n := by
  intro v member
  obtain ⟨m, n, taken⟩ := (mem_absorbed valid found).mp member
  exact ⟨m, n, taken.toAbsorbed⟩

/-- The parts of a cluster can be computed together with its result. -/
theorem cluster_joins (live : n ∈ p.liveNodes) (cluster : Cluster p.graph vs n k) : k = n ∨ Joins c p.graph k n := by
  induction cluster with
  | self n => exact .inl rfl
  | @inner n m k v reads inside produced _ ih =>
    obtain ⟨m₀, n₀, taken⟩ := (mem_absorbed valid found).mp inside
    obtain rfl : m = m₀ := Option.some.inj (produced.symm.trans taken.produced)
    obtain rfl : n = n₀ := taken.toAbsorbed.only n live reads
    right
    rcases ih (valid.graph.live_producer live reads produced) with rfl | joins
    · exact taken.joins
    · exact joins.trans taken.joins

end

include free valid found

/-- A second run absorbs what the first one deferred. -/
theorem deferred_of_taken {m' n' : Node} (taken : Taken c (merged p vs) v m' n') :
    ∃ m n, Deferred c p vs v m n := by
  have absorbed := absorbed_of_mem valid found
  have valid' : (merged p vs).Valid d := merged_valid valid absorbed free
  have liveM' := valid'.graph.live_producer taken.live taken.reads taken.produced
  obtain ⟨-, rfl⟩ := valid'.graph.of_producer? taken.produced
  obtain ⟨m, liveM, -, rfl⟩ := (mem_live_merged valid absorbed free).mp liveM'
  obtain ⟨n, liveN, head, rfl⟩ := (mem_live_merged valid absorbed free).mp taken.live
  have produced := valid.graph.producer?_output (valid.graph.live_mem liveM)
  have loads := (reads_merge valid absorbed liveN).mp taken.reads
  have joins := (Joins.congr (resembles_merge p vs m) (resembles_merge p vs n)).mp taken.joins
  have only : ∀ k' ∈ (merged p vs).liveNodes, (merge p.graph vs m).output ∈ k'.inputs → k' = merge p.graph vs n :=
    taken.toAbsorbed.only
  have once := taken.once
  have root : (merge p.graph vs m).output ∉ p.roots := taken.root
  rw [merge_output] at loads only once root ⊢
  obtain ⟨k, cluster, reads, outside⟩ := loads
  have liveK := cluster_live valid liveN cluster
  -- All who read the variable are parts of the one cluster that loads it.
  have inside : ∀ k ∈ p.liveNodes, m.output ∈ k.inputs → Cluster p.graph vs n k := by
    intro k live reads
    obtain ⟨k₀, live₀, head₀, cluster₀⟩ := exists_head valid absorbed live
    have loads₀ := (reads_merge valid absorbed live₀).mpr ⟨k, cluster₀, reads, outside⟩
    have same := only _ ((mem_live_merged valid absorbed free).mpr ⟨k₀, live₀, head₀, rfl⟩) loads₀
    rwa [← merge_inj valid live₀ liveN same]
  have several : p.uses m.output ≠ 1 := by
    intro once
    have joins' : Joins c p.graph m k := by
      rcases cluster_joins valid found liveN cluster with rfl | inner
      · exact joins
      · exact joins.trans inner.symm
    exact outside ((mem_absorbed valid found).mpr ⟨m, k, produced, liveK, reads, once, root, joins'⟩)
  have absorbs : Absorbs vs n := by
    by_contra alone
    have onlyN : ∀ k ∈ p.liveNodes, m.output ∈ k.inputs → k = n := fun k live reads =>
      cluster_alone (reads_outside absorbed liveN alone) (inside k live reads)
    rw [uses_of_only valid' taken.live only, merge_alone alone] at once
    exact several ((uses_of_only valid liveN onlyN).trans once)
  exact ⟨m, n, produced, liveN, head, absorbs, Nat.lt_of_le_of_ne (uses_pos liveK reads) (Ne.symm several), inside,
    root, joins⟩

theorem taken_of_deferred (deferred : Deferred c p vs v m n) :
    Taken c (merged p vs) v (merge p.graph vs m) (merge p.graph vs n) := by
  have absorbed := absorbed_of_mem valid found
  have valid' : (merged p vs).Valid d := merged_valid valid absorbed free
  have outside : v ∉ vs := by
    intro member
    obtain ⟨m', n', taken⟩ := (mem_absorbed valid found).mp member
    exact Nat.lt_irrefl 1 (taken.once ▸ deferred.several)
  obtain ⟨k, live, reads⟩ := List.mem_flatMap.mp (List.count_pos_iff.mp (Nat.lt_of_succ_lt deferred.several))
  have loads : Loads p.graph vs n v := ⟨k, deferred.inside k live reads, reads, outside⟩
  have readsN := (reads_merge valid absorbed deferred.live).mpr loads
  have liveN := (mem_live_merged valid absorbed free).mpr ⟨n, deferred.live, deferred.head, rfl⟩
  have only : ∀ k' ∈ (merged p vs).liveNodes, v ∈ k'.inputs → k' = merge p.graph vs n := by
    intro k' live' reads'
    obtain ⟨k₀, live₀, head₀, rfl⟩ := (mem_live_merged valid absorbed free).mp live'
    obtain ⟨k, cluster, reads, -⟩ := (reads_merge valid absorbed live₀).mp reads'
    have cluster' := deferred.inside k (cluster_live valid live₀ cluster) reads
    rw [head_unique valid absorbed live₀ deferred.live head₀ deferred.head cluster cluster']
  have distinct := ((merge_typed valid.graph (absorbing_of_absorbed absorbed) (valid.graph.live_mem deferred.live)).2
    deferred.absorbs).1
  refine ⟨?_, liveN, readsN, ?_, deferred.root,
    (Joins.congr (resembles_merge p vs m) (resembles_merge p vs n)).mpr deferred.joins⟩
  · obtain ⟨atM, rfl⟩ := valid.graph.of_producer? deferred.produced
    have atMerged : (merged p vs).graph.nodes[m.id]? = some (merge p.graph vs m) := merged_node.mpr ⟨m, atM, rfl⟩
    have produced := valid'.graph.producer?_output atMerged
    rwa [merge_output] at produced
  · rw [uses_of_only valid' liveN only, List.count_eq_one_of_mem distinct readsN]

end Again

/-- Fusion merges what it absorbs and prunes the rest, and what it gives can be fused again. -/
theorem run_spec (free : d.Free) (valid : p.Valid d) (tabled : p.Tabled c False) :
    ∃ vs q image, absorbed c p = .ok vs ∧ run c p = .ok q ∧ (merged p vs).prune = .ok q ∧ q.Valid d ∧
      q.Tabled c False ∧ (merged p vs).Stripped q image := by
  have spec := absorbed_spec valid tabled
  cases found : absorbed c p with
  | error e =>
    rw [found] at spec
    exact spec.elim
  | ok vs =>
    rw [found] at spec
    have valid' : (merged p vs).Valid d := merged_valid valid spec free
    obtain ⟨q, image, pruned, validQ, stripped⟩ := Program.prune_stripped valid' fun _ _ _ => free _ _ _ _
    refine ⟨vs, q, image, rfl, ?_, pruned, validQ, ?_, stripped⟩
    · unfold run
      rw [found, ok_bind, rebuild_eq_prune valid spec free, pruned]
    · intro n' live' l place
      obtain ⟨_, live, copied⟩ := partner_of stripped.agrees.nodes live'
      obtain ⟨n, liveN, -, rfl⟩ := (mem_live_merged valid spec free).mp live
      rw [copied.place, merge_place] at place
      exact tabled n liveN l place

theorem merged_nil (p : Program) : merged p [] = p := by
  have same : merge p.graph [] = id := funext fun n => merge_nil p.graph n
  rw [merged, same, Array.map_id]

/-- Where nothing is absorbed, a fused program stays as it is. -/
theorem run_of_nothing (free : d.Free) (valid : p.Valid d)
    (found : absorbed c p = .ok []) : run c p = p.prune := by
  unfold run
  rw [found, ok_bind, rebuild_eq_prune valid (fun v member => by cases member) free, merged_nil]

/-- What is absorbed is no operation of its own any more. -/
theorem nodeCount_lt (free : d.Free) (valid : p.Valid d)
    (found : absorbed c p = .ok vs) {image : VarId → Option VarId} (stripped : (merged p vs).Stripped q image)
    (member : v ∈ vs) : q.nodeCount < p.liveNodes.length := by
  have absorbed := absorbed_of_mem valid found
  have count : q.nodeCount = (p.liveNodes.filter fun n => !vs.contains n.output).length := by
    rw [← List.length_map (merge p.graph vs), ← live_merged valid absorbed free, stripped.agrees.nodes.length_eq,
      ← stripped.live, Array.length_toList]
    rfl
  rw [count, List.length_filter_lt_length_iff_exists]
  obtain ⟨m, n, taken⟩ := (mem_absorbed valid found).mp member
  refine ⟨m, valid.graph.live_producer taken.live taken.reads taken.produced, ?_⟩
  rw [(valid.graph.of_producer? taken.produced).2]
  simpa using member

/-- A second run of fusion gives the program again, exactly when the first one deferred nothing. Otherwise it
leaves fewer operations. -/
theorem run_again (free : d.Free) (valid : p.Valid d)
    (tabled : p.Tabled c False) : ∃ vs q q', absorbed c p = .ok vs ∧ run c p = .ok q ∧ run c q = .ok q' ∧
      (q' = q ↔ ∀ v m n, ¬ Deferred c p vs v m n) ∧ (q' ≠ q → q'.nodeCount < q.nodeCount) := by
  obtain ⟨vs, q, image, found, ran, pruned, validQ, tabledQ, stripped⟩ := run_spec free valid tabled
  obtain ⟨ws, q', image', found', ran', -, -, -, stripped'⟩ := run_spec free validQ tabledQ
  have deferred : (∃ v m n, Taken c q v m n) ↔ ∃ v m n, Deferred c p vs v m n := by
    rw [taken_of_matches stripped.agrees (merged_valid valid (absorbed_of_mem valid found) free) validQ]
    constructor
    · rintro ⟨v, m, n, taken⟩
      exact ⟨v, deferred_of_taken free valid found taken⟩
    · rintro ⟨v, m, n, deferred⟩
      exact ⟨v, _, _, taken_of_deferred free valid found deferred⟩
  have live : q.liveNodes.length = q.nodeCount := by
    rw [← stripped.live, Array.length_toList]
    rfl
  refine ⟨vs, q, q', found, ran, ran', ?_⟩
  cases ws with
  | nil =>
    obtain ⟨_, again, rfl⟩ := stripped.agrees.prune.of_ok pruned
    rw [run_of_nothing free validQ found', again] at ran'
    obtain rfl := Except.ok.inj ran'
    refine ⟨iff_of_true rfl fun v m n deferred' => ?_, fun wrong => absurd rfl wrong⟩
    obtain ⟨w, m', n', taken⟩ := deferred.mpr ⟨v, m, n, deferred'⟩
    cases (mem_absorbed validQ found').mpr ⟨m', n', taken⟩
  | cons w ws =>
    have less := nodeCount_lt free validQ found' stripped' (List.mem_cons_self (a := w) (l := ws))
    rw [live] at less
    refine ⟨iff_of_false (fun same => ?_) fun none => ?_, fun _ => less⟩
    · rw [same] at less
      exact Nat.lt_irrefl _ less
    · obtain ⟨m', n', taken⟩ := (mem_absorbed validQ found').mp (List.mem_cons_self (a := w) (l := ws))
      obtain ⟨v, m, n, deferred'⟩ := deferred.mp ⟨w, m', n', taken⟩
      exact none v m n deferred'

/-- Fusion, run several times. -/
def runs (c : Context) : Nat → Program → Except Error Program
  | 0, p => .ok p
  | count + 1, p => do runs c count (← run c p)

/-- Fusion comes to an end: after some runs, one more changes nothing. -/
theorem exists_settled (free : d.Free) (valid : p.Valid d)
    (tabled : p.Tabled c False) : ∃ count q, runs c count p = .ok q ∧ run c q = .ok q := by
  obtain ⟨-, q, -, -, ran, -, validQ, tabledQ, -⟩ := run_spec free valid tabled
  -- The number of operations falls with every run that still changes something.
  induction size : q.nodeCount using Nat.strong_induction_on generalizing p q with
  | _ size ih =>
    obtain ⟨-, q₁, q', -, ran₁, ran', -, less⟩ := run_again free valid tabled
    obtain rfl : q = q₁ := Except.ok.inj (ran.symm.trans ran₁)
    by_cases same : q' = q
    · rw [same] at ran'
      exact ⟨1, q, by rw [runs, ran, ok_bind, runs], ran'⟩
    · obtain ⟨-, q₂, -, -, ran₂, -, validQ', tabledQ', -⟩ := run_spec free validQ tabledQ
      obtain rfl : q' = q₂ := Except.ok.inj (ran'.symm.trans ran₂)
      obtain ⟨count, r, settled, fixed⟩ := ih _ (size ▸ less same) validQ tabledQ q' ran' validQ' tabledQ' rfl
      exact ⟨count + 1, r, by rw [runs, ran, ok_bind, settled], fixed⟩

/-- A second run of fusion succeeds and gives the program again, exactly when the first one deferred nothing. Otherwise
it leaves fewer operations. -/
theorem second_run (arises : p.graph.Arises) (accepted : p.validate = .ok ()) (context : c.Built)
    (near : ∀ n ∈ p.liveNodes, ∀ l, n.place = some l → c.Reaches l) :
    ∃ vs q q', absorbed c p = .ok vs ∧ run c p = .ok q ∧ run c q = .ok q' ∧
      (q' = q ↔ ∀ v m n, ¬ Deferred c p vs v m n) ∧ (q' ≠ q → q'.nodeCount < q.nodeCount) :=
  run_again (fun _ _ _ _ => trivial) ((Program.valid_of_arises arises accepted).storing trivial)
    (tabled_of_reaches context near)

/-- The sum of the magnitude and the positive part of a vector with its sign changed. -/
def diamond : Program :=
  let vector := ((Graph.empty .f32).input { kind := .i32, rank := 1 } none).1
  let negated := (vector.apply (.unary .neg) [0]).1
  let magnitude := (negated.apply (.unary .abs) [1]).1
  let positive := (magnitude.apply (.unary .relu) [1]).1
  ⟨(positive.apply (.binary .add) [2, 3]).1, [0], [4], []⟩

theorem built_diamond : diamond.graph.Built :=
  .apply (.apply (.apply (.apply (.input (.empty _) _ _) _ _) _ _) _ _) _ _

section

open scoped BlockRoutine

/-- The sign is changed by an operation of its own and the rest is one expression. A second run makes one of the two. -/
theorem counts_diamond : (run (.first (.sim 0)) diamond >>= fun q =>
    run (.first (.sim 0)) q >>= fun q' => pure (q.nodeCount, q'.nodeCount)).toOption = some (2, 1) := by
  decide +kernel

/-- Nothing is left to absorb only after the second run. -/
theorem second_run_absorbs_more : ∃ q q', diamond.validate = .ok () ∧ run (.first (.sim 0)) diamond = .ok q ∧
    run (.first (.sim 0)) q = .ok q' ∧ q.nodeCount = 2 ∧ q'.nodeCount = 1 := by
  obtain ⟨q, ran⟩ := exists_of_isOk (r := run (.first (.sim 0)) diamond) (by decide +kernel)
  have counts := counts_diamond
  rw [ran, ok_bind] at counts
  cases ran' : run (.first (.sim 0)) q with
  | error e =>
    rw [ran'] at counts
    cases counts
  | ok q' =>
    rw [ran', ok_bind] at counts
    obtain ⟨first, second⟩ := Prod.ext_iff.mp (Option.some.inj counts)
    exact ⟨q, q', by decide +kernel, ran, ran', first, second⟩

theorem second_run_diamond : ∃ vs v m n, absorbed (.first (.sim 0)) diamond = .ok vs ∧
    Deferred (.first (.sim 0)) diamond vs v m n := by
  have unplaced : ∀ n ∈ diamond.liveNodes, n.place = none := by decide +kernel
  obtain ⟨vs, q, q', found, ran, ran', fixed, -⟩ := second_run built_diamond.arises (by decide +kernel)
    Context.built_first (fun n live l place => by cases (unplaced n live).symm.trans place)
  have counts := counts_diamond
  rw [ran, ok_bind, ran', ok_bind] at counts
  obtain ⟨first, second⟩ := Prod.ext_iff.mp (Option.some.inj counts)
  have changed : q' ≠ q := by
    rintro rfl
    cases first.symm.trans second
  by_contra none
  refine changed (fixed.mpr fun v m n deferred => none ⟨vs, v, m, n, found, deferred⟩)

end

end Fusion

end TensorGraph
