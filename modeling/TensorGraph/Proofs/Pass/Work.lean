import TensorGraph.Proofs.Pass.Refusion

/-! Fusion moves work and keeps it all. The steps of an expression compute what the operation and those that it absorbs
compute, each once. As an absorbed value is read once, every live operation is part of one expression or stays an
operation of its own. -/
namespace TensorGraph

open Checked

/-- The elementwise function that a step computes; a load computes none. -/
def Step.work? : Step → Option (Unary ⊕ Binary)
  | .load _ => none
  | .unary f _ => some (.inl f)
  | .binary f _ _ => some (.inr f)

/-- The elementwise functions that an operation computes, for an expression one for each step that computes. -/
def Op.work : Op → List (Unary ⊕ Binary)
  | .unary f => [.inl f]
  | .binary f => [.inr f]
  | .fused e => e.steps.filterMap Step.work?
  | _ => []

/-- The elementwise functions that the live part of a program computes. -/
def Program.work (p : Program) : List (Unary ⊕ Binary) := p.liveNodes.flatMap (·.op.work)

namespace Fusion

/-- What goes into the expression of an operation, in the order of the steps: the operations that it absorbs, to the
given depth, and the operation itself. -/
def parts (g : Graph) (vs : List VarId) : Nat → Node → List Node
  | 0, _ => []
  | depth + 1, n => (n.inputs.flatMap fun v =>
      match g.producer? v with
      | some m => if vs.contains v then parts g vs depth m else []
      | none => []) ++ [n]

/-- An operation with all operations that it absorbs. -/
def gathered (g : Graph) (vs : List VarId) (n : Node) : List Node := parts g vs (n.id + 1) n

/-- The live operations that no other one absorbs. -/
def heads (p : Program) (vs : List VarId) : List Node := p.liveNodes.filter fun n => !vs.contains n.output

/-- What comes with an operand. -/
def behind (g : Graph) (vs : List VarId) (depth : Nat) (v : VarId) : List Node :=
  match g.producer? v with
  | some m => if vs.contains v then parts g vs depth m else []
  | none => []

section Parts

variable {g : Graph} {d : Discipline} {vs : List VarId} {depth : Nat} {n m k : Node} {v : VarId}

theorem parts_succ : parts g vs (depth + 1) n = n.inputs.flatMap (behind g vs depth) ++ [n] := rfl

theorem behind_inside (inside : v ∈ vs) (produced : g.producer? v = some m) :
    behind g vs depth v = parts g vs depth m := by
  simp [behind, produced, inside]

theorem mem_behind : m ∈ behind g vs depth v ↔ v ∈ vs ∧ ∃ k, g.producer? v = some k ∧ m ∈ parts g vs depth k := by
  unfold behind
  cases g.producer? v with
  | none => simp
  | some k => by_cases inside : v ∈ vs <;> simp [inside]

theorem behind_outside (outside : v ∉ vs) : behind g vs depth v = [] := by
  unfold behind
  split
  · simp [outside]
  · rfl

/-- The parts are the operations of the cluster. -/
theorem mem_parts (sound : g.Sound d) (at_ : g.nodes[n.id]? = some n) (deep : n.id < depth) :
    m ∈ parts g vs depth n ↔ Cluster g vs n m := by
  induction depth generalizing n with
  | zero => exact absurd deep (Nat.not_lt_zero _)
  | succ depth ih =>
    have deeper : ∀ {v k}, v ∈ n.inputs → g.producer? v = some k →
        (m ∈ parts g vs depth k ↔ Cluster g vs k m) := fun reads produced =>
      ih (sound.of_producer? produced).1
        (Nat.lt_of_lt_of_le (sound.producer_lt at_ reads produced) (Nat.le_of_lt_succ deep))
    rw [parts_succ, List.mem_append, List.mem_singleton, List.mem_flatMap]
    constructor
    · rintro (⟨v, reads, member⟩ | rfl)
      · obtain ⟨inside, k, produced, member⟩ := mem_behind.mp member
        exact .inner reads inside produced ((deeper reads produced).mp member)
      · exact .self m
    · rintro (_ | ⟨reads, inside, produced, rest⟩)
      · exact .inr rfl
      · exact .inl ⟨_, reads, mem_behind.mpr ⟨inside, _, produced, (deeper reads produced).mpr rest⟩⟩

theorem mem_gathered (sound : g.Sound d) (at_ : g.nodes[n.id]? = some n) :
    m ∈ gathered g vs n ↔ Cluster g vs n m := mem_parts sound at_ (Nat.lt_succ_self _)

end Parts

namespace Tree

variable {g : Graph} {vs : List VarId} {depth : Nat} {t t' : Tree} {i : Nat}

/-- The elementwise functions that the steps so far compute. -/
def work (t : Tree) : List (Unary ⊕ Binary) := t.steps.filterMap Step.work?

@[simp] theorem push_work (t : Tree) (step : Step) : (t.push step).1.work = t.work ++ step.work?.toList := by
  simp only [work, push, List.filterMap_append]
  cases step <;> rfl

@[simp] theorem load_work (t : Tree) (v : VarId) : (t.load v).1.work = t.work := by
  have load (k : Nat) : (Step.load k).work?.toList = [] := rfl
  unfold Tree.load
  split
  · split
    · rfl
    · rw [push_work, load, List.append_nil]
  · rw [push_work, load, List.append_nil]
    rfl

/-- The steps of an expression compute the same where they are put. -/
theorem graft_work {args done done' : List Nat} {steps : List Step}
    (ran : graft args t done steps = .ok (t', done')) : t'.work = t.work ++ steps.filterMap Step.work? := by
  induction steps generalizing t done with
  | nil =>
    cases ran
    exact (List.append_nil _).symm
  | cons step steps ih =>
    cases step with
    | load k =>
      obtain ⟨i, -, rest⟩ := bind_eq_ok.mp ran
      exact ih rest
    | unary f a =>
      obtain ⟨i, -, rest⟩ := bind_eq_ok.mp ran
      have added := ih (t := (t.push (.unary f i)).1) rest
      rw [added, push_work, List.append_assoc]
      rfl
    | binary f a b =>
      obtain ⟨i, -, ran⟩ := bind_eq_ok.mp ran
      obtain ⟨j, -, rest⟩ := bind_eq_ok.mp ran
      have added := ih (t := (t.push (.binary f i j)).1) rest
      rw [added, push_work, List.append_assoc]
      rfl

theorem apply_work {n : Node} {args : List Nat} (ran : t.apply n args = .ok (t', i)) :
    t'.work = t.work ++ n.op.work := by
  unfold apply at ran
  split at ran
  · rename_i f op
    obtain ⟨a, -, pushed⟩ := bind_eq_ok.mp ran
    cases pushed
    rw [op]
    exact push_work t _
  · rename_i f op
    obtain ⟨a, -, ran⟩ := bind_eq_ok.mp ran
    obtain ⟨b, -, pushed⟩ := bind_eq_ok.mp ran
    cases pushed
    rw [op]
    exact push_work t _
  · rename_i e op
    obtain ⟨⟨t₁, done⟩, grafted, ran⟩ := bind_eq_ok.mp ran
    rw [op]
    simp only at ran
    split at ran
    · cases ran
      exact graft_work grafted
    · cases ran
  · cases ran

/-- What is added for an operand computes what comes with it. -/
theorem operand_work (each : ∀ {n t t' i}, expand g vs depth n t = .ok (t', i) →
      t'.work = t.work ++ (parts g vs depth n).flatMap (·.op.work)) {u : VarId}
    (ran : operand g vs depth u t = .ok (t', i)) :
    t'.work = t.work ++ (behind g vs depth u).flatMap (·.op.work) := by
  have loaded (loads : pure (t.load u) = (.ok (t', i) : Except Error (Tree × Nat))) : t'.work = t.work ++ [] := by
    have same : (t.load u).1 = t' := congrArg Prod.fst (Except.ok.inj loads)
    rw [← same, load_work, List.append_nil]
  unfold operand at ran
  unfold behind
  cases produced : g.producer? u with
  | none =>
    rw [produced] at ran
    exact loaded ran
  | some m =>
    rw [produced] at ran
    by_cases inside : vs.contains u
    · simp only [inside, ↓reduceIte] at ran ⊢
      exact each ran
    · simp only [inside] at ran ⊢
      exact loaded ran

theorem operands_work (each : ∀ {n t t' i}, expand g vs depth n t = .ok (t', i) →
      t'.work = t.work ++ (parts g vs depth n).flatMap (·.op.work)) {us : List VarId} {args args' : List Nat}
    (ran : operands g vs depth us t args = .ok (t', args')) :
    t'.work = t.work ++ (us.flatMap (behind g vs depth)).flatMap (·.op.work) := by
  induction us generalizing t args with
  | nil =>
    cases ran
    exact (List.append_nil _).symm
  | cons u us ih =>
    obtain ⟨⟨t₁, i⟩, first, rest⟩ := bind_eq_ok.mp ran
    have added := ih (t := t₁) rest
    rw [added, operand_work each first, List.flatMap_cons, List.flatMap_append, List.append_assoc]

/-- An expression computes what its parts compute, in their order. -/
theorem expand_work {n : Node} (ran : expand g vs depth n t = .ok (t', i)) :
    t'.work = t.work ++ (parts g vs depth n).flatMap (·.op.work) := by
  induction depth generalizing n t t' i with
  | zero => cases ran
  | succ depth ih =>
    rw [expand_succ] at ran
    obtain ⟨⟨t₁, args⟩, first, applied⟩ := bind_eq_ok.mp ran
    rw [apply_work applied, operands_work ih first, parts_succ, List.flatMap_append, List.append_assoc,
      List.flatMap_singleton]

end Tree

theorem count_flatMap_congr {ns : List Node} {f h : Node → List Node} {m k : Node}
    (each : ∀ n ∈ ns, (f n).count m = (h n).count k) : (ns.flatMap f).count m = (ns.flatMap h).count k := by
  rw [List.count_flatMap, List.count_flatMap]
  exact congrArg List.sum (List.map_congr_left each)

section Counts

variable {c : Context} {p : Program} {d : Discipline} {vs : List VarId} {depth : Nat} {n m k : Node} {v : VarId}

theorem mem_heads : n ∈ heads p vs ↔ n ∈ p.liveNodes ∧ n.output ∉ vs := by
  simp [heads]

variable (valid : p.Valid d)
include valid

theorem live_nodup : p.liveNodes.Nodup :=
  valid.graph.live_sorted.imp fun less same => Nat.ne_of_lt less (congrArg Node.output same)

theorem gathered_live (live : n ∈ p.liveNodes) (part : m ∈ gathered p.graph vs n) : m ∈ p.liveNodes :=
  cluster_live valid live ((mem_gathered valid.graph (valid.graph.live_mem live)).mp part)

/-- What is absorbed is read once by its reader, and not at all by others. -/
theorem count_reads (taken : Taken c p v m k) (live : n ∈ p.liveNodes) :
    n.inputs.count v = if k = n then 1 else 0 := by
  have only := taken.toAbsorbed.only
  by_cases same : k = n
  · subst same
    rw [if_pos rfl, ← uses_of_only valid live only]
    exact taken.once
  · rw [if_neg same, List.count_eq_zero]
    exact fun reads => same (only n live reads).symm

/-- An operation that is not absorbed is part of its own expression only. -/
theorem count_head (outside : m.output ∉ vs) (live : n ∈ p.liveNodes) :
    (gathered p.graph vs n).count m = [n].count m := by
  have at_ := valid.graph.live_mem live
  have elsewhere : (n.inputs.flatMap (behind p.graph vs n.id)).count m = 0 := by
    refine List.count_eq_zero.mpr fun member => ?_
    obtain ⟨v, reads, comes⟩ := List.mem_flatMap.mp member
    obtain ⟨inside, k, produced, part⟩ := mem_behind.mp comes
    obtain ⟨atK, rfl⟩ := valid.graph.of_producer? produced
    rcases ((mem_parts valid.graph atK (valid.graph.producer_lt at_ reads produced)).mp part).last with
      rfl | ⟨j, v, -, -, insideV, producedV⟩
    · exact outside inside
    · rw [← (valid.graph.of_producer? producedV).2] at insideV
      exact outside insideV
  rw [gathered, parts_succ, List.count_append, elsewhere, Nat.zero_add]

variable (found : absorbed c p = .ok vs)
include found

/-- What comes with some operands contains an absorbed operation as often as its reader, and once more for each operand
that it computes. -/
theorem count_behind (us : List VarId) (taken : Taken c p m.output m k)
    (each : ∀ {v n}, v ∈ us → p.graph.producer? v = some n →
      (parts p.graph vs depth n).count m = (parts p.graph vs depth n).count k + [n].count m) :
    (us.flatMap (behind p.graph vs depth)).count m =
      (us.flatMap (behind p.graph vs depth)).count k + us.count m.output := by
  have inside : m.output ∈ vs := (mem_absorbed valid found).mpr ⟨m, k, taken⟩
  induction us with
  | nil => rfl
  | cons u us ih =>
    have rest := ih fun later produced => each (List.mem_cons_of_mem u later) produced
    rw [List.flatMap_cons, List.count_append, List.count_append, List.count_cons, rest]
    by_cases insideU : u ∈ vs
    · obtain ⟨n, j, takenU⟩ := (mem_absorbed valid found).mp insideU
      have produced := takenU.produced
      rw [behind_inside insideU produced, each List.mem_cons_self produced, List.count_singleton]
      have same : n = m ↔ u = m.output := by
        constructor
        · rintro rfl
          exact (valid.graph.of_producer? produced).2.symm
        · rintro rfl
          exact Option.some.inj (produced.symm.trans taken.produced)
      simp only [same, beq_iff_eq]
      omega
    · have other : u ≠ m.output := fun same => insideU (same ▸ inside)
      simp [behind_outside insideU, other]

/-- An absorbed operation is part of another one's expression as often as its reader is. -/
theorem count_absorbed (taken : Taken c p m.output m k) (live : n ∈ p.liveNodes) (deep : n.id < depth) :
    (parts p.graph vs depth n).count m = (parts p.graph vs depth n).count k + [n].count m := by
  induction depth generalizing n with
  | zero => exact absurd deep (Nat.not_lt_zero _)
  | succ depth ih =>
    have operands := count_behind valid found n.inputs taken fun {v j} reads produced =>
      ih (valid.graph.live_producer live reads produced) (Nat.lt_of_lt_of_le
        (valid.graph.producer_lt (valid.graph.live_mem live) reads produced) (Nat.le_of_lt_succ deep))
    rw [parts_succ, List.count_append, List.count_append, operands, count_reads valid taken live]
    simp only [List.count_singleton, beq_iff_eq, eq_comm (a := k)]

/-- Every live operation is part of one expression, once. -/
theorem count_gathered (live : m ∈ p.liveNodes) : ((heads p vs).flatMap (gathered p.graph vs)).count m = 1 := by
  refine valid.graph.live_induction
    (motive := fun m => ((heads p vs).flatMap (gathered p.graph vs)).count m = 1) (fun m live later => ?_) live
  by_cases inside : m.output ∈ vs
  · -- it is part of an expression as often as its reader, which comes later
    obtain ⟨m', k, taken⟩ := (mem_absorbed valid found).mp inside
    obtain rfl : m = m' :=
      Option.some.inj ((valid.graph.producer?_output (valid.graph.live_mem live)).symm.trans taken.produced)
    rw [← later k taken.live ((valid.graph.node (valid.graph.live_mem taken.live)).reads _ taken.reads)]
    refine count_flatMap_congr fun n head => ?_
    obtain ⟨liveN, outside⟩ := mem_heads.mp head
    have other : n ≠ m := fun same => outside (same ▸ inside)
    rw [gathered, count_absorbed valid found taken liveN (Nat.lt_succ_self _), List.count_singleton,
      if_neg (by simpa using other), Nat.add_zero]
  · have own : ((heads p vs).flatMap (gathered p.graph vs)).count m = ((heads p vs).flatMap fun n => [n]).count m :=
      count_flatMap_congr fun n head => count_head valid inside (mem_heads.mp head).1
    rw [own, List.flatMap_singleton']
    exact List.count_eq_one_of_mem ((live_nodup valid).sublist List.filter_sublist) (mem_heads.mpr ⟨live, inside⟩)

/-- The expressions and the operations that stay divide the live operations among them. -/
theorem gathered_perm : ((heads p vs).flatMap (gathered p.graph vs)).Perm p.liveNodes := by
  refine List.perm_iff_count.mpr fun m => ?_
  by_cases live : m ∈ p.liveNodes
  · rw [count_gathered valid found live, List.count_eq_one_of_mem (live_nodup valid) live]
  · rw [List.count_eq_zero.mpr live, List.count_eq_zero]
    intro member
    obtain ⟨n, head, part⟩ := List.mem_flatMap.mp member
    exact live (gathered_live valid (mem_heads.mp head).1 part)

end Counts

/-- An operation of the fused program that stands for an operation with all that it absorbs. -/
structure Gathers (g : Graph) (vs : List VarId) (n n' : Node) : Prop where
  work : n'.op.work = (gathered g vs n).flatMap (·.op.work)
  fused : Absorbs vs n → ∃ e, n'.op = .fused e
  alone : ¬ Absorbs vs n → n'.op = n.op

theorem Gathers.congr {g : Graph} {vs : List VarId} {n k k' : Node} (gathers : Gathers g vs n k) (same : k'.op = k.op) :
    Gathers g vs n k' where
  work := same ▸ gathers.work
  fused absorbs := same ▸ gathers.fused absorbs
  alone alone := same.trans (gathers.alone alone)

theorem work_of_gathers {g : Graph} {vs : List VarId} {ns ns' : List Node} (each : List.Forall₂ (Gathers g vs) ns ns') :
    ns'.flatMap (·.op.work) = (ns.flatMap (gathered g vs)).flatMap (·.op.work) := by
  induction each with
  | nil => rfl
  | cons gathers _ ih => rw [List.flatMap_cons, List.flatMap_cons, List.flatMap_append, gathers.work, ih]

section Run

variable {c : Context} {p q : Program} {d : Discipline} {vs : List VarId} {n m : Node} {v : VarId}

/-- The merged form of an operation computes what the operation and all that it absorbs compute. -/
theorem merge_gathers (valid : p.Valid d) (absorbed : ∀ v ∈ vs, ∃ m n, Absorbed p v m n) (live : n ∈ p.liveNodes) :
    Gathers p.graph vs n (merge p.graph vs n) := by
  by_cases absorbs : Absorbs vs n
  · obtain ⟨t, i, expanded⟩ :=
      exists_expand valid.graph (absorbing_of_absorbed absorbed) (valid.graph.live_mem live) absorbs
    rw [merge_absorbs absorbs expanded]
    exact ⟨Tree.expand_work expanded, fun _ => ⟨_, rfl⟩, fun alone => absurd absorbs alone⟩
  · have outside := reads_outside absorbed live absorbs
    have nothing : n.inputs.flatMap (behind p.graph vs n.id) = [] :=
      List.flatMap_eq_nil_iff.mpr fun v reads => behind_outside (outside v reads)
    rw [merge_alone absorbs]
    refine ⟨?_, fun wrong => absurd wrong absorbs, fun _ => rfl⟩
    rw [gathered, parts_succ, nothing, List.nil_append, List.flatMap_singleton]

/-- What is absorbed is part of one fused expression, once. -/
theorem exists_gatherer (valid : p.Valid d) (found : absorbed c p = .ok vs) (inside : v ∈ vs) :
    ∃ m n, p.graph.producer? v = some m ∧ n ∈ heads p vs ∧ Absorbs vs n ∧
      (gathered p.graph vs n).count m = 1 ∧ ∀ k ∈ heads p vs, m ∈ gathered p.graph vs k → k = n := by
  have absorbed := absorbed_of_mem valid found
  obtain ⟨m, reader, taken⟩ := (mem_absorbed valid found).mp inside
  have liveM := valid.graph.live_producer taken.live taken.reads taken.produced
  obtain ⟨n, liveN, outside, cluster⟩ := exists_head valid absorbed liveM
  have head : n ∈ heads p vs := mem_heads.mpr ⟨liveN, outside⟩
  have part : m ∈ gathered p.graph vs n := (mem_gathered valid.graph (valid.graph.live_mem liveN)).mpr cluster
  have absorbs : Absorbs vs n := by
    by_contra alone
    have same := cluster_alone (reads_outside absorbed liveN alone) cluster
    rw [← (valid.graph.of_producer? taken.produced).2, same] at inside
    exact outside inside
  have apart : ((heads p vs).flatMap (gathered p.graph vs)).Nodup :=
    (gathered_perm valid found).nodup_iff.mpr (live_nodup valid)
  refine ⟨m, n, taken.produced, head, absorbs, ?_, fun k headK partK => ?_⟩
  · exact List.count_eq_one_of_mem ((List.nodup_flatMap.mp apart).1 n head) part
  · obtain ⟨liveK, outsideK⟩ := mem_heads.mp headK
    exact head_unique valid absorbed liveK liveN outsideK outside
      ((mem_gathered valid.graph (valid.graph.live_mem liveK)).mp partK) cluster

/-- Fusion keeps all work and repeats none: every elementwise function is computed as often by the live part of the
fused program as by that of the program. Its operations stand for those that are not absorbed, each with all that it
absorbs; an absorbed value is computed by one of them, which is a fused expression, and there once. Outputs, new values
and what is read more than once are not absorbed. -/
theorem keeps_work (arises : p.graph.Arises) (accepted : p.validate = .ok ()) (context : c.Built)
    (near : ∀ n ∈ p.liveNodes, ∀ l, n.place = some l → c.Reaches l) :
    ∃ vs q, absorbed c p = .ok vs ∧ run c p = .ok q ∧ (∀ f, q.work.count f = p.work.count f) ∧
      List.Forall₂ (Gathers p.graph vs) (heads p vs) q.liveNodes ∧
      (∀ v ∈ vs, ∃ m n, p.graph.producer? v = some m ∧ n ∈ heads p vs ∧ Absorbs vs n ∧
        (gathered p.graph vs n).count m = 1 ∧ ∀ k ∈ heads p vs, m ∈ gathered p.graph vs k → k = n) ∧
      ∀ v ∈ vs, v ∉ p.outputs ∧ v ∉ p.updates.map Prod.snd ∧ p.uses v = 1 := by
  have valid := (Program.valid_of_arises arises accepted).storing trivial
  obtain ⟨vs, q, image, found, ran, -, -, -, stripped⟩ :=
    run_spec (fun _ _ _ _ => trivial) valid (tabled_of_reaches context near)
  have absorbed := absorbed_of_mem valid found
  have each : List.Forall₂ (Gathers p.graph vs) (heads p vs) q.liveNodes := by
    have nodes := stripped.agrees.nodes
    rw [live_merged valid absorbed (fun _ _ _ _ => trivial), List.forall₂_map_left_iff] at nodes
    have gathers : ∀ n ∈ heads p vs, Gathers p.graph vs n (merge p.graph vs n) := fun n head =>
      merge_gathers valid absorbed (mem_heads.mp head).1
    exact ((List.forall₂_and_left _ _).mpr ⟨gathers, nodes⟩).imp fun n n' both => both.1.congr both.2.op
  refine ⟨vs, q, found, ran, fun f => ?_, each, fun v => exists_gatherer valid found, fun v member => ?_⟩
  · rw [Program.work, work_of_gathers each]
    exact ((gathered_perm valid found).flatMap_right _).count_eq f
  · obtain ⟨m, n, taken⟩ := (mem_absorbed valid found).mp member
    have root := taken.root
    rw [Program.roots, List.mem_append, not_or] at root
    exact ⟨root.1, root.2, taken.once⟩

section

open scoped BlockRoutine

/-- The sign is changed once, outside of the expression that takes in its two readers. -/
theorem keeps_work_diamond : ∃ vs q n, absorbed (.first (.sim 0)) diamond = .ok vs ∧
    run (.first (.sim 0)) diamond = .ok q ∧ vs = [2, 3] ∧ q.work.count (.inl .neg) = 1 ∧
    n ∈ heads diamond vs ∧ (gathered diamond.graph vs n).map Node.op = [.unary .abs, .unary .relu, .binary .add] := by
  have unplaced : ∀ n ∈ diamond.liveNodes, n.place = none := by decide +kernel
  obtain ⟨vs, q, found, ran, counts, -, gatherer, -⟩ := keeps_work built_diamond.arises (by decide +kernel)
    Context.built_first (fun n live l place => by cases (unplaced n live).symm.trans place)
  have values : (absorbed (.first (.sim 0)) diamond).toOption = some [2, 3] := by decide +kernel
  rw [found] at values
  obtain rfl : vs = [2, 3] := Option.some.inj values
  obtain ⟨m, n, -, head, ⟨-, v, reads, inside⟩, -⟩ := gatherer 2 List.mem_cons_self
  have ops : ∀ n ∈ heads diamond [2, 3], (∃ v ∈ n.inputs, v ∈ [2, 3]) →
      (gathered diamond.graph [2, 3] n).map Node.op = [.unary .abs, .unary .relu, .binary .add] := by decide +kernel
  exact ⟨_, q, n, found, ran, rfl, (counts _).trans (by decide +kernel), head, ops n head ⟨v, reads, inside⟩⟩

end

end Run

end Fusion

end TensorGraph
