import TensorGraph.Proofs.Pass.Expansion
import TensorGraph.Proofs.Pass.Placement

/-! Fusion keeps types, places and values: an operation on what its cluster loads gives, place by place, what
the operations of the cluster give one after the other. -/
namespace TensorGraph

open Checked Rebuilding

-- Where the product of blocks plays no part, any one serves for the lemmas that ask for it.
open scoped BlockRoutine

/-- Fused expressions come in, everything else is as before. -/
def Scope.fusing (scope : Scope) : Scope :=
  { scope with op := fun op k => (∃ e, op = .fused e) ∨ scope.op op k }

/-- No operation is a fused expression. -/
def Scope.Unfused (scope : Scope) : Prop := ∀ e k, ¬ scope.op (.fused e) k

/-- Every operation that was allowed before fusion is allowed after it. -/
theorem Scope.placed_fusing (target : Location) (scope : Scope) :
    (Discipline.placed target scope).Implies (.placed target scope.fusing) where
  op op tys place mark := by
    rintro ⟨unmarked, l, here, there, transfers, allowed⟩
    refine ⟨unmarked, l, here, there, transfers, fun computes t member => ?_⟩
    obtain ⟨place, allows⟩ := allowed computes t member
    exact ⟨place, fun typed => ⟨(allows typed).1, .inr (allows typed).2⟩⟩
  leaf _ := id
  cell _ := id
  typed := id

namespace Checked

variable {ε α : Type}

theorem filterAuxM_eq_ok {f : α → Except ε Bool} {xs acc ys : List α}
    (ran : List.filterAuxM f xs acc = .ok ys) (y : α) :
    y ∈ ys ↔ y ∈ acc ∨ y ∈ xs ∧ f y = .ok true := by
  induction xs generalizing acc with
  | nil =>
    cases ran
    simp
  | cons x xs ih =>
    obtain ⟨kept, here, rest⟩ := bind_eq_ok.mp ran
    rw [ih rest]
    cases kept with
    | true =>
      simp only [cond_true, List.mem_cons]
      constructor
      · rintro ((rfl | old) | later)
        · exact .inr ⟨.inl rfl, here⟩
        · exact .inl old
        · exact .inr ⟨.inr later.1, later.2⟩
      · rintro (old | ⟨rfl | later, held⟩)
        · exact .inl (.inr old)
        · exact .inl (.inl rfl)
        · exact .inr ⟨later, held⟩
    | false =>
      simp only [cond_false, List.mem_cons]
      refine or_congr_right ⟨fun later => ⟨.inr later.1, later.2⟩, ?_⟩
      rintro ⟨rfl | later, held⟩
      · rw [here] at held
        cases held
      · exact ⟨later, held⟩

theorem filterM_eq_ok {f : α → Except ε Bool} {xs ys : List α} (ran : xs.filterM f = .ok ys) (y : α) :
    y ∈ ys ↔ y ∈ xs ∧ f y = .ok true := by
  obtain ⟨zs, aux, whole⟩ := bind_eq_ok.mp ran
  cases whole
  rw [List.mem_reverse, filterAuxM_eq_ok aux]
  simp

theorem filterM_error {f : α → Except ε Bool} {xs : List α} {e : ε}
    (ran : xs.filterM f = .error e) : ∃ x ∈ xs, f x = .error e := by
  have aux : ∀ (xs acc : List α), List.filterAuxM f xs acc = .error e → ∃ x ∈ xs, f x = .error e := by
    intro xs
    induction xs with
    | nil =>
      intro acc none
      cases none
    | cons x xs ih =>
      intro acc ran
      rcases bind_eq_error.mp ran with here | ⟨kept, -, rest⟩
      · exact ⟨x, by simp, here⟩
      · obtain ⟨y, member, held⟩ := ih _ rest
        exact ⟨y, List.mem_cons_of_mem _ member, held⟩
  rcases bind_eq_error.mp ran with failed | ⟨ys, -, rest⟩
  · exact aux xs [] failed
  · cases rest

end Checked

theorem foldRank_of_fits {op : Op} {a r : Nat} {ts : List Ty} (head : a = r ∨ a = 0)
    (tail : ∀ t ∈ ts, t.rank = r ∨ t.rank = 0) (whole : a = r ∨ ∃ t ∈ ts, t.rank = r) :
    foldRank op a ts = .ok r := by
  induction ts generalizing a with
  | nil =>
    have same : a = r := whole.resolve_right (by simp)
    rw [same]
    rfl
  | cons t ts ih =>
    have here := tail t (by simp)
    have rest := fun u member => tail u (List.mem_cons_of_mem t member)
    simp only [foldRank, broadcastRank?]
    by_cases first : a = t.rank ∨ t.rank = 0
    · rw [if_pos first]
      refine ih head rest ?_
      rcases whole with same | ⟨u, member, same⟩
      · exact .inl same
      · rcases List.mem_cons.mp member with rfl | later
        · omega
        · exact .inr ⟨u, later, same⟩
    · clear whole
      rw [if_neg first, if_pos (by omega)]
      exact ih here rest (.inl (by omega))

namespace Fusion

variable {g : Graph} {d : Discipline} {absorbed : List VarId}

/-- An expression on variables of one kind, whose ranks go with one of them, has that kind and rank. -/
theorem infer_fused {t : Tree} {k : Kind} {rank : Nat} (checked : t.Checked k) (some : t.steps ≠ [])
    {tys : List Ty} (types : g.Types t.inputs tys)
    (fits : ∀ v ∈ t.inputs, ∃ r, Typed g v k r ∧ (r = rank ∨ r = 0))
    (whole : ∃ v ∈ t.inputs, Typed g v k rank) :
    (Op.fused ⟨t.steps, t.inputs.length⟩).infer tys = .ok { kind := k, rank } := by
  have each : ∀ ty ∈ tys, ty.kind = k ∧ (ty.rank = rank ∨ ty.rank = 0) := by
    intro ty member
    obtain ⟨v, inInputs, x, atV, rfl⟩ := partner_of types member
    obtain ⟨r, typed, within⟩ := fits v inInputs
    obtain ⟨rfl, rfl⟩ := typed.unique ⟨x, atV, rfl, rfl⟩
    exact ⟨rfl, within⟩
  obtain ⟨v, inInputs, typed⟩ := whole
  obtain ⟨ty, member, x, atV, rfl⟩ := partner types inInputs
  obtain ⟨-, same⟩ := typed.unique ⟨x, atV, rfl, rfl⟩
  cases tys with
  | nil => cases member
  | cons first rest =>
    obtain ⟨kind, head⟩ := each first (by simp)
    refine Op.infer_eq_ok.mpr ⟨first, rest, rfl, types.length_eq.symm, ?_, ?_, ?_, kind.symm, rfl⟩
    · intro u memberU
      rw [(each u memberU).1, kind]
    · rw [kind]
      show Expr.check _ k = .ok ()
      unfold Expr.check
      rw [if_neg (by simpa using some)]
      exact checked
    · refine foldRank_of_fits head (fun u memberU => (each u (List.mem_cons_of_mem _ memberU)).2) ?_
      rcases List.mem_cons.mp member with rfl | later
      · exact .inl same.symm
      · exact .inr ⟨x.ty, later, same.symm⟩

namespace Tree

/-- The expression up to one of its steps. -/
def upTo (t : Tree) (i : Nat) : Expr := ⟨t.steps.take (i + 1), t.inputs.length⟩

theorem upTo_last {t : Tree} {i : Nat} (last : t.steps.length = i + 1) : t.upTo i = ⟨t.steps, t.inputs.length⟩ := by
  rw [upTo, ← last, List.take_length]

theorem check_upTo {t : Tree} {k : Kind} {i : Nat} (checked : t.Checked k) (inRange : i < t.steps.length) :
    (t.upTo i).check k = .ok () := by
  have split : t.steps = t.steps.take (i + 1) ++ t.steps.drop (i + 1) := (List.take_append_drop _ _).symm
  unfold Checked at checked
  rw [split] at checked
  have given : ¬ (t.upTo i).steps.isEmpty := by
    rw [List.isEmpty_iff_length_eq_zero, upTo, List.length_take]
    omega
  unfold Expr.check
  rw [if_neg given]
  exact (Expr.checkFrom_append.mp checked).1

/-- The result of a step is the last one of the expression up to it. -/
theorem results_upTo {α : Type} [Scalar α] {t : Tree} {math : MathMode} {x : VarId → α} {regs : List α}
    (results : t.Results math x regs) {i : Nat} (inRange : i < t.steps.length) :
    ∃ regs', Expr.stepsAt math (fun j => t.inputs[j]?.map x) [] (t.upTo i).steps = some regs' ∧
      regs'.getLast? = regs[i]? := by
  have split : t.steps = t.steps.take (i + 1) ++ t.steps.drop (i + 1) := (List.take_append_drop _ _).symm
  unfold Results at results
  rw [split, Expr.stepsAt_append] at results
  obtain ⟨regs', first, rest⟩ := Option.bind_eq_some_iff.mp results
  have length : regs'.length = i + 1 := by
    rw [Expr.stepsAt_length first, List.length_nil, List.length_take, Nat.zero_add, Nat.min_eq_left inRange]
  obtain ⟨more, rfl⟩ := Expr.stepsAt_prefix rest
  refine ⟨regs', first, ?_⟩
  rw [List.getLast?_eq_getElem?, length, Nat.add_sub_cancel, List.getElem?_append_left (by omega)]

end Tree

/-- The expression of a cluster loads what the cluster loads, each variable once, and has the type of its result. -/
theorem expand_typed (sound : g.Sound d) (absorbing : Absorbing g absorbed (·.isFusable)) {n : Node}
    (at_ : g.nodes[n.id]? = some n) (fusable : n.op.isFusable) {k : Kind} {rank : Nat}
    (typed : Typed g n.output k rank) :
    ∃ t i tys, Tree.expand g absorbed (n.id + 1) n {} = .ok (t, i) ∧ (¬ n.op.endsInLoad → t.steps.length = i + 1) ∧
      t.inputs.Nodup ∧ (∀ v, v ∈ t.inputs ↔ Loads g absorbed n v) ∧ g.Types t.inputs tys ∧
      (Op.fused ⟨t.steps, t.inputs.length⟩).infer tys = .ok { kind := k, rank } := by
  obtain ⟨t, i, expanded, last, adds⟩ := Tree.expand_spec {} (fun _ => (Scalar.zero : Elem k)) sound absorbing at_
    fusable (Nat.lt_succ_self _) typed {}
  have members : ∀ v, v ∈ t.inputs ↔ Loads g absorbed n v := fun v => by
    rw [adds.grows.members v]
    simp
  have given : t.steps ≠ [] := List.ne_nil_of_length_pos (Nat.lt_of_le_of_lt (Nat.zero_le i) adds.inRange)
  obtain ⟨fits, v, loads, whole⟩ := loads_typed sound absorbing at_ fusable typed
  have typedInputs : ∀ v ∈ t.inputs, ∃ r, Typed g v k r ∧ (r = rank ∨ r = 0) := fun v member =>
    fits v ((members v).mp member)
  obtain ⟨tys, types⟩ : ∃ tys, g.Types t.inputs tys := by
    refine Graph.exists_types fun v member => ?_
    obtain ⟨r, ⟨x, atV, -⟩, -⟩ := typedInputs v member
    exact (Array.getElem?_eq_some_iff.mp atV).1
  refine ⟨t, i, tys, expanded, last, adds.grows.distinct List.nodup_nil, members, types, ?_⟩
  exact infer_fused (adds.grows.checked rfl) given types typedInputs ⟨v, (members v).mpr loads, whole⟩

section Value

variable {math : MathMode} {b : Binding} {n : Node} {t : Tree} {i rank : Nat} {k : Kind}

variable [BlockRoutine]

theorem valued_of_sound (sound : g.Sound d) (math : MathMode) (b : Binding) :
    Valued g math (g.value (fun _ => math) b) := fun _ at_ => sound.value_output at_

/-- The loads of a cluster, when its result has a value, have values that fit. -/
theorem loads_of_value (sound : g.Sound d) (absorbing : Absorbing g absorbed (·.isFusable))
    (at_ : g.nodes[n.id]? = some n) (fusable : n.op.isFusable) {r : Tensor} (typed : Typed g n.output r.kind rank)
    (members : ∀ v, v ∈ t.inputs ↔ Loads g absorbed n v)
    (value : g.value (fun _ => math) b n.output = some r) :
    ∃ ts, t.inputs.mapM (g.value (fun _ => math) b) = some ts ∧
      (∀ u ∈ ts, u.kind = r.kind ∧ (u.shape = r.shape ∨ u.shape = [])) ∧
      ∃ u ∈ ts, u.shape = r.shape := by
  have valued := valued_of_sound sound math b
  have fits : ∀ v ∈ t.inputs, Fits (g.value (fun _ => math) b) r.kind r.shape v := fun v member =>
    (loads_fit sound absorbing valued at_ fusable typed).mp ⟨r, value, rfl, .inl rfl⟩ v ((members v).mp member)
  obtain ⟨ts, operands⟩ := exists_mapM fun v member => (fits v member).imp fun _ h => h.1
  have each := mapM_eq_some.mp operands
  refine ⟨ts, operands, fun u member => ?_, ?_⟩
  · obtain ⟨v, inInputs, atV⟩ := partner_of each member
    obtain ⟨u', atV', kind, shape⟩ := fits v inInputs
    obtain rfl : u = u' := Option.some.inj (atV.symm.trans atV')
    exact ⟨kind, shape⟩
  · obtain ⟨v, u, loads, atV, shape⟩ := load_shape sound absorbing valued at_ fusable value
    obtain ⟨u', member, atV'⟩ := partner each ((members v).mpr loads)
    obtain rfl : u = u' := Option.some.inj (atV.symm.trans atV')
    exact ⟨u, member, shape⟩

/-- What a cluster computes, the steps of the expression up to its own compute at once. -/
theorem fused_of_value (sound : g.Sound d) (absorbing : Absorbing g absorbed (·.isFusable))
    (at_ : g.nodes[n.id]? = some n) (fusable : n.op.isFusable) (typed : Typed g n.output k rank)
    (expanded : Tree.expand g absorbed (n.id + 1) n {} = .ok (t, i)) {r : Tensor} (kind : r.kind = k)
    (value : g.value (fun _ => math) b n.output = some r) :
    ((t.inputs.mapM (g.value (fun _ => math) b)).bind fun ts =>
      ((Op.fused (t.upTo i)).eval math ts).toOption) = some r := by
  subst kind
  have valued := valued_of_sound sound math b
  have opened : ∀ x : VarId → Elem r.kind,
      Tree.Adds {} t r.kind math x (∀ m, Cluster g absorbed n m → Faithful math x m)
        (Loads g absorbed n) i n.output := by
    intro x
    obtain ⟨t', i', ran, -, adds⟩ := Tree.expand_spec math x sound absorbing at_ fusable (Nat.lt_succ_self _) typed {}
    cases expanded.symm.trans ran
    exact adds
  have adds := opened fun _ => Scalar.zero
  have members : ∀ v, v ∈ t.inputs ↔ Loads g absorbed n v := fun v => by
    rw [adds.grows.members v]
    simp
  have check := Tree.check_upTo (adds.grows.checked rfl) adds.inRange
  obtain ⟨ts, operands, fits, whole⟩ := loads_of_value sound absorbing at_ fusable typed members value
  have count : ts.length = t.inputs.length := (mapM_eq_some.mp operands).length_eq.symm
  rw [operands, Option.bind_some, toOption_eq_some]
  obtain ⟨r', ran, shape, kind⟩ := Op.eval_fused check count fits whole math
  have equal : r' = r := by
    refine Tensor.ext_elem? kind rfl shape fun j inRange => ?_
    obtain ⟨regs, ranRegs, last⟩ := Op.fused_elem? ran check (fun u member => (fits u member).1)
      (fun u member => by rw [shape]; exact (fits u member).2) inRange
    rw [shape] at inRange ranRegs
    -- At each place, the steps of the expression give the elements of the variables.
    have faithful : ∀ m, Cluster g absorbed n m → Faithful math (fun v =>
        (place? (g.value (fun _ => math) b) r.kind r.shape j v).getD Scalar.zero) m := by
      intro m cluster
      obtain ⟨atM, fusableM, ⟨rankM, typedM⟩, fitsM⟩ := cluster_fits sound absorbing valued cluster at_ fusable typed
        ⟨r, value, rfl, .inl rfl⟩
      exact place_faithful sound valued atM fusableM typedM fitsM inRange
    obtain ⟨regs', results, -, here⟩ := (opened _).computes faithful [] rfl
    obtain ⟨regs'', ranRegs', last'⟩ := Tree.results_upTo results adds.inRange
    have same : regs'' = regs := by
      have wider : Expr.stepsAt math (fun k => ts[k]?.bind fun u => u.at? r.kind r.shape.volume j) []
          (t.upTo i).steps = some regs'' := by
        refine Expr.stepsAt_mono (fun k y got => ?_) ranRegs'
        obtain ⟨v, atK, rfl⟩ := Option.map_eq_some_iff.mp got
        obtain ⟨inInputs, rfl⟩ := List.getElem?_eq_some_iff.mp atK
        have inTs : k < ts.length := by rwa [count]
        have atV := (mapM_eq_some.mp operands).get inInputs inTs
        simp only [List.get_eq_getElem] at atV
        obtain ⟨fitKind, fitShape⟩ := fits ts[k] (List.getElem_mem inTs)
        obtain ⟨y, atPlace⟩ := place_fits inRange ⟨ts[k], atV, fitKind, fitShape⟩
        rw [atPlace, Option.getD_some, List.getElem?_eq_getElem inTs]
        rw [place?, atV] at atPlace
        exact atPlace
      exact Option.some.inj (wider.symm.trans ranRegs)
    subst same
    have whole' : ∃ y, place? (g.value (fun _ => math) b) r.kind r.shape j n.output = some y :=
      place_fits inRange ⟨r, value, rfl, .inl rfl⟩
    obtain ⟨y, atPlace⟩ := whole'
    rw [← last, last', here]
    simp only [atPlace, Option.getD_some]
    rw [← atPlace, place?, value, Option.bind_some, Tensor.at?_self]
  rw [ran, equal]

/-- A cluster and the steps of its expression up to its own have the same value, or both have none. -/
theorem fused_value (sound : g.Sound d) (absorbing : Absorbing g absorbed (·.isFusable)) (binds : g.Binds b)
    (at_ : g.nodes[n.id]? = some n) (fusable : n.op.isFusable) (typed : Typed g n.output k rank)
    (expanded : Tree.expand g absorbed (n.id + 1) n {} = .ok (t, i)) (math : MathMode) :
    g.value (fun _ => math) b n.output = (t.inputs.mapM (g.value (fun _ => math) b)).bind fun ts =>
      ((Op.fused (t.upTo i)).eval math ts).toOption := by
  have kindOf : ∀ r, g.value (fun _ => math) b n.output = some r → r.kind = k := by
    intro r value
    obtain ⟨x, atN, rfl, -⟩ := typed
    exact (sound.value_hasType binds atN value).1
  cases value : g.value (fun _ => math) b n.output with
  | some r => exact (fused_of_value sound absorbing at_ fusable typed expanded (kindOf r value) value).symm
  | none =>
    symm
    rw [Option.eq_none_iff_forall_not_mem]
    intro r' member
    obtain ⟨ts, operands, evaluated⟩ := Option.bind_eq_some_iff.mp member
    rw [toOption_eq_some] at evaluated
    obtain ⟨alike, -⟩ := Op.fused_operands evaluated
    obtain ⟨t', i', ran, -, adds⟩ := Tree.expand_spec math
      (fun _ => (Scalar.zero : Elem k)) sound absorbing at_ fusable (Nat.lt_succ_self _) typed {}
    cases expanded.symm.trans ran
    have fits : ∀ v, Loads g absorbed n v → Fits (g.value (fun _ => math) b) k r'.shape v := by
      intro v loads
      have inInputs : v ∈ t.inputs := (adds.grows.members v).mpr (.inr loads)
      obtain ⟨u, inTs, atV⟩ := partner (mapM_eq_some.mp operands) inInputs
      obtain ⟨r, typedV, -⟩ := (loads_typed sound absorbing at_ fusable typed).1 v loads
      obtain ⟨x, atX, kind, -⟩ := typedV
      exact ⟨u, atV, (sound.value_hasType binds atX atV).1.trans kind, (alike u inTs).2⟩
    obtain ⟨r, atN, -⟩ := (loads_fit sound absorbing (valued_of_sound sound math b) at_ fusable typed).mpr fits
    rw [value] at atN
    cases atN

end Value

section Step

variable {c : Context} {p : Program} {scope : Scope} {d d' : Discipline} {fails : Prop} {v : VarId} {m n : Node}

/-- Rules that fusion leads from and to: a fused expression stands where an operation stood that can be fused, on
operands of such operations at the same place. -/
structure Fuses (d d' : Discipline) : Prop where
  leaf : ∀ x : Var, x.Fits d → x.Fits d'
  asked : d'.typed → d.typed
  copied : ∀ {op : Op} {tys tys' : List Ty} {place : Place} {mark : Option Nat}, d.op op tys place mark →
    List.Forall₂ Ty.Alike tys tys' → List.Forall₂ (fun t t' : Ty => t'.place = t.place) tys tys' →
      d'.op op tys' place mark
  fused : ∀ {op : Op} {tys tys' : List Ty} {place : Place} {mark : Option Nat} (e : Expr), op.isFusable →
    d.op op tys place mark → (∀ t' ∈ tys', ∃ inner tysI t markI, Op.isFusable inner ∧ d.op inner tysI place markI ∧
      t ∈ tysI ∧ t'.place = t.place) → d'.op (.fused e) tys' place none

theorem fuses_placed (target : Location) (scope : Scope) :
    Fuses (.placed target scope) (.placed target scope.fusing) where
  leaf _ fits := fits
  asked := id
  copied rule alike places :=
    Discipline.congruent_placed _ _ ((Scope.placed_fusing target scope).op _ _ _ _ rule) alike places
  fused := by
    rintro op tys tys' place mark e fusable ⟨-, l, rfl, there, -⟩ inside
    refine ⟨rfl, l, rfl, there, fun moves => absurd moves Bool.false_ne_true, fun _ t' member => ?_⟩
    obtain ⟨inner, tysI, t, markI, fusableI, ⟨-, l', same, -, -, allowed⟩, inTys, place⟩ := inside t' member
    obtain rfl := Option.some.inj same
    refine ⟨?_, fun _ => ⟨by simp, .inl ⟨_, rfl⟩⟩⟩
    rw [place, (allowed (Op.computes_of_fusable fusableI) t inTys).1]

/-- Two operations that one expression can compute: both can be fused, at one place, where a table has fused
expressions on the kind that both give. -/
structure Joins (c : Context) (g : Graph) (m n : Node) : Prop where
  fusable : m.op.isFusable ∧ n.op.isFusable
  place : m.place = n.place
  supported : ∃ ty ty' t, g.ty m.output = .ok ty ∧ g.ty n.output = .ok ty' ∧ ty'.kind = ty.kind ∧
    c.table (m.place.getD .host) = .ok t ∧ (t.supports candidate [ty.kind]).isOk

/-- A variable that fusion computes inside the expression of its only reader. -/
structure Taken (c : Context) (p : Program) (v : VarId) (m n : Node) : Prop where
  produced : p.graph.producer? v = some m
  live : n ∈ p.liveNodes
  reads : v ∈ n.inputs
  once : p.uses v = 1
  root : v ∉ p.roots
  joins : Joins c p.graph m n

/-- A variable that is computed inside the expression of its only reader. -/
structure Absorbed (p : Program) (v : VarId) (m n : Node) : Prop where
  root : v ∉ p.roots
  produced : p.graph.producer? v = some m
  live : n ∈ p.liveNodes
  reads : v ∈ n.inputs
  only : ∀ k ∈ p.liveNodes, v ∈ k.inputs → k = n
  fusable : m.op.isFusable ∧ n.op.isFusable
  place : m.place = n.place

/-- Of two operations that read a variable, it is read twice. -/
theorem count_readers {ns : List Node} {v : VarId} {k n : Node} (inK : k ∈ ns) (inN : n ∈ ns)
    (readsK : v ∈ k.inputs) (readsN : v ∈ n.inputs) (once : (ns.flatMap Node.inputs).count v = 1) :
    k = n := by
  obtain ⟨front, back, rfl⟩ := List.append_of_mem inN
  have here : 0 < n.inputs.count v := List.count_pos_iff.mpr readsN
  rw [List.flatMap_append, List.flatMap_cons, List.count_append, List.count_append] at once
  have elsewhere : ∀ ms : List Node, (ms.flatMap Node.inputs).count v = 0 → k ∉ ms := by
    intro ms none member
    have absent := List.count_eq_zero.mp none
    exact absent (List.mem_flatMap.mpr ⟨k, member, readsK⟩)
  rcases List.mem_append.mp inK with early | late
  · exact absurd early (elsewhere front (by omega))
  · rcases List.mem_cons.mp late with same | later
    · exact same
    · exact absurd later (elsewhere back (by omega))

/-- A variable that is absorbed is read once, by an operation that can be computed together with its producer. -/
theorem absorbs_eq_true (valid : p.Valid d) : absorbs c p p.liveNodes v = .ok true ↔ ∃ m n, Taken c p v m n := by
  unfold absorbs
  constructor
  · intro held
    cases produced : p.graph.producer? v with
    | none => simp [produced] at held
    | some m =>
      cases found : reader? p.liveNodes v with
      | none => simp [produced, found] at held
      | some n =>
        obtain ⟨live, reads⟩ := List.mem_filter.mp (List.mem_of_getLast? found)
        simp only [produced, found] at held
        split at held
        swap
        · cases held
        rename_i eligible
        simp only [Bool.and_eq_true, beq_iff_eq, Bool.not_eq_true'] at eligible
        obtain ⟨⟨⟨⟨fusableM, fusableN⟩, once⟩, notRoot⟩, place⟩ := eligible
        obtain ⟨-, rfl⟩ := valid.graph.of_producer? produced
        obtain ⟨ty, tyM, rest⟩ := bind_eq_ok.mp held
        obtain ⟨ty', tyN, rest⟩ := bind_eq_ok.mp rest
        by_cases kind : ty'.kind ≠ ty.kind
        · rw [if_pos kind] at rest
          cases rest
        rw [if_neg kind] at rest
        obtain ⟨t, table, supported⟩ := bind_eq_ok.mp rest
        exact ⟨m, n, produced, live, List.contains_iff_mem.mp reads, once, by simpa [Program.isRoot] using notRoot,
          ⟨fusableM, fusableN⟩, place, ty, ty', t, tyM, tyN, not_not.mp kind, table, Except.ok.inj supported⟩
  · rintro ⟨m, n, taken⟩
    obtain ⟨ty, ty', t, tyM, tyN, kind, table, supported⟩ := taken.joins.supported
    obtain ⟨-, rfl⟩ := valid.graph.of_producer? taken.produced
    have only : ∀ k ∈ p.liveNodes, m.output ∈ k.inputs → k = n := fun k live reads =>
      count_readers live taken.live reads taken.reads taken.once
    have found : reader? p.liveNodes m.output = some n := by
      have some : (p.liveNodes.filter fun n => n.inputs.contains m.output) ≠ [] :=
        List.ne_nil_of_mem (List.mem_filter.mpr ⟨taken.live, List.contains_iff_mem.mpr taken.reads⟩)
      obtain ⟨live, reads⟩ := List.mem_filter.mp (List.getLast_mem some)
      rw [reader?, List.getLast?_eq_getLast_of_ne_nil some, only _ live (List.contains_iff_mem.mp reads)]
    have eligible : (m.op.isFusable && n.op.isFusable && (p.liveNodes.flatMap Node.inputs).count m.output == 1 &&
        !p.isRoot m.output && m.place == n.place) = true := by
      have once := taken.once
      unfold Program.uses at once
      simp [taken.joins.fusable.1, taken.joins.fusable.2, once, Program.isRoot, taken.root, taken.joins.place]
    simp only [taken.produced, found]
    rw [if_pos eligible, tyM, ok_bind, tyN, ok_bind, if_neg (not_not.mpr kind), table, ok_bind, supported]
    rfl

theorem Taken.toAbsorbed (taken : Taken c p v m n) : Absorbed p v m n where
  root := taken.root
  produced := taken.produced
  live := taken.live
  reads := taken.reads
  only _ live reads := count_readers live taken.live reads taken.reads taken.once
  fusable := taken.joins.fusable
  place := taken.joins.place

/-- The types of all operations are known, so nothing but a table can be missing. -/
theorem absorbs_fails (valid : p.Valid d) (tabled : p.Tabled c fails) {e : Error}
    (ran : absorbs c p p.liveNodes v = .error e) : fails := by
  unfold absorbs at ran
  cases produced : p.graph.producer? v with
  | none => simp [produced] at ran
  | some m =>
    cases found : reader? p.liveNodes v with
    | none => simp [produced, found] at ran
    | some n =>
      simp only [produced, found] at ran
      split at ran
      swap
      · cases ran
      obtain ⟨live, reads⟩ := List.mem_filter.mp (List.mem_of_getLast? found)
      have liveM := valid.graph.live_producer live (List.contains_iff_mem.mp reads) produced
      obtain ⟨-, rfl⟩ := valid.graph.of_producer? produced
      obtain ⟨tysM, tyM, x, knownM⟩ := valid.operation liveM
      obtain ⟨tysN, tyN, y, knownN⟩ := valid.operation live
      rw [Graph.ty_eq_ok.mpr ⟨x, knownM.atOutput, rfl⟩, ok_bind, Graph.ty_eq_ok.mpr ⟨y, knownN.atOutput, rfl⟩,
        ok_bind] at ran
      by_cases kind : y.ty.kind ≠ x.ty.kind
      · rw [if_pos kind] at ran
        cases ran
      rw [if_neg kind] at ran
      rcases bind_eq_error.mp ran with missing | ⟨t, -, wrong⟩
      swap
      · cases wrong
      cases placeM : m.place with
      | none =>
        rw [placeM] at missing
        cases missing
      | some l =>
        rw [placeM, Option.getD_some] at missing
        rcases tabled m liveM l placeM with ⟨t, table⟩ | failed
        · cases missing.symm.trans table
        · exact failed

/-- What is absorbed is what has one reader that it can be computed with. -/
theorem mem_absorbed {vs : List VarId} (valid : p.Valid d) (found : Fusion.absorbed c p = .ok vs) :
    v ∈ vs ↔ ∃ m n, Taken c p v m n := by
  rw [filterM_eq_ok found v, absorbs_eq_true valid, List.mem_range]
  refine and_iff_right_of_imp ?_
  rintro ⟨m, n, taken⟩
  obtain ⟨x, i, atV, -⟩ := Graph.producer?_eq_some.mp taken.produced
  exact (Array.getElem?_eq_some_iff.mp atV).1

theorem absorbed_spec (valid : p.Valid d) (tabled : p.Tabled c fails) :
    match Fusion.absorbed c p with
    | .ok vs => ∀ v ∈ vs, ∃ m n, Absorbed p v m n
    | .error _ => fails := by
  cases found : Fusion.absorbed c p with
  | error e =>
    obtain ⟨v, -, failed⟩ := filterM_error found
    exact absorbs_fails valid tabled failed
  | ok vs =>
    intro v member
    obtain ⟨m, n, taken⟩ := (mem_absorbed valid found).mp member
    exact ⟨m, n, taken.toAbsorbed⟩

/-- Where no operation is a fused expression, none ends in a load. -/
theorem computes_of_unfused {target : Location} (valid : p.Valid (.placed target scope)) (typed : scope.typed)
    (unfused : scope.Unfused) {n : Node} (live : n ∈ p.liveNodes) : ¬ n.op.endsInLoad := by
  obtain ⟨tys, ty, x, known⟩ := valid.operation live
  obtain ⟨-, l, -, -, -, allowed⟩ := known.rule
  obtain ⟨first, rest, rfl, -⟩ := Op.infer_eq_ok.mp known.inferred
  cases op : n.op with
  | fused e =>
    rw [op] at allowed
    exact absurd ((allowed Bool.false_ne_true first (by simp)).2 typed).2 (unfused e first.kind)
  | _ => exact Bool.false_ne_true

variable {vs : List VarId}

theorem absorbing_of_absorbed (inside : ∀ v ∈ vs, ∃ m n, Absorbed p v m n) :
    Absorbing p.graph vs (·.isFusable) := by
  intro v member
  obtain ⟨m, n, absorbed⟩ := inside v member
  exact ⟨m, absorbed.produced, absorbed.fusable.1⟩

/-- The operations of a cluster come before its result, at one place. -/
theorem cluster_before {d : Discipline} (valid : p.Valid d) (inside : ∀ v ∈ vs, ∃ m n, Absorbed p v m n)
    {before after : List Node} {n : Node} (split : p.liveNodes = before ++ n :: after) {k m : Node}
    (cluster : Cluster p.graph vs k m) (early : k ∈ before ++ [n]) :
    m ∈ before ++ [n] ∧ m.place = k.place := by
  induction cluster with
  | self k => exact ⟨early, rfl⟩
  | @inner k m' m v reads member produced _ ih =>
    obtain ⟨m'', n', absorbed⟩ := inside v member
    obtain rfl : m' = m'' := Option.some.inj (produced.symm.trans absorbed.produced)
    have live : k ∈ p.liveNodes := by
      rw [split]
      rcases List.mem_append.mp early with old | new
      · exact List.mem_append_left _ old
      · rw [List.mem_singleton.mp new]
        simp
    obtain rfl : k = n' := absorbed.only k live reads
    have earlier : m' ∈ before ++ [n] := by
      rcases List.mem_append.mp early with old | new
      · obtain ⟨first, rest, rfl⟩ := List.append_of_mem old
        have splitK : p.liveNodes = first ++ k :: (rest ++ n :: after) := by rw [split]; simp
        have front := valid.graph.live_before splitK reads produced
        exact List.mem_append_left _ (List.mem_append_left _ front)
      · rw [List.mem_singleton.mp new] at reads
        exact List.mem_append_left _ (valid.graph.live_before split reads produced)
    obtain ⟨last, place⟩ := ih earlier
    exact ⟨last, place.trans absorbed.place⟩

variable {math : MathMode} {ts : List Tensor} {cells : Array Tensor} {kept : Prop} {r : Rebuild}

/-- What a cluster loads can be read, and is an operand of an operation at the place of the result. -/
theorem loads_ready (valid : p.Valid d) (inside : ∀ v ∈ vs, ∃ m n, Absorbed p v m n) {before after : List Node}
    {n : Node} (split : p.liveNodes = before ++ n :: after) (fusable : n.op.isFusable)
    (reached : r.Reached p (· ∈ vs) before) {v : VarId} (loads : Loads p.graph vs n v) :
    r.Ready p v ∧ ∃ m ∈ p.liveNodes, m.op.isFusable ∧ m.place = n.place ∧ v ∈ m.inputs := by
  obtain ⟨m, cluster, reads, outside⟩ := loads
  obtain ⟨early, place⟩ := cluster_before valid inside split cluster (by simp)
  have liveM : m ∈ p.liveNodes := by
    rw [split]
    rcases List.mem_append.mp early with old | new
    · exact List.mem_append_left _ old
    · rw [List.mem_singleton.mp new]
      simp
  exact ⟨reached.ready valid split early reads outside, m, liveM,
    cluster_sort (absorbing_of_absorbed inside) cluster fusable, place, reads⟩

variable [BlockRoutine]

theorem step_meets (fuses : Fuses d d') (valid : p.Valid d)
    (regular : kept → (∀ n ∈ p.liveNodes, ¬ n.op.endsInLoad) ∧ p.graph.Binds (p.bind ts cells))
    (inside : ∀ v ∈ vs, ∃ m n, Absorbed p v m n)
    {before after : List Node} {n : Node} (split : p.liveNodes = before ++ n :: after)
    (mirrors : r.Mirrors p d' (p.stage math ts cells kept True True True))
    (reached : r.Reached p (· ∈ vs) before) :
    (step p vs n).Meets r (fun _ => False) fun _ r' =>
      r.Advances r' p d' (p.stage math ts cells kept True True True) (· ∈ vs) n := by
  have live : n ∈ p.liveNodes := by
    rw [split]
    simp
  have at_ := valid.graph.live_mem live
  obtain ⟨tys, ty, x, known⟩ := valid.operation live
  unfold step
  by_cases skipped : vs.contains n.output
  · rw [if_pos skipped, meets_pure]
    refine ⟨mirrors, .refl r p, fun outside => ?_⟩
    exact absurd (List.contains_iff_mem.mp skipped) outside
  rw [if_neg skipped]
  have absorbing := absorbing_of_absorbed inside
  by_cases fusing : n.op.isFusable && n.inputs.any fun v => vs.contains v
  · rw [if_pos fusing]
    rw [Bool.and_eq_true] at fusing
    have typed : Typed p.graph n.output ty.kind ty.rank :=
      ⟨x, known.atOutput, known.alike.1, known.alike.2⟩
    obtain ⟨t, i, tys₀, expanded, last, -, members, types₀, inferred⟩ :=
      expand_typed valid.graph absorbing at_ fusing.1 typed
    have loaded : ∀ v ∈ t.inputs, r.Ready p v ∧
        ∃ m ∈ p.liveNodes, m.op.isFusable ∧ m.place = n.place ∧ v ∈ m.inputs := fun v member =>
      loads_ready valid inside split fusing.1 reached ((members v).mp member)
    rw [meets_bind, meets_lift, expanded]
    simp only
    rw [meets_bind]
    refine (mirrors.readAll (fun v member => (loaded v member).1)
      fun v _ y atV _ => fuses.leaf y (valid.graph.leaf atV)).mono ?_
    rintro ws r₁ ⟨mirrors₁, grows₁, images⟩
    obtain ⟨tys', types', alike, places⟩ := mirrors₁.types images types₀
    have alike := alike trivial
    have rule : d'.op (.fused ⟨t.steps, t.inputs.length⟩) tys' n.place none := by
      refine fuses.fused _ fusing.1 known.rule fun u member => ?_
      obtain ⟨u₀, member₀, placeU⟩ := partner_of (places trivial) member
      obtain ⟨v, inInputs, y, atV, same⟩ := partner_of types₀ member₀
      obtain ⟨-, m, liveM, fusableM, placeM, reads⟩ := loaded v inInputs
      obtain ⟨tysM, tyM, xM, knownM⟩ := valid.operation liveM
      obtain ⟨tV, inTys, y', atV', sameV⟩ := partner knownM.types reads
      obtain rfl : y = y' := Option.some.inj (atV.symm.trans atV')
      refine ⟨m.op, tysM, tV, m.inPlace, fusableM, placeM ▸ knownM.rule, inTys, ?_⟩
      rw [placeU, ← same, sameV]
    refine (mirrors₁.emitted known types' (Op.infer_congr inferred alike) rule (fun _ => ⟨rfl, rfl⟩) (fun _ => rfl)
      (fun _ _ computes => absurd rfl computes) fun held => ?_).mono fun _ _ advances => advances.after grows₁.keeps
    obtain ⟨computed, binds⟩ := regular held
    rw [mirrors₁.values held images, ← Tree.upTo_last (last (computed n live))]
    exact fused_value valid.graph absorbing binds at_ fusing.1 typed expanded math
  · rw [if_neg fusing]
    have outside : ∀ v ∈ n.inputs, v ∉ vs := by
      intro v reads member
      obtain ⟨m, n', absorbed⟩ := inside v member
      obtain rfl : n = n' := absorbed.only n live reads
      refine fusing ?_
      rw [Bool.and_eq_true]
      exact ⟨absorbed.fusable.2, List.any_eq_true.mpr ⟨v, reads, List.contains_iff_mem.mpr member⟩⟩
    have ready : ∀ v ∈ n.inputs, r.Ready p v := fun v reads =>
      reached.ready valid split (by simp) reads (outside v reads)
    exact mirrors.copyAs trivial valid fuses.leaf live known ready
      fun _ alike places => fuses.copied known.rule alike (places trivial)

/-- The fused program mirrors the program. -/
theorem rebuild_meets (fuses : Fuses d d') (valid : p.Valid d) (tabled : p.Tabled c fails)
    (regular : kept → (∀ n ∈ p.liveNodes, ¬ n.op.endsInLoad) ∧ p.graph.Binds (p.bind ts cells)) :
    match run c p with
    | .ok q => p.Rebuilt q d' (p.stage math ts cells kept True True True)
    | .error _ => fails := by
  have spec := absorbed_spec valid tabled
  unfold run
  cases found : Fusion.absorbed c p with
  | error e =>
    rw [found] at spec
    exact spec
  | ok vs =>
    rw [found] at spec
    have rebuilt : match p.rebuild (step p vs) with
        | .ok q => p.Rebuilt q d' (p.stage math ts cells kept True True True)
        | .error _ => False := by
      refine Program.rebuild_meets valid fuses.leaf (fun typed => ⟨fuses.asked typed, trivial⟩) ?_
        (step_meets fuses valid regular spec)
      intro v root member
      obtain ⟨m, n, absorbed⟩ := spec v member
      exact absorbed.root root
    rw [ok_bind]
    cases result : p.rebuild (step p vs) with
    | error e =>
      rw [result] at rebuilt
      exact rebuilt.elim
    | ok q =>
      rw [result] at rebuilt
      exact rebuilt

theorem rebuilt_of_run (fuses : Fuses d d') (valid : p.Valid d) (tabled : p.Tabled c fails) {q : Program}
    (ran : run c p = .ok q)
    (regular : kept → (∀ n ∈ p.liveNodes, ¬ n.op.endsInLoad) ∧ p.graph.Binds (p.bind ts cells)) :
    p.Rebuilt q d' (p.stage math ts cells kept True True True) := by
  have meets : match run c p with
      | .ok q => p.Rebuilt q d' (p.stage math ts cells kept True True True)
      | .error _ => fails := rebuild_meets fuses valid tabled regular
  rw [ran] at meets
  exact meets

omit [BlockRoutine] in
/-- Fusion succeeds where a table is known for every operation. -/
theorem exists_run (fuses : Fuses d d') (valid : p.Valid d) (tabled : p.Tabled c False) : ∃ q, run c p = .ok q := by
  have meets : match run c p with
      | .ok q => p.Rebuilt q d' (p.stage {} [] #[] False True True True)
      | .error _ => False := rebuild_meets fuses valid tabled False.elim
  cases ran : run c p with
  | error e =>
    rw [ran] at meets
    exact meets.elim
  | ok q => exact ⟨q, rfl⟩

/-- The program with fused expressions computes the same, unless there were such expressions
already. -/
theorem run_meets (c : Context) (valid : p.Valid (.placed c.target scope)) (math : MathMode)
    (ts : List Tensor) (cells : Array Tensor) :
    match run c p with
    | .ok q => p.Refines q (.placed c.target scope.fusing) math ts cells
        (scope.typed ∧ scope.Unfused ∧ p.graph.Binds (p.bind ts cells))
    | .error _ => ¬ c.Plain := by
  have rebuilt : match run c p with
      | .ok q => p.Rebuilt q (.placed c.target scope.fusing)
          (p.stage math ts cells (scope.typed ∧ scope.Unfused ∧ p.graph.Binds (p.bind ts cells)) True True True)
      | .error _ => ¬ c.Plain := by
    refine rebuild_meets (fuses_placed c.target scope) valid valid.tabled ?_
    rintro ⟨typed, unfused, binds⟩
    exact ⟨fun n live => computes_of_unfused valid typed unfused live, binds⟩
  cases result : run c p with
  | error e =>
    rw [result] at rebuilt
    exact rebuilt
  | ok q =>
    rw [result] at rebuilt
    exact rebuilt.refines

end Step

end Fusion

end TensorGraph
