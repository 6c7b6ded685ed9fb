import TensorGraph.Proofs.Pass.Arising
import TensorGraph.Proofs.World.Contexts

/-! Where placement sends an operation, by the tables and the fallback policy alone. -/
namespace TensorGraph

open Checked Rebuilding

-- Where the product of blocks plays no part, any one serves for the lemmas that ask for it.
open scoped BlockRoutine

namespace Table

/-- An entry of the table covers an operation on elements of a kind: that of its family, if there is one, else that
of its capability. -/
def Covers (t : Table) (op : Op) (k : Kind) : Prop :=
  ∃ s, t.support op.capability = some s ∧ ((t.override op.family).getD s.kinds).has k

/-- What a table supports is what it covers for every kind. An entry without kinds covers nothing. -/
theorem supports_iff {t : Table} {op : Op} {kinds : List Kind} (given : kinds ≠ []) :
    (t.supports op kinds).isOk ↔ ∀ k ∈ kinds, t.Covers op k := by
  obtain ⟨first, member⟩ := List.exists_mem_of_ne_nil kinds given
  unfold supports Covers
  cases t.support op.capability with
  | none => exact iff_of_false Bool.false_ne_true fun each => by obtain ⟨s, none, -⟩ := each first member; cases none
  | some s =>
    simp only [Option.some.injEq, exists_eq_left']
    generalize (t.override op.family).getD s.kinds = allowed
    by_cases none : allowed.isEmpty
    · rw [if_pos none]
      refine iff_of_false Bool.false_ne_true fun each => ?_
      have inList := KindSet.mem_toList.mpr (each first member)
      rw [List.isEmpty_iff.mp none] at inList
      cases inList
    · rw [if_neg none]
      cases missing : kinds.find? fun k => !allowed.has k with
      | some k =>
        have member := List.mem_of_find?_eq_some missing
        have lacks := List.find?_some missing
        refine iff_of_false Bool.false_ne_true fun each => ?_
        rw [each k member] at lacks
        cases lacks
      | none => exact iff_of_true rfl fun k member => by simpa using List.find?_eq_none.mp missing k member

/-- The device of a table can run an operation: it covers the kinds of all the operands and of the result. -/
def Runs (t : Table) (g : Graph) (n : Node) : Prop :=
  ∀ v ∈ n.output :: n.inputs, ∀ x, g.vars[v]? = some x → t.Covers n.op x.ty.kind

end Table

namespace Context

variable {c : Context} {g : Graph} {n : Node} {l : Location}

/-- Where an operation goes: to the target if the target can run it, else to the host if that is allowed and the host
can run it. -/
inductive Sends (c : Context) (g : Graph) (n : Node) : Location → Prop where
  | target (runs : c.targetTable.Runs g n) : Sends c g n c.target
  | host (refused : ¬ c.targetTable.Runs g n) (lenient : c.config.fallback ≠ .strict) (runs : c.hostTable.Runs g n) :
      Sends c g n .host

/-- An operation can go somewhere. -/
def Serves (c : Context) (g : Graph) (n : Node) : Prop := ∃ l, c.Sends g n l

/-- The table that has the last word on an operation. -/
def lastTable (c : Context) : Table := if c.config.fallback = .strict then c.targetTable else c.hostTable

/-- An accelerator gets exactly what its table covers. -/
theorem Sends.target_iff (sends : c.Sends g n l) (accelerated : c.target ≠ .host) :
    l = c.target ↔ c.targetTable.Runs g n := by
  cases sends with
  | target runs => exact iff_of_true rfl runs
  | host refused _ _ => exact iff_of_false accelerated.symm refused

/-- Without fallback everything goes to the target. -/
theorem Sends.strict (sends : c.Sends g n l) (strict : c.config.fallback = .strict) : l = c.target := by
  cases sends with
  | target _ => rfl
  | host _ lenient _ => exact absurd strict lenient

/-- Without fallback an operation can go somewhere exactly if the target can run it. -/
theorem serves_strict (strict : c.config.fallback = .strict) : c.Serves g n ↔ c.targetTable.Runs g n := by
  constructor
  · rintro ⟨l, sends⟩
    cases sends with
    | target runs => exact runs
    | host _ lenient _ => exact absurd strict lenient
  · exact fun runs => ⟨_, .target runs⟩

end Context

namespace Placement

variable {c : Context} {p : Program} {d d' : Discipline} {n : Node} {tys : List Ty} {ty : Ty} {x : Var}

/-- Repeats are dropped, and nothing else is. -/
theorem mem_dropRepeats {k : Kind} (ks : List Kind) : k ∈ dropRepeats ks ↔ k ∈ ks := by
  fun_induction dropRepeats ks with
  | case1 b ks ih => simp [ih]
  | case2 a b ks apart ih => rw [List.mem_cons, ih, List.mem_cons (a := k) (b := a)]
  | case3 ks short => rfl

/-- A table admits an operation if its device can run it. Otherwise the error names the operation. -/
theorem admits_spec (t : Table) (known : p.Operation d n tys ty x) :
    match admits t n (dropRepeats (tys.map Ty.kind ++ [x.ty.kind])) with
    | .ok _ => t.Runs p.graph n
    | .error e => ¬ t.Runs p.graph n ∧ ∃ reason, e = .placement n.label n.op.text t.name reason := by
  have given : dropRepeats (tys.map Ty.kind ++ [x.ty.kind]) ≠ [] :=
    List.ne_nil_of_mem ((mem_dropRepeats _).mpr (List.mem_append_right _ (List.mem_singleton_self _)))
  have runs : (t.supports n.op (dropRepeats (tys.map Ty.kind ++ [x.ty.kind]))).isOk ↔ t.Runs p.graph n := by
    rw [Table.supports_iff given]
    constructor
    · intro covers v member y atV
      refine covers _ ((mem_dropRepeats _).mpr (List.mem_append.mpr ?_))
      rcases List.mem_cons.mp member with rfl | reads
      · obtain rfl : x = y := Option.some.inj (known.atOutput.symm.trans atV)
        exact .inr (List.mem_singleton_self _)
      · obtain ⟨t', inTys, z, atZ, rfl⟩ := partner known.types reads
        obtain rfl : z = y := Option.some.inj (atZ.symm.trans atV)
        exact .inl (List.mem_map_of_mem inTys)
    · intro runs k member
      rcases List.mem_append.mp ((mem_dropRepeats _).mp member) with operand | result
      · obtain ⟨t', inTys, rfl⟩ := List.mem_map.mp operand
        obtain ⟨v, reads, y, atV, rfl⟩ := partner_of known.types inTys
        exact runs v (List.mem_cons_of_mem _ reads) y atV
      · obtain rfl := List.mem_singleton.mp result
        exact runs n.output List.mem_cons_self x known.atOutput
  unfold admits
  cases supported : t.supports n.op (dropRepeats (tys.map Ty.kind ++ [x.ty.kind])) with
  | ok _ =>
    rw [supported] at runs
    exact runs.mp rfl
  | error reason =>
    rw [supported] at runs
    exact ⟨fun held => Bool.false_ne_true (runs.mpr held), reason, rfl⟩

/-- What is chosen on an accelerator follows from the tables, and a refusal names the operation. -/
theorem choose_spec (table : c.table c.target = .ok c.targetTable) (accelerated : c.target ≠ .host)
    (known : p.Operation d n tys ty x) :
    match choose c p.graph n with
    | .ok l => c.Sends p.graph n l
    | .error e => ¬ c.Serves p.graph n ∧ ∃ reason, e = .placement n.label n.op.text c.lastTable.name reason := by
  have away : c.target.isHost = false := by
    cases target : c.target with
    | host => exact absurd target accelerated
    | device i => rfl
  have preferred := admits_spec c.targetTable known
  have home : c.table .host = .ok c.hostTable := by cases c.acceleratorTable <;> rfl
  unfold choose
  simp only [kindsOf_eq known, table, home, ok_bind, away]
  cases first : admits c.targetTable n (dropRepeats (tys.map Ty.kind ++ [x.ty.kind])) with
  | ok _ =>
    rw [first] at preferred
    exact .target preferred
  | error e =>
    rw [first] at preferred
    obtain ⟨refused, reason, rfl⟩ := preferred
    by_cases strict : c.config.fallback = .strict
    · simp only [strict, or_true, ↓reduceIte, Except.isOk, Except.toBool]
      exact ⟨fun serves => refused ((Context.serves_strict strict).mp serves), reason, by simp [Context.lastTable, strict]⟩
    · have last := admits_spec c.hostTable known
      simp only [strict, or_self, ↓reduceIte, Except.isOk, Except.toBool, Bool.false_eq_true]
      cases second : admits c.hostTable n (dropRepeats (tys.map Ty.kind ++ [x.ty.kind])) with
      | ok _ =>
        rw [second] at last
        exact .host refused strict last
      | error e =>
        rw [second] at last
        obtain ⟨refused', reason', rfl⟩ := last
        refine ⟨?_, reason', by simp [Context.lastTable, strict]⟩
        rintro ⟨l, sends⟩
        cases sends with
        | target runs => exact refused runs
        | host _ _ runs => exact refused' runs

theorem destination?_of_computes {target : Location} {op : Op} (computes : ¬ op.isTransfer) :
    destination? target op = none := by
  cases leads : destination? target op with
  | none => rfl
  | some dest => exact absurd (destination?_some leads).1 computes

/-- A choice that is made leads to a location of the context. -/
theorem choose_reaches (isOk : (choose c p.graph n).isOk) :
    match choose c p.graph n with
    | .ok l => c.Reaches l
    | .error _ => False := by
  obtain ⟨l, chosen⟩ := exists_of_isOk isOk
  rw [chosen]
  exact reaches_of_choose chosen

theorem settles_reaches (c : Context) : Settles c (.ruled anywhere True) (.ruled anywhere True) c.Reaches False :=
  settles_ruled (fun _ => id) (fun _ => trivial) fun _ _ => trivial

/-- Placement succeeds where every choice is made. -/
theorem rebuild_of_choices [BlockRoutine] (valid : p.Valid (.ruled anywhere True))
    (each : ∀ n ∈ p.liveNodes, ¬ n.op.isTransfer → (choose c p.graph n).isOk) :
    match p.rebuild (step c p) with
    | .ok q => p.Rebuilt q (.ruled anywhere True) (p.stage {} [] #[] False True False False)
    | .error _ => False :=
  rebuild_meets valid (settles_reaches c) fun n live computes => choose_reaches (each n live computes)

/-- Placement succeeds if it can send every operation somewhere. Else it fails as the choice fails for the first one
that it cannot send. -/
theorem rebuild_outcome (valid : p.Valid (.ruled anywhere True)) :
    ((∃ q, p.rebuild (step c p) = .ok q) ∧ ∀ n ∈ p.liveNodes, ¬ n.op.isTransfer → (choose c p.graph n).isOk) ∨
      ∃ n ∈ p.liveNodes, ¬ n.op.isTransfer ∧ ∃ e, choose c p.graph n = .error e ∧ p.rebuild (step c p) = .error e := by
  cases first : p.liveNodes.find? fun n => !n.op.isTransfer && !(choose c p.graph n).isOk with
  | none =>
    have each : ∀ n ∈ p.liveNodes, ¬ n.op.isTransfer → (choose c p.graph n).isOk := fun n live computes => by
      simpa [computes] using List.find?_eq_none.mp first n live
    have met := rebuild_of_choices valid each
    cases ran : p.rebuild (step c p) with
    | ok q => exact .inl ⟨⟨q, rfl⟩, each⟩
    | error e =>
      rw [ran] at met
      exact met.elim
  | some n =>
    obtain ⟨here, before, after, split, earlier⟩ := List.find?_eq_some_iff_append.mp first
    simp only [Bool.and_eq_true, Bool.not_eq_true'] at here
    obtain ⟨computes, refused⟩ := here
    have computes : ¬ n.op.isTransfer := by simp [computes]
    cases chosen : choose c p.graph n with
    | ok l =>
      rw [chosen] at refused
      cases refused
    | error e =>
      refine .inr ⟨n, by simp [split], computes, e, chosen, ?_⟩
      -- What comes before it is placed without failing.
      have opened : (p.opening (step c p) before).Meets (.start p) (fun _ => False) fun _ r =>
          r.Mirrors p (.ruled anywhere True) (p.stage {} [] #[] False True False False) ∧
            r.Reached p (fun _ => False) before :=
        Program.opening_meets valid (settles_reaches c).leaf fun {front back m r} cut mirrors reached =>
          step_meets valid (settles_reaches c) (split.trans (by rw [cut, List.append_assoc, List.cons_append]))
            (fun computes' => choose_reaches (by simpa [computes'] using earlier m (by simp [cut]))) mirrors reached
      refine Program.rebuild_eq_error split opened fun r _ => ?_
      simp only [step, destination?_of_computes computes, chosen]
      rfl

end Placement

end TensorGraph
