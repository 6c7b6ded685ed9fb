import Mathlib.Logic.Relation
import TensorGraph.Proofs.Graph.Built
import TensorGraph.Proofs.Program.Accepted

/-! Operands of one kind. An operation that is added is computed in one kind, which its operands decide; each operand of
another kind is cast, and the others stand for themselves. -/
namespace TensorGraph

open Checked

/-- Operations on several operands, which meet in a common kind. -/
def Op.isJoint : Op → Bool
  | .binary _ | .matmul | .fused _ => true
  | _ => false

theorem Op.arity_alone {op : Op} (alone : op.isJoint = false) : op.arity = 1 := by
  cases op with
  | binary | matmul | fused => cases alone
  | _ => rfl

namespace Graph

/-- The kind in which an operation is computed on operands of those types: the common one, or for a single operand its
own or the default float. -/
inductive Computes (g : Graph) (op : Op) : List Ty → Kind → Prop where
  | jointly {first ty : Ty} {rest : List Ty} (joint : op.isJoint)
    (resolved : rest.foldlM (fun joined t => resolve joined t op none) first = .ok ty) :
    Computes g op (first :: rest) ty.kind
  | alone {first ty : Ty} (alone : op.isJoint = false) (resolved : resolveOperand first op g.float = .ok ty) :
    Computes g op [first] ty.kind

/-- The casts that bring operands to a kind, and the operands after them: one cast for each operand of another kind,
in their order, and none for the others. -/
inductive Brought (kind : Kind) : List VarId → List Ty → List Node → List VarId → Prop where
  | none : Brought kind [] [] [] []
  | same {v : VarId} {t : Ty} {vs args : List VarId} {ts : List Ty} {casts : List Node} (same : t.kind = kind)
    (rest : Brought kind vs ts casts args) : Brought kind (v :: vs) (t :: ts) casts (v :: args)
  | cast {v : VarId} {t : Ty} {vs args : List VarId} {ts : List Ty} {casts : List Node} {c : Node}
    (other : t.kind ≠ kind) (op : c.op = .cast kind) (inputs : c.inputs = [v]) (rest : Brought kind vs ts casts args) :
    Brought kind (v :: vs) (t :: ts) (c :: casts) (c.output :: args)

/-- What the addition of an operation did to a graph when it gave a variable. -/
inductive Added (g : Graph) (op : Op) (inputs : List VarId) : Graph → VarId → Prop where
  /-- A cast to the kind that the operand has already adds nothing. -/
  | kept {v : VarId} {ty : Ty} (isCast : op = .cast ty.kind) (only : inputs = [v]) (typed : g.ty v = .ok ty) :
    Added g op inputs g v
  | computed {g' : Graph} {tys tys' : List Ty} {kind : Kind} {casts : List Node} {n : Node} {args : List VarId}
    (typed : g.tys inputs = .ok tys) (changes : ∀ t ∈ tys, op ≠ .cast t.kind) (computes : g.Computes op tys kind)
    (brought : Brought kind inputs tys casts args) (grows : g.Grows g')
    (nodes : g'.nodes.toList = g.nodes.toList ++ casts ++ [n]) (size : g'.vars.size = g.vars.size + casts.length + 1)
    (adds : n.op = op ∧ n.inputs = args) (retyped : g'.tys args = .ok tys') (oneKind : ∀ t ∈ tys', t.kind = kind) :
    Added g op inputs g' n.output

/-- The second operation reads what the first one computes. -/
def Feeds (g : Graph) (i j : NodeId) : Prop :=
  ∃ m n : Node, g.nodes[i]? = some m ∧ g.nodes[j]? = some n ∧ m.output ∈ n.inputs

/-- Operands share a kind, and the output has the type that inference gives it. -/
structure TypedNode (g : Graph) (n : Node) : Prop where
  early : ∀ v ∈ n.inputs, v < n.output
  typed : ∃ tys ty kind, g.tys n.inputs = .ok tys ∧ (∀ t ∈ tys, t.kind = kind) ∧ n.op.infer tys = .ok ty ∧
    g.ty n.output = .ok ty

theorem Types.at {g : Graph} {v : VarId} {t : Ty} (types : g.Types [v] [t]) : g.ty v = .ok t := by
  cases types with
  | cons head _ => exact ty_eq_ok.mpr head

section Operands

variable {g : Graph}

theorem resolveAll_eq_foldlM {op : Op} {first : Ty} {rest : List Ty} :
    resolveAll op first rest = rest.foldlM (fun joined t => resolve joined t op none) first := by
  induction rest generalizing first with
  | nil => rfl
  | cons t rest ih =>
    rw [resolveAll, List.foldlM_cons]
    exact bind_congr fun joined => ih

theorem operandKind_joint {op : Op} (joint : op.isJoint) {first : Ty} {rest : List Ty} :
    g.operandKind op (first :: rest) = Ty.kind <$> resolveAll op first rest := by
  cases op with
  | binary | matmul | fused => rfl
  | _ => cases joint

theorem operandKind_alone {op : Op} (alone : op.isJoint = false) {first : Ty} {rest : List Ty} :
    g.operandKind op (first :: rest) = Ty.kind <$> resolveOperand first op g.float := by
  cases op with
  | binary | matmul | fused => cases alone
  | _ => rfl

theorem computes_of_operandKind {op : Op} {tys : List Ty} {kind : Kind} (count : tys.length = op.arity)
    (chosen : g.operandKind op tys = .ok kind) : g.Computes op tys kind := by
  cases tys with
  | nil => cases chosen
  | cons first rest =>
    cases shape : op.isJoint with
    | true =>
      rw [operandKind_joint shape, resolveAll_eq_foldlM] at chosen
      obtain ⟨ty, resolved, rfl⟩ := map_eq_ok.mp chosen
      exact .jointly shape resolved
    | false =>
      rw [operandKind_alone shape] at chosen
      obtain ⟨ty, resolved, rfl⟩ := map_eq_ok.mp chosen
      rw [Op.arity_alone shape] at count
      obtain rfl : rest = [] := by simpa using count
      exact .alone shape resolved

/-- Casts are added at the end, in the order of the operands. -/
theorem castArgs_brings {kind : Kind} {vs args : List VarId} {tys : List Ty} {g' : Graph} (types : g.Types vs tys)
    (ran : g.castArgs kind vs tys = (g', .ok args)) :
    ∃ casts tys', Brought kind vs tys casts args ∧ g.Grows g' ∧ g'.nodes.toList = g.nodes.toList ++ casts ∧
      g'.vars.size = g.vars.size + casts.length ∧ g'.Types args tys' ∧ ∀ t ∈ tys', t.kind = kind := by
  induction vs generalizing g tys args with
  | nil =>
    cases types
    rw [castArgs] at ran
    · cases ran
      exact ⟨[], [], .none, .refl _, by simp, rfl, .nil, by simp⟩
    · rintro _ _ _ _ ⟨⟩
  | cons v vs ih =>
    cases types with
    | @cons _ t _ tys head tail =>
      by_cases same : t.kind = kind
      · simp only [castArgs, same, ↓reduceIte, Prod.mk.injEq, map_eq_ok] at ran
        obtain ⟨rfl, args, atRest, rfl⟩ := ran
        obtain ⟨casts, tys', brought, grows, nodes, size, types', oneKind⟩ := ih tail (Prod.ext rfl atRest)
        obtain ⟨x, atV, typed⟩ := head
        exact ⟨casts, t :: tys', .same same brought, grows, nodes, size, .cons ⟨x, grows.vars atV, typed⟩ types',
          List.forall_mem_cons.mpr ⟨same, oneKind⟩⟩
      · simp only [castArgs, same, ↓reduceIte] at ran
        split at ran
        · cases ran
        rename_i grown c pushed
        simp only [Prod.mk.injEq, map_eq_ok] at ran
        obtain ⟨rfl, args, atRest, rfl⟩ := ran
        obtain ⟨tysV, ty, typesV, inferred, rfl, rfl⟩ := push_eq_ok.mp pushed
        have grew := grown_grows g (.cast kind) [v] ty none none
        obtain ⟨casts, tys', brought, grows, nodes, size, types', oneKind⟩ :=
          ih (grew.types tail) (Prod.ext rfl atRest)
        have retyped : ty.kind = kind := by
          obtain ⟨first, rest, -, -, -, -, -, kind, -⟩ := Op.infer_eq_ok.mp inferred
          exact kind
        refine ⟨⟨g.nodes.size, .cast kind, [v], g.vars.size, none, none⟩ :: casts, ty.placed none :: tys',
          .cast same rfl rfl brought, grew.trans grows, ?_, ?_, ?_, List.forall_mem_cons.mpr ⟨retyped, oneKind⟩⟩
        · rw [nodes]
          simp
        · rw [size]
          simp
          omega
        · exact .cons ⟨_, grows.vars Array.getElem?_push_size, rfl⟩ types'

/-- An operation that was added is computed in the kind that its operands decide, behind the casts that it needs. -/
theorem apply_adds {op : Op} {inputs : List VarId} {g' : Graph} {v : VarId}
    (ran : g.apply op inputs = (g', .ok v)) : g.Added op inputs g' v := by
  have adds {tys : List Ty} (types : g.Types inputs tys) (count : inputs.length = op.arity)
      (changes : ∀ t ∈ tys, op ≠ .cast t.kind) (ran : apply.add g op inputs tys = (g', .ok v)) :
      g.Added op inputs g' v := by
    unfold apply.add at ran
    split at ran
    · cases ran
    rename_i kind chosen
    split at ran
    · cases ran
    rename_i between args cast
    split at ran
    · cases ran
    rename_i grown u pushed
    cases ran
    obtain ⟨casts, tys', brought, grows, nodes, size, types', oneKind⟩ := castArgs_brings types cast
    obtain ⟨-, ty, -, -, rfl, rfl⟩ := push_eq_ok.mp pushed
    have grew := grown_grows between op args ty none none
    refine .computed (n := ⟨between.nodes.size, op, args, between.vars.size, none, none⟩) (tys_eq_ok.mpr types) changes
      (computes_of_operandKind (types.length_eq ▸ count) chosen) brought (grows.trans grew) ?_ ?_ ⟨rfl, rfl⟩
      (tys_eq_ok.mpr (grew.types types')) oneKind
    · simp [nodes]
    · simp [size]
  unfold Graph.apply at ran
  split at ran
  · cases ran
  rename_i tys typed
  obtain ⟨types, count⟩ := operandTys_ok typed
  split at ran
  · rename_i k u us t ts
    obtain rfl : us = [] := by simpa [Op.arity] using count
    obtain rfl : ts = [] := by simpa using types.length_eq
    split at ran
    · rename_i same
      cases ran
      exact .kept (same ▸ rfl) rfl types.at
    · rename_i differ
      refine adds types count (fun u member equal => ?_) ran
      rw [List.mem_singleton.mp member] at equal
      exact differ (Op.cast.inj equal)
  · rename_i notCast
    refine adds types count (fun t member equal => ?_) ran
    -- A cast has one operand, and that case has gone its own way.
    subst equal
    obtain ⟨u, rfl⟩ := List.length_eq_one_iff.mp count
    cases types with
    | cons head tail => exact absurd rfl (notCast _ u [] _ _ rfl rfl)

end Operands

namespace Sound

variable {g : Graph} {scope : Scope}

theorem typedNode (sound : g.Sound (.fresh scope)) {i : NodeId} {n : Node} (at_ : g.nodes[i]? = some n) :
    g.TypedNode n := by
  obtain ⟨-, -, reads, tys, ty, x, types, inferred, atOutput, placed, none, -⟩ := sound.node at_
  obtain ⟨first, rest, -, -, sameKind, -, -, -, unplaced⟩ := Op.infer_eq_ok.mp inferred
  refine ⟨reads, tys, ty, first.kind, tys_eq_ok.mpr types, sameKind, inferred, ty_eq_ok.mpr ⟨x, atOutput, ?_⟩⟩
  rw [placed, none, Ty.placed, ← unplaced]

/-- What an operation feeds comes after it. -/
theorem lt_of_feeds {d : Discipline} (sound : g.Sound d) {i j : NodeId} (feeds : g.Feeds i j) : i < j := by
  obtain ⟨m, n, atI, atJ, reads⟩ := feeds
  have before := (sound.node atJ).reads _ reads
  rcases Nat.lt_trichotomy i j with early | same | late
  · exact early
  · subst same
    cases atI.symm.trans atJ
    exact absurd before (Nat.lt_irrefl _)
  · exact absurd before (Nat.lt_asymm (sound.ordered atJ atI late))

theorem acyclic {d : Discipline} (sound : g.Sound d) (i : NodeId) : ¬ Relation.TransGen g.Feeds i i := by
  have rises {i j : NodeId} (path : Relation.TransGen g.Feeds i j) : i < j := by
    induction path with
    | single feeds => exact sound.lt_of_feeds feeds
    | tail _ feeds ih => exact Nat.lt_trans ih (sound.lt_of_feeds feeds)
  intro path
  exact Nat.lt_irrefl i (rises path)

end Sound

/-- Graphs are well formed and typed by construction: they pass their check and have no cycle, the operands of each
operation share a kind, and what is added is computed in the kind that the operands decide. -/
theorem Built.well_formed {g : Graph} (built : g.Built) :
    g.validate = .ok () ∧ (∀ i, ¬ Relation.TransGen g.Feeds i i) ∧ (∀ n ∈ g.nodes, g.TypedNode n) ∧
      ∀ op inputs g' v, g.apply op inputs = (g', .ok v) → g.Added op inputs g' v := by
  refine ⟨built.sound.validate, built.sound.acyclic, fun n member => ?_, fun op inputs g' v => apply_adds⟩
  obtain ⟨i, at_⟩ := Array.mem_iff_getElem?.mp member
  exact built.sound.typedNode at_

/-- The sum of an integer and a float input. -/
def mixedSum : Graph :=
  let inputs := (((empty .f32).input { kind := .i32, rank := 1 } none).1.input { kind := .f32, rank := 0 } none).1
  (inputs.apply (.binary .add) [0, 1]).1

theorem Built.well_formed_mixedSum :
    mixedSum.nodes.size = 3 ∧ mixedSum.validate = .ok () ∧ (∀ n ∈ mixedSum.nodes, mixedSum.TypedNode n) ∧
      mixedSum.Added (.unary .exp) [0] (mixedSum.apply (.unary .exp) [0]).1 6 := by
  have built : mixedSum.Built := ((Built.empty .f32).input _ none).input _ none |>.apply _ _
  obtain ⟨passes, -, typed, adds⟩ := built.well_formed
  exact ⟨rfl, passes, typed, adds _ _ _ _ rfl⟩

end Graph

end TensorGraph
