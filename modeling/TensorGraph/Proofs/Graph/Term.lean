import TensorGraph.Proofs.Graph.Sound

/-! The expression tree of a variable, down to the leaves, and when two trees are the same expression: operands of
commutative functions may be exchanged and double negations dropped, at any depth. -/
namespace TensorGraph

/-- An expression over the leaves of a graph. -/
inductive Term where
  | leaf (v : VarId)
  | node (op : Op) (args : List Term)

namespace Term

variable {α : Type}

/-- What a term stands for, once this is known of leaves and of operations. -/
def eval (leaf : VarId → α) (node : Op → List α → α) : Term → α
  | .leaf v => leaf v
  | .node op args => node op (args.map (eval leaf node))

/-- Two terms are one expression, up to the order of the operands of commutative functions and up to double negations,
anywhere within. -/
inductive Same : Term → Term → Prop where
  | refl (t : Term) : Same t t
  | symm {t u : Term} (same : Same t u) : Same u t
  | trans {t u v : Term} (first : Same t u) (second : Same u v) : Same t v
  | within (op : Op) (before after : List Term) {t u : Term} (same : Same t u) :
      Same (.node op (before ++ t :: after)) (.node op (before ++ u :: after))
  | exchange {f : Binary} (commutes : f.isCommutative) (t u : Term) :
      Same (.node (.binary f) [t, u]) (.node (.binary f) [u, t])
  | cancel (t : Term) : Same (.node (.unary .neg) [.node (.unary .neg) [t]]) t

/-- One expression stands for one thing, wherever operands may be exchanged and negations cancel. -/
theorem Same.eval_eq {leaf : VarId → α} {node : Op → List α → α} {t u : Term} (same : t.Same u)
    (exchanges : ∀ f : Binary, f.isCommutative → ∀ a b, node (.binary f) [a, b] = node (.binary f) [b, a])
    (cancels : ∀ a, node (.unary .neg) [node (.unary .neg) [a]] = a) : t.eval leaf node = u.eval leaf node := by
  induction same with
  | refl t => rfl
  | symm _ ih => exact ih.symm
  | trans _ _ first second => exact first.trans second
  | within op before after _ ih => simp only [eval, List.map_append, List.map_cons, ih]
  | exchange commutes t u => simp only [eval, List.map_cons, List.map_nil, exchanges _ commutes]
  | cancel t => simp only [eval, List.map_cons, List.map_nil, cancels]

end Term

namespace Graph

/-- The expression that a variable is computed by. -/
def term (g : Graph) (v : VarId) : Term :=
  match g.producer? v with
  | none => .leaf v
  | some n => .node n.op (n.inputs.map fun u => if _ : u < v then g.term u else .leaf u)
termination_by v

variable {g : Graph} {d : Discipline}

theorem term_leaf {v : VarId} {x : Var} (atV : g.vars[v]? = some x) (isLeaf : x.isLeaf) : g.term v = .leaf v := by
  have unmade : g.producer? v = none := by
    cases produced : g.producer? v with
    | none => rfl
    | some n =>
      obtain ⟨y, i, atY, origin, -⟩ := producer?_eq_some.mp produced
      obtain rfl : x = y := Option.some.inj (atV.symm.trans atY)
      simp [Var.isLeaf, origin] at isLeaf
  rw [term, unmade]

theorem Sound.term_output (sound : g.Sound d) {i : NodeId} {n : Node} (at_ : g.nodes[i]? = some n) :
    g.term n.output = .node n.op (n.inputs.map g.term) := by
  rw [term, sound.producer?_output at_]
  refine congrArg (Term.node n.op) (List.map_congr_left fun u reads => ?_)
  exact dif_pos ((sound.node at_).reads u reads)

end Graph

end TensorGraph
