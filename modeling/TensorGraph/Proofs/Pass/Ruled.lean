import TensorGraph.Proofs.Pass.Pipeline

/-! What the passes keep of every program, placed or not, marked or not: a rule about which operations stand where,
and the types of what the program takes, gives and updates. Values play no part here, so neither does anything that
values depend on. -/
namespace TensorGraph

open Checked

-- Where the product of blocks plays no part, any one serves for the lemmas that ask for it.
open scoped BlockRoutine

/-- A rule about which operations stand where. Marks are on operands, and nothing else is asked. -/
def Discipline.ruled (rule : Op → Place → Prop) (typed : Prop) : Discipline where
  op op tys place mark := rule op place ∧ ∀ i, mark = some i → i < tys.length
  leaf _ := True
  cell _ := True
  typed := typed

theorem Discipline.congruent_ruled (rule : Op → Place → Prop) (typed : Prop) : (Discipline.ruled rule typed).Congruent := by
  rintro op tys tys' place mark ⟨here, marks⟩ alike -
  exact ⟨here, fun i marked => alike.length_eq ▸ marks i marked⟩

/-- Any operation may stand anywhere. -/
def anywhere : Op → Place → Prop := fun _ _ => True

/-- A rule that the passes keep that place nothing: tables are at hand wherever an operation stands, a layout
operation may stand where a transfer leads, and a fused one where one stands that can be fused. -/
structure Context.Keeps (c : Context) (rule : Op → Place → Prop) (fails : Prop) : Prop where
  table : ∀ {op : Op} {l : Location}, rule op (some l) → (∃ t, c.table l = .ok t) ∨ fails
  layout : ∀ {op move : Op} {l : Location}, op.isLayout → move.isTransfer → rule move (some l) → rule op (some l)
  fused : ∀ {op : Op} {place : Place} (e : Expr), op.isFusable → rule op place → rule (.fused e) place

theorem Context.Keeps.mono {c : Context} {rule : Op → Place → Prop} {fails fails' : Prop} (keeps : c.Keeps rule fails)
    (implies : fails → fails') : c.Keeps rule fails' :=
  { keeps with table := fun held => (keeps.table held).imp_right implies }

/-- Where a pass may fail, every operation may stand anywhere. -/
theorem Context.keeps_anywhere (c : Context) : c.Keeps anywhere True where
  table _ := .inr trivial
  layout _ _ _ := trivial
  fused _ _ _ := trivial

namespace Program

/-- The second program obeys a rule and has the interface of the first one. -/
structure Follows (p q : Program) (rule : Op → Place → Prop) (typed : Prop) : Prop where
  valid : q.Valid (.ruled rule typed)
  types : typed → p.SameTypes q
  targets : (p.updates.map Prod.fst).Nodup → (q.updates.map Prod.fst).Nodup

theorem Follows.refl {p : Program} {rule : Op → Place → Prop} {typed : Prop} (valid : p.Valid (.ruled rule typed)) :
    p.Follows p rule typed := ⟨valid, fun _ => .refl p, id⟩

theorem Follows.trans {p q r : Program} {rule rule' : Op → Place → Prop} {typed : Prop}
    (first : p.Follows q rule typed) (second : q.Follows r rule' typed) : p.Follows r rule' typed :=
  ⟨second.valid, fun held => (first.types held).trans (second.types held), second.targets ∘ first.targets⟩

theorem Rebuilt.follows [BlockRoutine] {p q : Program} {rule : Op → Place → Prop} {typed : Prop} {s : Stage}
    (rebuilt : p.Rebuilt q (.ruled rule typed) s) (asked : typed → s.typed) : p.Follows q rule typed :=
  ⟨rebuilt.valid, fun held => rebuilt.types (asked held), rebuilt.targets⟩

end Program

section Passes

variable {c : Context} {p : Program} {rule rule' : Op → Place → Prop} {typed fails : Prop}

theorem Canonical.accepts_ruled (rule : Op → Place → Prop) (typed : Prop) :
    Accepts (.ruled rule typed) (.ruled rule typed) typed where
  leaf _ := id
  constant _ := trivial
  asked held := ⟨held, held⟩
  op := by
    rintro op tys tys' place mark ⟨here, marks⟩ length -
    exact ⟨here, fun i marked => length ▸ marks i marked⟩

theorem Canonical.run_follows (valid : p.Valid (.ruled rule typed)) (results : typed → c.kernels.Typed)
    (failing : ¬ (typed ∧ c.kernels.WellTyped) → fails) :
    match Canonical.run c p with
    | .ok q => p.Follows q rule typed
    | .error e => fails ∨ e = .crash ∧ p.Overflows := by
  have met : match Canonical.run c p with
      | .ok q => p.Rebuilt q (.ruled rule typed) (p.stage {} [] #[] False typed False False)
      | .error e => fails ∨ e = .crash ∧ p.Overflows :=
    rebuild_meets valid (accepts_ruled rule typed) False.elim False.elim results (fun bad _ => .inl (failing bad))
      fun overflow => .inr ⟨rfl, overflow⟩
  revert met
  cases Canonical.run c p with
  | error e => exact id
  | ok q => exact fun rebuilt => rebuilt.follows id

/-- Placement leads to a rule that its transfers and its choices obey. -/
theorem Placement.settles_ruled {chosen : Location → Prop} (known : ∀ l, chosen l → l = .host ∨ l = c.target)
    (transfer : ∀ {dest : Location}, dest = .host ∨ dest = c.target → rule' (.transferTo dest) (some dest))
    (computes : ∀ {op : Op} {l : Location}, ¬ op.isTransfer → chosen l → rule' op (some l)) :
    Settles c (.ruled rule typed) (.ruled rule' typed) chosen False where
  leaf _ := id
  asked := id
  known := known
  transfer leads := ⟨transfer leads, fun i none => by cases none⟩
  op := by
    rintro op tys tys' place mark l ⟨-, marks⟩ stays held alike -
    exact ⟨computes stays held, fun i marked => alike.length_eq ▸ marks i marked⟩
  placed moves := moves.elim

theorem Placement.hosts_ruled (rule : Op → Place → Prop) (typed : Prop) :
    Hosts (.ruled rule typed) (.ruled rule typed) where
  op := by
    rintro op tys tys' place mark ⟨here, marks⟩ alike
    exact ⟨here, fun i marked => alike.length_eq ▸ marks i marked⟩
  leaf _ := trivial
  cell _ := id
  asked := id

theorem Placement.run_follows {chosen : Location → Prop} (known : ∀ l, chosen l → l = .host ∨ l = c.target)
    (transfer : ∀ {dest : Location}, dest = .host ∨ dest = c.target → rule' (.transferTo dest) (some dest))
    (computes : ∀ {op : Op} {l : Location}, ¬ op.isTransfer → chosen l → rule' op (some l))
    (valid : p.Valid (.ruled rule typed))
    (choice : ∀ n ∈ p.liveNodes, ¬ n.op.isTransfer → match choose c (hostLeaves p).graph n with
      | .ok l => chosen l
      | .error _ => fails) :
    match Placement.run c p with
    | .ok q => p.Follows q rule' typed
    | .error _ => fails := by
  have hosted := hostLeaves_valid (hosts_ruled rule typed) valid
  have met : match (hostLeaves p).rebuild (step c (hostLeaves p)) with
      | .ok q => (hostLeaves p).Rebuilt q (.ruled rule' typed)
          ((hostLeaves p).stage {} [] #[] False True False False)
      | .error _ => fails :=
    rebuild_meets hosted (settles_ruled known transfer computes) choice
  have first : p.Follows (hostLeaves p) rule typed := ⟨hosted, fun _ => hostLeaves_sameTypes, id⟩
  unfold Placement.run
  revert met
  cases (hostLeaves p).rebuild (step c (hostLeaves p)) with
  | error e => exact id
  | ok q => exact fun rebuilt => first.trans (rebuilt.follows fun _ => trivial)

/-- Placement leads to every rule that its transfers and whatever it may choose obey. It fails where there is no
choice. -/
theorem Placement.run_reaches (transfer : ∀ {dest : Location}, c.Reaches dest → rule' (.transferTo dest) (some dest))
    (computes : ∀ {op : Op} {l : Location}, ¬ op.isTransfer → c.Reaches l → rule' op (some l))
    (valid : p.Valid (.ruled rule typed))
    (failing : ∀ n ∈ p.liveNodes, ¬ n.op.isTransfer → ∀ e, choose c (hostLeaves p).graph n = .error e → fails) :
    match Placement.run c p with
    | .ok q => p.Follows q rule' typed
    | .error _ => fails := by
  refine run_follows (fun _ reaches => reaches) transfer computes valid fun n live stays => ?_
  cases chosen : choose c (hostLeaves p).graph n with
  | ok l => exact reaches_of_choose chosen
  | error e => exact failing n live stays e chosen

theorem Context.Keeps.tabled (keeps : c.Keeps rule fails) (valid : p.Valid (.ruled rule typed)) : p.Tabled c fails := by
  intro n live l place
  obtain ⟨tys, ty, x, known⟩ := valid.operation live
  exact keeps.table (place ▸ known.rule.1)

theorem Transfers.sheds_ruled (keeps : c.Keeps rule fails) (typed : Prop) : Sheds (.ruled rule typed) where
  congruent := Discipline.congruent_ruled rule typed
  again _ held _ := ⟨held.1, fun i none => by cases none⟩
  layout layout _ moves leads _ _ := ⟨keeps.layout layout moves leads.1, fun i none => by cases none⟩

theorem Transfers.run_follows (keeps : c.Keeps rule fails) (valid : p.Valid (.ruled rule typed)) :
    match Transfers.run c p with
    | .ok q => p.Follows q rule typed
    | .error _ => fails := by
  refine run_keeps (fun q follows => ?_) (.refl valid)
  have swept := sweep_meets (sheds_ruled keeps typed) follows.valid (keeps.tabled follows.valid) {} [] #[]
  cases result : sweep c q with
  | error e =>
    rw [result] at swept
    exact swept
  | ok q' =>
    rw [result] at swept
    obtain ⟨q₁, rebuilt, pruned⟩ := swept
    exact (follows.trans (rebuilt.follows fun _ => trivial)).trans (pruned.follows fun _ => trivial)

theorem Fusion.fuses_ruled (keeps : c.Keeps rule fails) (typed : Prop) :
    Fuses (.ruled rule typed) (.ruled rule typed) where
  leaf _ := id
  asked := id
  copied held alike places := Discipline.congruent_ruled rule typed held alike places
  fused e fusable held _ := ⟨keeps.fused e fusable held.1, fun i none => by cases none⟩

theorem Fusion.run_follows (keeps : c.Keeps rule fails) (valid : p.Valid (.ruled rule typed)) :
    match Fusion.run c p with
    | .ok q => p.Follows q rule typed
    | .error _ => fails := by
  have met : match Fusion.run c p with
      | .ok q => p.Rebuilt q (.ruled rule typed) (p.stage {} [] #[] False True True True)
      | .error _ => fails := rebuild_meets (fuses_ruled keeps typed) valid (keeps.tabled valid) False.elim
  revert met
  cases Fusion.run c p with
  | error e => exact id
  | ok q => exact fun rebuilt => rebuilt.follows fun _ => trivial

/-- A mark is on an operand. -/
theorem InPlace.target?_inRange {d : Discipline} (valid : p.Valid d) (tabled : p.Tabled c fails) (order : List Node)
    {n : Node} (live : n ∈ p.liveNodes) :
    match target? c p order n with
    | .ok mark => ∀ i, mark = some i → i < n.inputs.length
    | .error _ => fails := by
  obtain ⟨tys, ty, x, known⟩ := valid.operation live
  unfold target?
  by_cases skips : n.op.isTransfer || n.op.capability != .elementwise
  · simp [skips]
  simp only [skips]
  cases place : n.place with
  | none => exact fun i none => by cases none
  | some l =>
    simp only
    cases table : c.table l with
    | error e =>
      rcases tabled n live l place with ⟨t, found⟩ | failed
      · cases table.symm.trans found
      · exact failed
    | ok t =>
      simp only [ok_bind]
      by_cases unsupported : !t.supportsInPlace .elementwise
      · rw [if_pos unsupported]
        exact fun i none => by cases none
      rw [if_neg unsupported, Graph.ty_eq_ok.mpr ⟨x, known.atOutput, rfl⟩, ok_bind]
      intro i found
      exact (List.findIdx?_eq_some_iff_getElem.mp found).1

theorem InPlace.run_follows (keeps : c.Keeps rule fails) (valid : p.Valid (.ruled rule typed)) :
    match InPlace.run c p with
    | .ok q => p.Follows q rule typed
    | .error _ => fails := by
  have met : match p.rebuild (p.marked (target? c p p.liveNodes)) with
      | .ok q => p.Rebuilt q (.ruled rule typed) (p.stage {} [] #[] False True True True)
      | .error _ => fails := by
    refine Program.marked_meets valid (fun _ => id) id (fun n live tys ty x known => ?_) {} [] #[] False
    have spec := target?_inRange valid (keeps.tabled valid) p.liveNodes live
    cases target : target? c p p.liveNodes n with
    | error e =>
      rw [target] at spec
      exact spec
    | ok mark =>
      rw [target] at spec
      intro tys' alike _
      refine ⟨known.rule.1, fun i marked => ?_⟩
      rw [← alike.length_eq, ← known.types.length_eq]
      exact spec i marked
  unfold InPlace.run
  rw [valid.order_eq, ok_bind]
  have same : p.rebuild (step c p p.liveNodes) = p.rebuild (p.marked (target? c p p.liveNodes)) := rfl
  rw [same]
  revert met
  cases p.rebuild (p.marked (target? c p p.liveNodes)) with
  | error e => exact id
  | ok q => exact fun rebuilt => rebuilt.follows fun _ => trivial

theorem Program.prune_follows (valid : p.Valid (.ruled rule typed)) :
    match p.prune with
    | .ok q => p.Follows q rule typed
    | .error _ => fails := by
  have met := Program.prune_meets valid (Discipline.congruent_ruled rule typed) {} [] #[] False
  revert met
  cases p.prune with
  | error e => exact False.elim
  | ok q => exact fun pruned => pruned.1.follows fun _ => trivial

/-- A pass that places nothing keeps the rule and the interface. It fails only with kernels that are not well typed or
without a table, or because sizes overflow where constants are folded. -/
theorem PassName.run_follows (keeps : c.Keeps rule fails) (results : typed → c.kernels.Typed)
    (failing : ¬ (typed ∧ c.kernels.WellTyped) → fails) {pass : PassName} (other : pass ≠ .placement)
    (valid : p.Valid (.ruled rule typed)) :
    match pass.run c p with
    | .ok q => p.Follows q rule typed
    | .error e => fails ∨ pass = .canonicalize ∧ e = .crash ∧ p.Overflows := by
  suffices follows : pass ≠ .canonicalize → match pass.run c p with
      | .ok q => p.Follows q rule typed
      | .error _ => fails by
    by_cases folds : pass = .canonicalize
    · subst folds
      have met := Canonical.run_follows valid results failing
      unfold run
      cases ran : Canonical.run c p with
      | error e =>
        rw [ran] at met
        exact met.imp_right fun overflow => ⟨rfl, overflow⟩
      | ok q =>
        rw [ran] at met
        exact met
    · have met := follows folds
      cases ran : pass.run c p with
      | error e =>
        rw [ran] at met
        exact .inl met
      | ok q =>
        rw [ran] at met
        exact met
  intro bare
  cases pass with
  | canonicalize => exact absurd rfl bare
  | placement => exact absurd rfl other
  | transfer => exact Transfers.run_follows keeps valid
  | fusion => exact Fusion.run_follows keeps valid
  | inplace => exact InPlace.run_follows keeps valid
  | dce => exact Program.prune_follows valid

namespace Program

/-- Passes that place and fold nothing keep the rule and the interface. -/
theorem others_follow (keeps : c.Keeps rule fails) (results : typed → c.kernels.Typed)
    (failing : ¬ (typed ∧ c.kernels.WellTyped) → fails) {passes : List PassName} (others : .placement ∉ passes)
    (unfolded : .canonicalize ∉ passes) (valid : p.Valid (.ruled rule typed)) :
    p.PassesMeet c passes (fun _ => fails) fun q => p.Follows q rule typed := by
  induction passes generalizing p with
  | nil => exact passesMeet_nil.mpr (.refl valid)
  | cons pass passes ih =>
    obtain ⟨other, rest⟩ := not_or.mp (List.mem_cons.not.mp others)
    obtain ⟨bare, bareRest⟩ := not_or.mp (List.mem_cons.not.mp unfolded)
    have one := PassName.run_follows keeps results failing (Ne.symm other) valid
    rw [passesMeet_cons]
    cases ran : pass.run c p with
    | error e =>
      rw [ran] at one
      exact one.resolve_right fun folds => bare folds.1.symm
    | ok next =>
      rw [ran] at one
      exact (ih rest bareRest one.valid).mono fun q later => one.trans later

/-- One pass, and then the others. -/
theorem runPasses_cons_meets {refused : Error → Prop} (stage : Program → Prop) {post : Program → Prop}
    {pass : PassName} {passes : List PassName} (one : match pass.run c p with
      | .ok q => stage q
      | .error e => refused e)
    (others : ∀ q, stage q → match q.runPasses c passes with
      | .ok (q', _) => post q'
      | .error e => refused e) :
    match p.runPasses c (pass :: passes) with
    | .ok (q, _) => post q
    | .error e => refused e := by
  rw [runPasses]
  cases ran : pass.run c p with
  | error e =>
    rw [ran] at one
    exact one
  | ok next =>
    rw [ran] at one
    have later := others next one
    rw [ok_bind]
    cases rest : next.runPasses c passes with
    | error e =>
      rw [rest] at later
      exact later
    | ok result =>
      rw [rest] at later
      exact later

section Compilation

variable {refused : Error → Prop} (keeps : c.Keeps rule fails) (results : typed → c.kernels.Typed)
  (failing : ¬ (typed ∧ c.kernels.WellTyped) → fails)
  (places : ∀ q : Program, q.Valid (.ruled anywhere typed) → match Placement.run c q with
    | .ok q' => q.Follows q' rule typed
    | .error e => refused e)

include keeps results failing places

/-- Placement leads to the rule, and the passes after it keep it. -/
theorem lowered_follow {keep : PassName → Bool} (placed : keep .placement) {q : Program}
    (follows : p.Follows q anywhere typed) :
    match q.runPasses c ([.placement, .transfer, .fusion, .inplace, .dce].filter keep) with
    | .ok (q', _) => p.Follows q' rule typed
    | .error e => refused e ∨ fails := by
  rw [List.filter_cons_of_pos placed]
  apply runPasses_cons_meets (fun q' => p.Follows q' rule typed)
  · have one := places q follows.valid
    unfold PassName.run
    cases ran : Placement.run c q with
    | error e =>
      rw [ran] at one
      exact .inl one
    | ok q' =>
      rw [ran] at one
      exact follows.trans one
  · intro q' follows'
    have met : q'.PassesMeet c ([.transfer, .fusion, .inplace, .dce].filter keep) (fun _ => fails) fun r =>
        q'.Follows r rule typed :=
      others_follow keeps results failing (fun member => by simpa using List.mem_of_mem_filter member)
        (fun member => by simpa using List.mem_of_mem_filter member) follows'.valid
    unfold PassesMeet at met
    cases ran : q'.runPasses c ([.transfer, .fusion, .inplace, .dce].filter keep) with
    | error e =>
      rw [ran] at met
      exact .inr met
    | ok result =>
      rw [ran] at met
      exact follows'.trans met

/-- A compilation leads to the rule. It is refused as placement refuses what it is given, or breaks off where sizes of
constants overflow. -/
theorem passes_follow (valid : p.Valid (.ruled anywhere typed)) {passes : List PassName}
    (standard : c.config.passes = .ok passes) :
    match p.runPasses c passes with
    | .ok (q, _) => p.Follows q rule typed
    | .error e => (refused e ∨ fails) ∨ e = .crash ∧ p.Overflows := by
  obtain ⟨rfl, placed⟩ := PassName.standard_ok standard
  have placed : (fun pass : PassName => !c.config.excluded.contains pass.name) .placement := by
    simpa [PassName.name] using placed
  revert placed
  generalize (fun pass : PassName => !c.config.excluded.contains pass.name) = keep
  intro placed
  have lowered : ∀ q : Program, p.Follows q anywhere typed →
      match q.runPasses c ([.placement, .transfer, .fusion, .inplace, .dce].filter keep) with
      | .ok (q', _) => p.Follows q' rule typed
      | .error e => (refused e ∨ fails) ∨ e = .crash ∧ p.Overflows := by
    intro q follows
    have met := lowered_follow keeps results failing places placed follows
    revert met
    cases q.runPasses c ([.placement, .transfer, .fusion, .inplace, .dce].filter keep) with
    | error e => exact .inl
    | ok result => exact id
  unfold PassName.all
  by_cases canonical : keep .canonicalize
  · rw [List.filter_cons_of_pos canonical]
    apply runPasses_cons_meets (fun q => p.Follows q anywhere typed) _ lowered
    have one : match Canonical.run c p with
        | .ok q => p.Follows q anywhere typed
        | .error e => fails ∨ e = .crash ∧ p.Overflows := Canonical.run_follows valid results failing
    unfold PassName.run
    cases ran : Canonical.run c p with
    | error e =>
      rw [ran] at one
      exact one.imp_left .inr
    | ok q =>
      rw [ran] at one
      exact one
  · rw [List.filter_cons_of_neg canonical]
    exact lowered p (.refl valid)

end Compilation

end Program

end Passes

end TensorGraph
