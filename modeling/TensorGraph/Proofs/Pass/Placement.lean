import TensorGraph.Pass.Placement
import TensorGraph.Proofs.Pass.Copied

/-! Placement keeps types and values, and puts every operation where its operands are. -/
namespace TensorGraph

open Checked Rebuilding

/-- What placement leads to: operations are on the host or on the target, leaves on the host, and only
transfers read what lives elsewhere. -/
def Discipline.placed (target : Location) (scope : Scope) : Discipline where
  op op tys place mark := mark = none ∧ ∃ l, place = some l ∧ (l = .host ∨ l = target) ∧
    (op.isTransfer → op = .transferTo l) ∧
    (¬ op.isTransfer → ∀ t ∈ tys, t.place = some l ∧ scope.Allows op t.kind)
  leaf ty := ty.place = some .host
  cell := scope.cell
  typed := scope.typed

/-- The rule asks for kinds and places only. -/
theorem Discipline.congruent_placed (target : Location) (scope : Scope) :
    (Discipline.placed target scope).Congruent := by
  rintro op tys tys' place mark ⟨unmarked, l, here, known, transfers, allowed⟩ alike places
  refine ⟨unmarked, l, here, known, transfers, fun computes t' member => ?_⟩
  obtain ⟨i, inTys', rfl⟩ := List.mem_iff_getElem.mp member
  have inTys : i < tys.length := by rwa [alike.length_eq]
  have kind : tys[i].kind = tys'[i].kind := (alike.get inTys inTys').1
  have place : tys'[i].place = tys[i].place := places.get inTys inTys'
  rw [← kind, place]
  exact allowed computes _ (List.getElem_mem inTys)

/-- What is placed next: operations have no place yet, and leaves are on the host. -/
def Discipline.hosted (scope : Scope) : Discipline :=
  { Discipline.fresh scope with leaf := fun ty => ty.place = some .host }

/-- The locations that placement may choose. -/
def Context.Reaches (c : Context) (l : Location) : Prop := l = .host ∨ l = c.target

/-- Where an operation may stand once it is placed. -/
def Context.settled (c : Context) : Op → Place → Prop := fun _ place => ∃ l, place = some l ∧ c.Reaches l

variable [BlockRoutine]

/-- A context without accelerator, with the table and the kernels that the host comes with. -/
structure Context.Plain (c : Context) : Prop where
  accelerator : c.accelerator = none
  table : c.hostTable = .host
  kernels : c.kernels = .host

theorem Context.Plain.target {c : Context} (plain : c.Plain) : c.target = .host := by
  simp [Context.target, Context.targetDevice, plain.accelerator, Device.location]

namespace Graph

omit [BlockRoutine] in
/-- Every variable has a place on the host or on the target. -/
theorem Sound.placed {g : Graph} {target : Location} {scope : Scope}
    (sound : g.Sound (.placed target scope)) {v : VarId} {x : Var} (atV : g.vars[v]? = some x) :
    ∃ l, x.ty.place = some l ∧ (l = .host ∨ l = target) := by
  rcases sound.leaf_or_output atV with isLeaf | ⟨i, n, at_, rfl⟩
  · have fits := sound.leaf atV
    refine ⟨.host, ?_, .inl rfl⟩
    cases origin : x.origin with
    | output i => simp [Var.isLeaf, origin] at isLeaf
    | input =>
      rw [Var.Fits, origin] at fits
      exact fits
    | constant t =>
      rw [Var.Fits, origin] at fits
      exact fits.1
    | shared c =>
      rw [Var.Fits, origin] at fits
      exact fits.1
  · obtain ⟨-, -, -, tys, ty, y, -, -, atOutput, placed, -, l, place, known, -⟩ := sound.node at_
    obtain rfl : x = y := Option.some.inj (atV.symm.trans atOutput)
    exact ⟨l, by rw [placed, ← place]; rfl, known⟩

end Graph

namespace Placement

section HostLeaves

variable {p : Program} {scope : Scope}

/-- A leaf goes to the host. -/
def hosted (x : Var) : Var := if x.isLeaf then { x with ty := x.ty.placed (some .host) } else x

omit [BlockRoutine] in
theorem hosted_origin (x : Var) : (hosted x).origin = x.origin := by
  unfold hosted
  split <;> rfl

omit [BlockRoutine] in
theorem hosted_alike (x : Var) : x.ty.Alike (hosted x).ty := by
  unfold hosted
  split <;> exact ⟨rfl, rfl⟩

omit [BlockRoutine] in
theorem hostLeaves_at {v : VarId} : (hostLeaves p).graph.vars[v]? = p.graph.vars[v]?.map hosted := by
  simp only [hostLeaves, Array.getElem?_map]
  rfl

omit [BlockRoutine] in
theorem hostLeaves_some {v : VarId} {y : Var} (atV : (hostLeaves p).graph.vars[v]? = some y) :
    ∃ x, p.graph.vars[v]? = some x ∧ hosted x = y := by
  rw [hostLeaves_at] at atV
  exact Option.map_eq_some_iff.mp atV

omit [BlockRoutine] in
theorem hostLeaves_of {v : VarId} {x : Var} (atV : p.graph.vars[v]? = some x) :
    (hostLeaves p).graph.vars[v]? = some (hosted x) := by
  rw [hostLeaves_at, atV]
  rfl

omit [BlockRoutine] in
theorem hostLeaves_types {vs : List VarId} {tys : List Ty} (types : p.graph.Types vs tys) :
    ∃ tys', (hostLeaves p).graph.Types vs tys' ∧ List.Forall₂ Ty.Alike tys tys' := by
  induction types with
  | nil => exact ⟨[], .nil, .nil⟩
  | cons head _ ih =>
    obtain ⟨x, atV, rfl⟩ := head
    obtain ⟨tys', types', alike⟩ := ih
    exact ⟨_, .cons ⟨_, hostLeaves_of atV, rfl⟩ types', .cons (hosted_alike x) alike⟩

variable {d d' : Discipline}

/-- Rules that still hold when the leaves are on the host. -/
structure Hosts (d d' : Discipline) : Prop where
  op : ∀ {op : Op} {tys tys' : List Ty} {place : Place} {mark : Option Nat}, d.op op tys place mark →
    List.Forall₂ Ty.Alike tys tys' → d'.op op tys' place mark
  leaf : ∀ ty : Ty, d'.leaf (ty.placed (some .host))
  cell : ∀ c, d.cell c → d'.cell c
  asked : d'.typed → d.typed

omit [BlockRoutine] in
theorem hostLeaves_sound (hosts : Hosts d d') (sound : p.graph.Sound d) : (hostLeaves p).graph.Sound d' where
  node {i n} at_ := by
    obtain ⟨id, ⟨x, atOutput, origin⟩, reads, tys, ty, x', types, inferred, atOutput', placed, rule⟩ :=
      sound.node at_
    obtain rfl : x = x' := Option.some.inj (atOutput.symm.trans atOutput')
    have stays : hosted x = x := by simp [hosted, Var.isLeaf, origin]
    have atNew : (hostLeaves p).graph.vars[n.output]? = some x := by
      rw [hostLeaves_of atOutput, stays]
    obtain ⟨tys', types', alike⟩ := hostLeaves_types types
    exact ⟨id, ⟨x, atNew, origin⟩, reads, tys', ty, x, types', Op.infer_congr inferred alike, atNew,
      placed, hosts.op rule alike⟩
  produced {v y i} atV origin := by
    obtain ⟨x, atOld, rfl⟩ := hostLeaves_some atV
    exact sound.produced atOld ((hosted_origin x).symm.trans origin)
  ordered := sound.ordered
  leaf {v y} atV := by
    obtain ⟨x, atOld, rfl⟩ := hostLeaves_some atV
    have fits := sound.leaf atOld
    unfold Var.Fits at fits ⊢
    rw [hosted_origin]
    have leaf : x.isLeaf → d'.leaf (hosted x).ty := fun isLeaf => by
      simp only [hosted, isLeaf, ↓reduceIte]
      exact hosts.leaf x.ty
    cases origin : x.origin with
    | input => exact leaf (by simp [Var.isLeaf, origin])
    | constant t =>
      rw [origin] at fits
      have alike := hosted_alike x
      exact ⟨leaf (by simp [Var.isLeaf, origin]), fits.2.1.trans alike.1, fits.2.2.trans alike.2⟩
    | shared c =>
      rw [origin] at fits
      have alike := hosted_alike x
      exact ⟨leaf (by simp [Var.isLeaf, origin]), hosts.cell c fits.2.1, fits.2.2.1.trans alike.1,
        fits.2.2.2.trans alike.2⟩
    | output i => trivial

omit [BlockRoutine] in
theorem hostLeaves_valid (hosts : Hosts d d') (valid : p.Valid d) : (hostLeaves p).Valid d' where
  graph := hostLeaves_sound hosts valid.graph
  inputs v member := by
    obtain ⟨x, atV, origin⟩ := valid.inputs v member
    exact ⟨hosted x, hostLeaves_of atV, (hosted_origin x).trans origin⟩
  distinct := valid.distinct
  outputs v member := by
    have inRange := valid.outputs v member
    simpa [hostLeaves] using inRange
  updates u member := by
    obtain ⟨x, y, c, atTarget, atValue, origin, alike⟩ := valid.updates u member
    exact ⟨hosted x, hosted y, c, hostLeaves_of atTarget, hostLeaves_of atValue,
      (hosted_origin x).trans origin,
      fun typed => ((hosted_alike x).symm.trans (alike (hosts.asked typed))).trans (hosted_alike y)⟩
  bound {v y} wanted atV isInput := by
    obtain ⟨x, atOld, rfl⟩ := hostLeaves_some atV
    refine valid.bound wanted atOld ?_
    simpa [Var.isInput, hosted_origin] using isInput

omit [BlockRoutine] in
theorem hosts_fresh (scope : Scope) : Hosts (.fresh scope) (.hosted scope) where
  op := by
    rintro op tys tys' place mark ⟨bare, unmarked, each⟩ alike
    refine ⟨bare, unmarked, fun t' member => ?_⟩
    obtain ⟨t, inTys, same⟩ := partner_of alike member
    rw [← same.1]
    exact each t inTys
  leaf _ := rfl
  cell _ := id
  asked := id

theorem hostLeaves_value (math : Place → MathMode) (b : Binding) (v : VarId) :
    (hostLeaves p).graph.value math b v = p.graph.value math b v := by
  induction v using Nat.strong_induction_on with
  | _ v ih =>
    rw [Graph.value, hostLeaves_at, Graph.value]
    cases atV : p.graph.vars[v]? with
    | none => rfl
    | some x =>
      simp only [Option.map_some, hosted_origin]
      cases origin : x.origin with
      | output i =>
        have nodes : (hostLeaves p).graph.nodes = p.graph.nodes := rfl
        simp only [nodes]
        cases p.graph.nodes[i]? with
        | none => rfl
        | some n =>
          have operands : (n.inputs.mapM fun u =>
              if _ : u < v then (hostLeaves p).graph.value math b u else none) =
              n.inputs.mapM fun u => if _ : u < v then p.graph.value math b u else none := by
            refine mapM_congr fun u _ => ?_
            by_cases before : u < v
            · rw [dif_pos before, dif_pos before, ih u before]
            · rw [dif_neg before, dif_neg before]
          simp only [operands]
      | _ => rfl

omit [BlockRoutine] in
theorem hostLeaves_typeOf : (hostLeaves p).typeOf = p.typeOf := by
  funext v
  simp only [Program.typeOf, hostLeaves_at, Option.map_map]
  refine congrArg (fun f => p.graph.vars[v]?.map f) (funext fun x => ?_)
  have alike := hosted_alike x
  simp [alike.1, alike.2]

omit [BlockRoutine] in
theorem hostLeaves_cellOf : (hostLeaves p).cellOf = p.cellOf := by
  funext v
  simp only [Program.cellOf, hostLeaves_at]
  cases p.graph.vars[v]? with
  | none => rfl
  | some x => simp [Var.cell?, hosted_origin]

omit [BlockRoutine] in
theorem hostLeaves_sameTypes : p.SameTypes (hostLeaves p) := by
  constructor
  · rw [hostLeaves_typeOf]
    rfl
  · rw [hostLeaves_typeOf]
    rfl
  · rw [hostLeaves_typeOf, hostLeaves_cellOf]
    rfl

omit [BlockRoutine] in
theorem hostLeaves_sameInterface : p.SameInterface (hostLeaves p) := by
  constructor
  · rw [hostLeaves_typeOf]
    rfl
  · rfl
  · rw [hostLeaves_cellOf]
    rfl

end HostLeaves

section Step

variable {c : Context} {p : Program} {scope : Scope} {s : Stage} {fails : Prop} {r : Rebuild}

omit [BlockRoutine] in
theorem place_meets {v : VarId} {y : Var} (atV : r.graph.vars[v]? = some y) {post : Place → Rebuild → Prop} :
    (Rebuild.place v).Meets r (fun _ => fails) post ↔ post y.ty.place r := by
  have typed : r.graph.ty v = .ok y.ty := Graph.ty_eq_ok.mpr ⟨y, atV, rfl⟩
  rw [Rebuild.place, meets_bind, meets_get, meets_bind, typed]
  exact Iff.rfl

omit [BlockRoutine] in
theorem infer_transfer {op : Op} (moves : op.isTransfer) (t : Ty) :
    op.infer [t] = .ok { kind := t.kind, rank := t.rank } := by
  cases op with
  | toDevice n => rfl
  | toHost => rfl
  | _ => exact absurd moves Bool.false_ne_true

omit [BlockRoutine] in
theorem isTransfer_transferTo (dest : Location) : (Op.transferTo dest).isTransfer := by
  cases dest <;> rfl

omit [BlockRoutine] in
theorem transferTo_inj {l l' : Location} (same : Op.transferTo l = Op.transferTo l') : l = l' := by
  cases l <;> cases l' <;> simp_all [Op.transferTo]

/-- A transferred value is the value itself. -/
theorem value_moved {op : Op} (moves : op.isTransfer) (math : MathMode)
    (value : VarId → Option Tensor) (v : VarId) :
    (([v].mapM value).bind fun ts => (op.eval math ts).toOption) = value v := by
  cases atV : value v with
  | none => simp [atV]
  | some t => simp [atV, Op.eval_transfer moves, Kernel.item, Except.toOption]

/-- Rules that placement leads from and to, where operations may go to the locations in `chosen`. -/
structure Settles (c : Context) (d d' : Discipline) (chosen : Location → Prop) (moves : Prop) : Prop where
  leaf : ∀ x : Var, x.Fits d → x.Fits d'
  asked : d'.typed → d.typed
  known : ∀ l, chosen l → l = .host ∨ l = c.target
  transfer : ∀ {dest : Location} {t : Ty}, dest = .host ∨ dest = c.target →
    d'.op (.transferTo dest) [t] (some dest) none
  op : ∀ {op : Op} {tys tys' : List Ty} {place : Place} {mark : Option Nat} {l : Location}, d.op op tys place mark →
    ¬ op.isTransfer → chosen l → List.Forall₂ Ty.Alike tys tys' → (moves → ∀ t ∈ tys', t.place = some l) →
      d'.op op tys' (some l) mark
  placed : moves → ∀ {g : Graph} {v : VarId} {x : Var}, g.Sound d' → g.vars[v]? = some x →
    ∃ l, x.ty.place = some l

variable {d d' : Discipline} {chosen : Location → Prop}

/-- A value can be had at any place, under its type. -/
theorem moved_meets (settles : Settles c d d' chosen s.moves) (mirrors : r.Mirrors p d' s)
    {dest : Location} (known : dest = .host ∨ dest = c.target) {v : VarId} {y : Var}
    (atV : r.graph.vars[v]? = some y) :
    (moved dest v).Meets r (fun _ => fails) fun w r' => r'.Mirrors p d' s ∧ r.Grows r' ∧
      (∃ z, r'.graph.vars[w]? = some z ∧ y.ty.Alike z.ty ∧ (s.moves → z.ty.place = some dest)) ∧
      (s.kept → s.after r'.graph w = s.after r.graph v) := by
  unfold moved
  rw [meets_bind, place_meets atV]
  by_cases here : y.ty.place.getD .host = dest
  · simp only [here, ↓reduceIte, meets_pure]
    refine ⟨mirrors, .refl r, ⟨y, atV, .refl _, fun moves => ?_⟩, fun _ => trivial⟩
    obtain ⟨l, place⟩ := settles.placed moves mirrors.graph atV
    rw [place, Option.getD_some] at here
    rw [place, here]
  simp only [here, ↓reduceIte]
  rw [meets_bind]
  refine (mirrors.known? (.transferTo dest) [v]).mono ?_
  rintro found r' ⟨same, knows⟩
  rw [same]
  have types : r.graph.Types [v] [y.ty] := .cons ⟨y, atV, rfl⟩ .nil
  have isTransfer := isTransfer_transferTo dest
  cases found with
  | some w =>
    obtain ⟨⟨tys, ty, z, types', inferred, atW, alike⟩, placed, value⟩ := knows w rfl
    obtain rfl : [y.ty] = tys := types.unique types'
    obtain rfl : _ = ty := Except.ok.inj ((infer_transfer isTransfer y.ty).symm.trans inferred)
    simp only [meets_pure]
    refine ⟨mirrors, .refl _, ⟨z, atW, alike, fun moves => placed moves dest rfl z atW⟩, fun kept => ?_⟩
    rw [value kept, value_moved isTransfer]
  | none =>
    simp only
    rw [meets_bind]
    refine (mirrors.emit types (infer_transfer isTransfer y.ty) (settles.transfer known)
      fun _ _ computes => absurd (Op.isPointwise_of_isTransfer isTransfer) computes).mono ?_
    rintro w r₁ ⟨mirrors₁, grows₁, -, -, graph₁, -, ⟨z, atW, placedW, -⟩, valueW⟩
    have alike : y.ty.Alike z.ty := by
      rw [placedW]
      exact ⟨rfl, rfl⟩
    have place₁ : z.ty.place = some dest := by
      rw [placedW]
      rfl
    rw [value_moved isTransfer] at valueW
    have knows₁ : r₁.graph.Knows s (.transferTo dest) [v] w := by
      refine ⟨⟨[y.ty], _, z, grows₁.graph.types types, infer_transfer isTransfer y.ty, atW, alike⟩,
        ?_, ?_⟩
      · intro _ dest' same z' atW'
        obtain rfl : z = z' := Option.some.inj (atW.symm.trans atW')
        rw [place₁, transferTo_inj same]
      · intro _
        rw [value_moved isTransfer, valueW]
        exact (mirrors.graph.value_grows mirrors₁.graph grows₁.graph
          (types.inRange v (by simp))).symm
    rw [meets_bind]
    refine (mirrors₁.note knows₁).mono ?_
    rintro _ r₂ ⟨mirrors₂, graph₂, image₂⟩
    rw [meets_pure, graph₂]
    refine ⟨mirrors₂, ⟨?_, fun image => ?_⟩, ⟨z, atW, alike, fun _ => place₁⟩, fun _ => valueW⟩
    · rw [graph₂]
      exact grows₁.graph
    · rw [image₂]
      exact grows₁.image image

/-- The images of several variables can be had at one place. -/
theorem movedAll_meets (valid : p.Valid d) (settles : Settles c d d' chosen s.moves) (mirrors : r.Mirrors p d' s)
    (typed : s.typed) {dest : Location} (known : dest = .host ∨ dest = c.target) {vs : List VarId} {tys : List Ty}
    (types : p.graph.Types vs tys) (ready : ∀ v ∈ vs, r.Ready p v) :
    (vs.mapM fun v => do moved dest (← Rebuild.read p v)).Meets r (fun _ => fails) fun ws r' =>
      r'.Mirrors p d' s ∧ r.Grows r' ∧
      (∃ tys', r'.graph.Types ws tys' ∧ List.Forall₂ Ty.Alike tys tys' ∧
        (s.moves → ∀ t ∈ tys', t.place = some dest)) ∧
      (s.kept → ws.mapM (s.after r'.graph) = vs.mapM (s.before p)) := by
  refine meets_mapM (fun done ws r' => r'.Mirrors p d' s ∧ r.Grows r' ∧
    (∃ tys tys', p.graph.Types done tys ∧ r'.graph.Types ws tys' ∧
      List.Forall₂ Ty.Alike tys tys' ∧ (s.moves → ∀ t ∈ tys', t.place = some dest)) ∧
    (s.kept → ws.mapM (s.after r'.graph) = done.mapM (s.before p))) vs ?_ ?_ ?_
  · exact ⟨mirrors, .refl r, ⟨[], [], .nil, .nil, .nil, by simp⟩, fun _ => rfl⟩
  · rintro before v after ws r' split ⟨mirrors', grows', ⟨tys, tys', types, types', alikes, places⟩,
      values⟩
    have member : v ∈ vs := by simp [split]
    rw [meets_bind]
    refine (mirrors'.read ((ready v member).grows grows')
      fun x atV _ => settles.leaf x (valid.graph.leaf atV)).mono ?_
    rintro w r₁ ⟨mirrors₁, grows₁, image⟩
    obtain ⟨x, y, atV, atW, alike, -⟩ := mirrors₁.image image
    refine (moved_meets settles mirrors₁ known atW).mono ?_
    rintro w' r₂ ⟨mirrors₂, grows₂, ⟨z, atW', alike', place⟩, value⟩
    have grown := grows₁.graph.trans grows₂.graph
    refine ⟨mirrors₂, (grows'.trans grows₁).trans grows₂, ⟨tys ++ [x.ty], tys' ++ [z.ty], ?_, ?_, ?_,
      ?_⟩, fun kept => ?_⟩
    · exact List.rel_append types (.cons ⟨x, atV, rfl⟩ .nil)
    · exact List.rel_append (grown.types types') (.cons ⟨z, atW', rfl⟩ .nil)
    · exact List.rel_append alikes (.cons ((alike typed).trans alike') .nil)
    · intro moves t member
      rcases List.mem_append.mp member with old | new
      · exact places moves t old
      · rw [List.mem_singleton.mp new, place moves]
    · have old : ws.mapM (s.after r₂.graph) = ws.mapM (s.after r'.graph) :=
        mirrors'.values_grow mirrors₂.graph grown types'
      have new : s.after r₂.graph w' = s.before p v := by
        rw [value kept, mirrors₁.value kept image]
      rw [List.mapM_append, List.mapM_append, old, values kept]
      simp [new]
  · rintro ws r' ⟨mirrors', grows', ⟨tys₀, tys', types₀, types', alikes, places⟩, values⟩
    obtain rfl : tys₀ = tys := types₀.unique types
    exact ⟨mirrors', grows', ⟨tys', types', alikes, places⟩, values⟩

omit [BlockRoutine] in
theorem destination?_some {target dest : Location} {op : Op}
    (found : destination? target op = some dest) :
    op.isTransfer ∧ (dest = .host ∨ dest = target) := by
  cases op with
  | toHost => exact ⟨rfl, .inl (Option.some.inj found).symm⟩
  | toDevice n =>
    refine ⟨rfl, ?_⟩
    simp only [destination?, Option.some.injEq] at found
    by_cases same : Location.device n = target
    · rw [if_pos same] at found
      exact .inr found.symm
    · rw [if_neg same] at found
      exact .inl found.symm
  | _ => cases found

omit [BlockRoutine] in
theorem destination?_none {target : Location} {op : Op} (none : destination? target op = none) :
    ¬ op.isTransfer := by
  cases op with
  | toHost => cases none
  | toDevice n => cases none
  | _ => exact Bool.false_ne_true

omit [BlockRoutine] in
theorem host_supports (op : Op) (kinds : List Kind) : Table.host.supports op kinds = .ok () := by
  have full : KindSet.all.isEmpty = false := by decide
  have each : kinds.find? (fun k => !KindSet.all.has k) = none :=
    List.find?_eq_none.mpr fun _ _ => Bool.false_ne_true
  simp [Table.supports, Table.host, Table.empty, full, each]

omit [BlockRoutine] in
/-- What is chosen is the host or the target. -/
theorem reaches_of_choose {c : Context} {g : Graph} {n : Node} {l : Location} (chosen : choose c g n = .ok l) :
    c.Reaches l := by
  unfold choose at chosen
  obtain ⟨kinds, -, chosen⟩ := bind_eq_ok.mp chosen
  obtain ⟨t, -, chosen⟩ := bind_eq_ok.mp chosen
  by_cases runs : (admits t n kinds).isOk
  · rw [if_pos runs] at chosen
    exact .inr (Except.ok.inj chosen).symm
  rw [if_neg runs] at chosen
  by_cases strict : c.target.isHost ∨ c.config.fallback = .strict
  · rw [if_pos strict] at chosen
    obtain ⟨⟨⟩, -, chosen⟩ := bind_eq_ok.mp chosen
    exact .inr (Except.ok.inj chosen).symm
  · rw [if_neg strict] at chosen
    obtain ⟨t', -, chosen⟩ := bind_eq_ok.mp chosen
    obtain ⟨⟨⟩, -, chosen⟩ := bind_eq_ok.mp chosen
    exact .inl (Except.ok.inj chosen).symm

omit [BlockRoutine] in
theorem kindsOf_eq {p : Program} {d : Discipline} {n : Node} {tys : List Ty} {ty : Ty} {x : Var}
    (known : p.Operation d n tys ty x) :
    kindsOf p.graph n = .ok (dropRepeats (tys.map Ty.kind ++ [x.ty.kind])) := by
  simp only [kindsOf, Graph.tys_eq_ok.mpr known.types, Graph.ty_eq_ok.mpr ⟨x, known.atOutput, rfl⟩, ok_bind, pure_eq]

theorem choose_meets (c : Context) {p : Program} {d : Discipline} {n : Node} {tys : List Ty} {ty : Ty}
    {x : Var} (known : p.Operation d n tys ty x) :
    match choose c p.graph n with
    | .ok l => l = .host ∨ l = c.target
    | .error _ => ¬ c.Plain := by
  by_cases plain : c.Plain
  · have table : c.table c.target = .ok Table.host := by
      rw [plain.target, ← plain.table]
      rfl
    unfold choose
    simp [kindsOf_eq known, table, admits, host_supports, Except.isOk, Except.toBool]
  cases chosen : choose c p.graph n with
  | error e => exact plain
  | ok l => exact reaches_of_choose chosen

variable {math : MathMode} {ts : List Tensor} {cells : Array Tensor} {kept moves : Prop}

/-- The placed form of an operation mirrors it. That fails only if no location can be chosen. -/
theorem step_meets (valid : p.Valid d) (settles : Settles c d d' chosen moves)
    {before after : List Node} {n : Node} (split : p.liveNodes = before ++ n :: after)
    (choice : ¬ n.op.isTransfer → match choose c p.graph n with
      | .ok l => chosen l
      | .error _ => fails)
    (mirrors : r.Mirrors p d' (p.stage math ts cells kept True False moves))
    (reached : r.Reached p (fun _ => False) before) :
    (step c p n).Meets r (fun _ => fails) fun _ r' =>
      r.Advances r' p d' (p.stage math ts cells kept True False moves) (fun _ => False) n := by
  have live : n ∈ p.liveNodes := by
    rw [split]
    simp
  obtain ⟨tys, ty, x, known⟩ := valid.operation live
  have ready : ∀ v ∈ n.inputs, r.Ready p v := fun v reads =>
    reached.ready valid split (by simp) reads id
  have value := (p.stage math ts cells kept True False moves).before_output valid live
  unfold step
  cases found : destination? c.target n.op with
  | some dest =>
    obtain ⟨isTransfer, place⟩ := destination?_some found
    have count : n.inputs.length = 1 := by
      obtain ⟨first, rest, rfl, arity, -⟩ := Op.infer_eq_ok.mp known.inferred
      rw [known.types.length_eq, arity]
      cases op : n.op <;> simp_all [Op.isTransfer, Op.arity]
    obtain ⟨v, inputs⟩ := List.length_eq_one_iff.mp count
    have types := known.types
    rw [inputs] at types ready value
    rw [inputs]
    simp only
    obtain ⟨t, rfl⟩ : ∃ t, tys = [t] := List.length_eq_one_iff.mp (by simpa using types.length_eq.symm)
    have inferred : _ = Except.ok ty := (infer_transfer isTransfer t).symm.trans known.inferred
    cases inferred
    rw [meets_bind]
    refine (mirrors.read (ready v (by simp)) fun y atV _ => settles.leaf y (valid.graph.leaf atV)).mono ?_
    rintro w r₁ ⟨mirrors₁, grows₁, image⟩
    rw [meets_bind]
    obtain ⟨y, z, atV, atW, alike, -⟩ := mirrors₁.image image
    refine (moved_meets settles mirrors₁ place atW).mono ?_
    rintro w' r₂ ⟨mirrors₂, grows₂, ⟨z', atW', alike', -⟩, value'⟩
    have same : y.ty = t := by
      cases types with
      | cons head _ =>
        obtain ⟨y', atV', rfl⟩ := head
        rw [Option.some.inj (atV.symm.trans atV')]
    refine (mirrors₂.settle known atW' (fun typed => ?_) False.elim fun held => ?_).mono
      fun _ _ settled => settled.1.after (grows₁.trans grows₂).keeps
    · exact Ty.Alike.trans ⟨by rw [same], by rw [same]⟩ ((alike typed).trans alike')
    · rw [value' held, mirrors₁.value held image, value]
      exact (value_moved isTransfer _ _ v).symm
  | none =>
    have computes := destination?_none found
    have chosen := choice computes
    simp only
    rw [meets_bind, meets_lift]
    cases choice : choose c p.graph n with
    | error e =>
      rw [choice] at chosen
      exact chosen
    | ok l =>
      rw [choice] at chosen
      simp only
      rw [meets_bind]
      refine (movedAll_meets valid settles mirrors trivial (settles.known l chosen) known.types ready).mono ?_
      rintro ws r₁ ⟨mirrors₁, grows₁, ⟨tys', types', alike, places⟩, values⟩
      refine (mirrors₁.emitted known types' (Op.infer_congr known.inferred alike)
        (settles.op known.rule computes chosen alike places) (fun _ => .refl _) False.elim (fun held calm _ => ?_)
        fun held => ?_).mono fun _ _ advances => advances.after grows₁.keeps
      · rw [values held]
        exact calm n live
      · rw [value, values held]

/-- The placed program mirrors the program, if a location can be chosen for every operation that computes. -/
theorem rebuild_meets (valid : p.Valid d) (settles : Settles c d d' chosen moves)
    (choice : ∀ n ∈ p.liveNodes, ¬ n.op.isTransfer → match choose c p.graph n with
      | .ok l => chosen l
      | .error _ => fails) :
    match p.rebuild (step c p) with
    | .ok q => p.Rebuilt q d' (p.stage math ts cells kept True False moves)
    | .error _ => fails :=
  Program.rebuild_meets valid settles.leaf (fun typed => ⟨settles.asked typed, trivial⟩) (fun _ _ => id)
    fun split => step_meets valid settles split (choice _ (by rw [split]; simp))

omit [BlockRoutine] in
/-- What is at its place was allowed before. -/
theorem settles_placed (c : Context) (scope : Scope) :
    Settles c (.hosted scope) (.placed c.target scope) (fun l => l = .host ∨ l = c.target) True where
  leaf _ fits := fits
  asked := id
  known _ := id
  transfer {dest t} known :=
    ⟨rfl, dest, rfl, known, fun _ => rfl, fun computes => absurd (isTransfer_transferTo dest) computes⟩
  op := by
    rintro op tys tys' place mark l ⟨-, unmarked, allowed⟩ computes known alike places
    refine ⟨unmarked, l, rfl, known, fun moves => absurd moves computes, fun _ t' member => ?_⟩
    obtain ⟨t, inTys, same⟩ := partner_of alike member
    rw [← same.1]
    exact ⟨places trivial t' member, allowed t inTys⟩
  placed _ _ _ _ sound atV := by
    obtain ⟨l, place, -⟩ := sound.placed atV
    exact ⟨l, place⟩

/-- The placed program is a program that computes the same. -/
theorem run_meets (c : Context) (valid : p.Valid (.fresh scope)) (math : MathMode)
    (ts : List Tensor) (cells : Array Tensor) :
    match run c p with
    | .ok q => p.Refines q (.placed c.target scope) math ts cells True
    | .error _ => ¬ c.Plain := by
  have hosted := hostLeaves_valid (hosts_fresh scope) valid
  have rebuilt : match (hostLeaves p).rebuild (step c (hostLeaves p)) with
      | .ok q => (hostLeaves p).Rebuilt q (.placed c.target scope)
          ((hostLeaves p).stage math ts cells True True False True)
      | .error _ => ¬ c.Plain := by
    refine rebuild_meets hosted (settles_placed c scope) fun n live _ => ?_
    obtain ⟨tys, ty, x, known⟩ := hosted.operation live
    exact choose_meets c known
  have first : p.Refines (hostLeaves p) (.hosted scope) math ts cells True := by
    have same : (hostLeaves p).value math ts cells = p.value math ts cells :=
      funext fun v => hostLeaves_value _ _ v
    refine ⟨hosted, hostLeaves_sameInterface, fun _ => ?_, fun _ calm => ?_⟩
    · rw [Program.SameValues, same]
      rfl
    · rw [Program.Calm, same]
      exact calm
  unfold run
  revert rebuilt
  cases (hostLeaves p).rebuild (step c (hostLeaves p)) with
  | error e => exact id
  | ok q => exact fun rebuilt => first.trans rebuilt.refines

end Step

end Placement

/-- The table of every device that a live operation is placed on is at hand, unless a pass may fail. -/
def Program.Tabled (p : Program) (c : Context) (fails : Prop) : Prop :=
  ∀ n ∈ p.liveNodes, ∀ l, n.place = some l → (∃ t, c.table l = .ok t) ∨ fails

theorem Context.table_of_placed (c : Context) {l : Location} (there : l = .host ∨ l = c.target) :
    (∃ t, c.table l = .ok t) ∨ ¬ c.Plain := by
  by_cases plain : c.Plain
  · rw [plain.target, or_self] at there
    subst there
    exact .inl ⟨c.hostTable, rfl⟩
  · exact .inr plain

theorem Program.Valid.tabled {p : Program} {c : Context} {scope : Scope} (valid : p.Valid (.placed c.target scope)) :
    p.Tabled c (¬ c.Plain) := by
  intro n live l place
  obtain ⟨tys, ty, x, known⟩ := valid.operation live
  obtain ⟨-, l', place', there, -⟩ := known.rule
  obtain rfl : l = l' := Option.some.inj (place.symm.trans place')
  exact c.table_of_placed there

end TensorGraph
