import TensorGraph.Proofs.Executable.Schedule
import TensorGraph.Proofs.Pass.Carried

/-! Where the values of a slot live. A value that overwrites another is where the other one is, so all values of a slot
are at one place, and the buffer that a call leaves in the slot serves the next ones. -/
namespace TensorGraph

open Checked

/-- Values in one slot are at one place, the home of the slot. -/
def Layout.Homed (l : Layout) (g : Graph) (home : SlotId → Place) : Prop :=
  ∀ v s, l.slot v = some s → s < l.count ∧ home s = g.placeOf v

namespace Layout.Homed

variable {l l' : Layout} {g : Graph} {home : SlotId → Place}

theorem empty (g : Graph) (home : SlotId → Place) : ({} : Layout).Homed g home := fun v s at_ => by cases at_

/-- A variable that gets a new slot decides where that is. -/
theorem assign (homed : l.Homed g home) (v : VarId) : ∃ home, (l.assign v).Homed g home := by
  cases given : l.slot v with
  | some s => exact ⟨home, by rwa [Layout.assign, given]⟩
  | none =>
    refine ⟨fun s => if s = l.count then g.placeOf v else home s, fun u s at_ => ?_⟩
    rw [Layout.assign, given] at at_ ⊢
    by_cases same : u = v
    · obtain rfl : l.count = s := by simpa [same] using at_
      exact ⟨Nat.lt_succ_self _, by simp [same]⟩
    · obtain ⟨inRange, place⟩ := homed u s (by simpa [same] using at_)
      exact ⟨Nat.lt_succ_of_lt inRange, by simp [Nat.ne_of_lt inRange, place]⟩

theorem assignAll (homed : l.Homed g home) (vs : List VarId) : ∃ home, (l.assignAll vs).Homed g home := by
  induction vs generalizing l home with
  | nil => exact ⟨home, homed⟩
  | cons v vs ih =>
    obtain ⟨home', homed'⟩ := homed.assign v
    exact ih homed'

/-- A variable may share the slot of another one at its place. -/
theorem share (homed : l.Homed g home) {v u : VarId} (same : g.placeOf v = g.placeOf u)
    (shared : l.share v u = .ok l') : l'.Homed g home := by
  obtain ⟨x, at_, whole⟩ := bind_eq_ok.mp shared
  obtain ⟨rfl, slot⟩ := site_eq_ok.mp at_
  cases whole
  intro w s atW
  by_cases here : w = v
  · obtain rfl : x.slot = s := by simpa [here] using atW
    rw [here, same]
    exact homed x.var x.slot slot
  · exact homed w s (by simpa [here] using atW)

/-- What overwrites an operand computes, and is where its operand is. -/
theorem addNode (homed : l.Homed g home) (located : g.Located) {n : Node} {i : NodeId} (at_ : g.nodes[i]? = some n)
    (added : l.addNode n = .ok l') : ∃ home, l'.Homed g home := by
  obtain ⟨home₁, homed₁⟩ := homed.assignAll n.inputs
  unfold Layout.addNode at added
  cases mark : n.inPlace with
  | none =>
    rw [mark] at added
    cases added
    exact homed₁.assign n.output
  | some k =>
    rw [mark] at added
    obtain ⟨u, item, shared⟩ := bind_eq_ok.mp added
    have reads : u ∈ n.inputs := by
      unfold Kernel.item at item
      split at item <;> cases item
      exact List.mem_of_getElem? ‹_›
    obtain ⟨p, -, output, admits⟩ := located.node at_
    have computes : ¬ n.op.isTransfer := fun moves => by
      have unmarked := (admits.moves moves).2.1
      rw [mark] at unmarked
      cases unmarked
    exact ⟨home₁, homed₁.share (output.trans (admits.computes computes u reads).symm) shared⟩

theorem addNodes (homed : l.Homed g home) (located : g.Located) {ns : List Node}
    (known : ∀ n ∈ ns, ∃ i : NodeId, g.nodes[i]? = some n) (added : ns.foldlM Layout.addNode l = .ok l') :
    ∃ home, l'.Homed g home := by
  induction ns generalizing l home with
  | nil =>
    cases added
    exact ⟨home, homed⟩
  | cons n ns ih =>
    rw [List.foldlM_cons] at added
    obtain ⟨next, first, rest⟩ := bind_eq_ok.mp added
    obtain ⟨i, at_⟩ := known n (by simp)
    obtain ⟨home', homed'⟩ := homed.addNode located at_ first
    exact ih homed' (fun m member => known m (List.mem_cons_of_mem _ member)) rest

end Layout.Homed

theorem Layout.homed_of_build {p : Program} {order : List Node} {l : Layout} (located : p.graph.Located)
    (known : ∀ n ∈ order, ∃ i : NodeId, p.graph.nodes[i]? = some n) (built : Layout.build p order = .ok l) :
    ∃ home, l.Homed p.graph home := by
  obtain ⟨home, homed⟩ := (Layout.Homed.empty p.graph fun _ => none).assignAll p.inputs
  obtain ⟨l', added, whole⟩ := bind_eq_ok.mp built
  cases whole
  obtain ⟨home', homed'⟩ := homed.addNodes located known added
  exact homed'.assignAll p.roots

/-- Only operations that the roots need are run. -/
theorem Graph.orderFrom_subset {g : Graph} {live ns : List Node} {count : Nat} {finished : List NodeId}
    (ran : g.orderFrom live count finished = .ok ns) : ns ⊆ live := by
  induction count generalizing finished ns with
  | zero =>
    cases ran
    exact List.nil_subset _
  | succ count ih =>
    unfold orderFrom at ran
    split at ran
    · cases ran
    · rename_i n ready
      obtain ⟨rest, ordered, whole⟩ := bind_eq_ok.mp ran
      cases whole
      exact List.cons_subset.mpr ⟨List.mem_of_find?_eq_some ready, ih ordered⟩

theorem Program.order_at {p : Program} {ns : List Node} (ordered : p.order = .ok ns) :
    ∀ n ∈ ns, ∃ i : NodeId, p.graph.nodes[i]? = some n := fun n member => by
  obtain ⟨⟨⟩, -, ran⟩ := bind_eq_ok.mp ordered
  exact Program.live_at (Graph.orderFrom_subset ran member)

/-- A command finds its operands where it runs, and leaves its result there. -/
structure Command.Sited (cmd : Command) (c : Context) (home : SlotId → Place) : Prop where
  output : home cmd.output.slot = some cmd.location
  device : ∃ d, c.device cmd.location = .ok d
  operands : ∀ kernel, cmd.work = .launch kernel → c.kernels.lookup cmd.op = .ok kernel ∧
    ∀ x ∈ cmd.inputs, home x.slot = some cmd.location

namespace Schedule

/-- Leaves are bound to slots on the host, and every command finds its operands. -/
structure Sited (s : Schedule) (c : Context) (home : SlotId → Place) : Prop where
  leaf : ∀ x ∈ s.leafSites, home x.slot = some .host
  command : ∀ cmd ∈ s.commands, cmd.Sited c home

variable {c : Context} {g : Graph} {l : Layout} {home : SlotId → Place} {n : Node} {cmd : Command}

/-- A launch is of a kernel that is registered for the operation, which computes. -/
theorem workOf_launch {kernel : Kernel} (ran : workOf c g n = .ok (.launch kernel)) :
    ¬ n.op.isTransfer ∧ c.kernels.lookup n.op = .ok kernel := by
  have found : c.kernels.lookup n.op <&> Work.launch = .ok (.launch kernel) → c.kernels.lookup n.op = .ok kernel :=
    fun looked => by
      obtain ⟨k, looked, same⟩ := map_eq_ok.mp looked
      cases same
      exact looked
  unfold workOf at ran
  cases op : n.op with
  | toDevice o =>
    rw [op] at ran
    simp only at ran
    split at ran
    · cases ran
    · obtain ⟨x, -, whole⟩ := bind_eq_ok.mp ran
      cases whole
  | toHost =>
    rw [op] at ran
    cases ran
  | _ =>
    rw [op] at ran found
    exact ⟨Bool.false_ne_true, found ran⟩

theorem command_sited (homed : l.Homed g home) (located : g.Located) {i : NodeId} (at_ : g.nodes[i]? = some n)
    (made : command c g l n = .ok cmd) : cmd.Sited c home := by
  obtain ⟨p, place, there, admits⟩ := located.node at_
  unfold command at made
  rw [place] at made
  obtain ⟨⟨⟩, device, made⟩ := bind_eq_ok.mp made
  obtain ⟨inputs, atInputs, made⟩ := bind_eq_ok.mp made
  obtain ⟨output, atOutput, made⟩ := bind_eq_ok.mp made
  obtain ⟨work, does, made⟩ := bind_eq_ok.mp made
  obtain ⟨ty, -, made⟩ := bind_eq_ok.mp made
  obtain ⟨math, -, made⟩ := bind_eq_ok.mp made
  cases made
  obtain ⟨-, slot⟩ := Layout.site_eq_ok.mp atOutput
  refine ⟨(homed _ _ slot).2.trans there, ?_, fun kernel same => ?_⟩
  · obtain ⟨d, found, -⟩ := map_eq_ok.mp device
    exact ⟨d, found⟩
  · obtain rfl : work = .launch kernel := same
    obtain ⟨computes, known⟩ := workOf_launch does
    refine ⟨known, fun x reads => ?_⟩
    obtain ⟨v, member, found⟩ := partner_of (mapM_eq_ok.mp atInputs) reads
    obtain ⟨-, slot⟩ := Layout.site_eq_ok.mp found
    exact (homed _ _ slot).2.trans (admits.computes computes _ member)

theorem leaf_sited {α : Type} (homed : l.Homed g home) (located : g.Located) {f : Var → Option α}
    (leaves_ : ∀ x a, f x = some a → x.isLeaf) {e : Site × α} (member : e ∈ leaves g l f) :
    home e.1.slot = some .host := by
  obtain ⟨x, atV, slot, found⟩ := mem_leaves.mp (show (e.1, e.2) ∈ leaves g l f from member)
  exact (homed _ _ slot).2.trans (located.leaf atV (leaves_ x e.2 found))

/-- The schedule of a program in which every value is where it is read. -/
theorem sited_of_build {p : Program} {report : List PassReport} {s : Schedule} (located : p.Located)
    (built : build c p report = .ok s) : ∃ home, s.Sited c home := by
  obtain ⟨order, ordered, built⟩ := bind_eq_ok.mp built
  obtain ⟨l, laid, built⟩ := bind_eq_ok.mp built
  obtain ⟨roots, -, built⟩ := bind_eq_ok.mp built
  obtain ⟨commands, made, built⟩ := bind_eq_ok.mp built
  obtain ⟨inputs, bound, built⟩ := bind_eq_ok.mp built
  obtain ⟨outputs, -, built⟩ := bind_eq_ok.mp built
  obtain ⟨updates, -, built⟩ := bind_eq_ok.mp built
  cases built
  have known := Program.order_at ordered
  obtain ⟨home, homed⟩ := Layout.homed_of_build located.graph known laid
  refine ⟨home, fun x leaf => ?_, fun cmd member => ?_⟩
  swap
  · obtain ⟨n, inOrder, made⟩ := partner_of (mapM_eq_ok.mp made) member
    obtain ⟨i, at_⟩ := known n inOrder
    exact command_sited homed located.graph at_ made
  simp only [leafSites, List.mem_append, List.mem_map, or_assoc] at leaf
  rcases leaf with ⟨e, member, rfl⟩ | ⟨e, member, rfl⟩ | ⟨e, member, rfl⟩
  · obtain ⟨v, inInputs, found⟩ := partner_of (mapM_eq_ok.mp bound) member
    obtain ⟨x, at_, found⟩ := bind_eq_ok.mp found
    obtain ⟨ty, -, whole⟩ := bind_eq_ok.mp found
    cases whole
    obtain ⟨-, slot⟩ := Layout.site_eq_ok.mp at_
    obtain ⟨y, atV, isLeaf⟩ := located.inputs _ inInputs
    exact (homed _ _ slot).2.trans (located.graph.leaf atV isLeaf)
  · exact leaf_sited homed located.graph (fun x t found => by
      cases origin : x.origin <;> simp_all [Var.constant?, Var.isLeaf]) member
  · exact leaf_sited homed located.graph (fun x t found => by
      cases origin : x.origin <;> simp_all [Var.cell?, Var.isLeaf]) member

end Schedule

end TensorGraph
