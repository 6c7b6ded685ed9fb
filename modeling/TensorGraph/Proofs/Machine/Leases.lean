import Mathlib.Data.List.Nodup
import TensorGraph.Kernel.BlockSums
import TensorGraph.Context
import TensorGraph.Proofs.Logic.Action

/-! One accelerator in a process. Whatever leases are taken and returned, and whatever contexts are built, shared and
dropped, the registry has at most one accelerator, with the number of the leases that are live. -/
namespace TensorGraph

open TensorGraph.Action

namespace Leases

/-- The registry of some live leases: it is empty, or has the one accelerator that all of them are on. -/
def Records (l : Leases) (live : List Nat) : Prop :=
  (l.held = [] ∧ live = []) ∨ ∃ o n, l.held = [(o, n + 1)] ∧ live = List.replicate (n + 1) o

variable {l l' : Leases} {live : List Nat} {o : Nat}

/-- A lease is refused exactly when another accelerator is held. -/
theorem Records.acquire (records : l.Records live) (o : Nat) :
    match l.acquire o with
    | .ok l' => (∀ x ∈ live, x = o) ∧ l'.Records (o :: live) ∧ l'.release o = l
    | .error e => (∃ x ∈ live, x ≠ o) ∧ ∃ reason, e = .configuration reason := by
  obtain ⟨held⟩ := l
  rcases records with ⟨rfl, rfl⟩ | ⟨x, n, rfl, rfl⟩
  · exact ⟨nofun, .inr ⟨o, 0, rfl, rfl⟩, by simp [release, update]⟩
  · by_cases same : x = o
    · subst same
      have found : Leases.acquire ⟨[(x, n + 1)]⟩ x = .ok ⟨[(x, n + 1 + 1)]⟩ := by simp [Leases.acquire, update]
      rw [found]
      exact ⟨fun y member => List.eq_of_mem_replicate member, .inr ⟨x, n + 1, rfl, rfl⟩, by simp [release, update]⟩
    · have refused : ∃ reason, Leases.acquire ⟨[(x, n + 1)]⟩ o = .error (.configuration reason) := by
        simp [Leases.acquire, same]
      obtain ⟨reason, refused⟩ := refused
      rw [refused]
      exact ⟨⟨x, by simp, same⟩, reason, rfl⟩

/-- A lease that is returned was on the accelerator that all leases are on. -/
theorem Records.release {before after : List Nat} (records : l.Records (before ++ o :: after)) :
    (l.release o).Records (before ++ after) := by
  obtain ⟨held⟩ := l
  rcases records with ⟨-, none⟩ | ⟨x, n, rfl, whole⟩
  · simp at none
  · obtain ⟨length, each⟩ := List.eq_replicate_iff.mp whole
    obtain rfl : o = x := each o (by simp)
    have rest : before ++ after = List.replicate n o := by
      refine List.eq_replicate_iff.mpr ⟨?_, fun y member => each y ?_⟩
      · simp only [List.length_append, List.length_cons] at length ⊢
        omega
      · rcases List.mem_append.mp member with front | back
        · exact List.mem_append_left _ front
        · exact List.mem_append_right _ (List.mem_cons_of_mem _ back)
    rw [rest]
    cases n with
    | zero => exact .inl ⟨by simp [Leases.release, update], rfl⟩
    | succ n => exact .inr ⟨o, n, by simp [Leases.release, update], rfl⟩

end Leases

namespace Context

/-- A lease that is refused changes nothing. -/
theorem lease_start (ordinal : Nat) (m : Machine) : (Context.lease ordinal).start m =
    match m.leases.acquire ordinal with
    | .ok leases => (.ok (), { m with leases })
    | .error e => (.error e, m) := by
  have opened : (Context.lease ordinal).start m =
      ((liftM (m.leases.acquire ordinal) : Action Machine Leases) >>= fun leases =>
        modify fun m => { m with leases }).start m := rfl
  rw [opened, start_bind]
  cases m.leases.acquire ordinal <;> rfl

/-- Opening a target takes no lease, and no owner. -/
theorem openTarget_keeps (config : Config) (custom : Option Table) (m : Machine) :
    (openTarget config custom).Meets m (fun _ m' => m'.leases = m.leases ∧ m'.owners = m.owners)
      fun _ m' => m'.leases = m.leases ∧ m'.owners = m.owners := by
  unfold openTarget
  have chosen : ∀ (d : Option Device) (m' : Machine), m'.leases = m.leases ∧ m'.owners = m.owners →
      ((do return (d, ← chooseTable d custom)) : Action Machine (Option Device × Option Table)).Meets m'
        (fun _ m' => m'.leases = m.leases ∧ m'.owners = m.owners)
        fun _ m' => m'.leases = m.leases ∧ m'.owners = m.owners := by
    intro d m' same
    rw [meets_bind, meets_lift]
    cases chooseTable d custom with
    | ok t => exact same
    | error e => exact same
  cases config.target with
  | host => exact chosen none m ⟨rfl, rfl⟩
  | cuda n => exact ⟨rfl, rfl⟩
  | sim n => exact chosen (some (.sim m.accelerators.size n)) _ ⟨rfl, rfl⟩

/-- A context is built with one owner and, for an accelerator, with a lease. When that fails, whether at the lease or
later, no lease is kept. -/
theorem build_leases (config : Config) (tables : List Table) (kernels : Kernels) {m : Machine}
    (returns : ∀ n l, m.leases.acquire n = .ok l → l.release n = m.leases) :
    (Context.build config tables kernels).Meets m (fun _ m' => m'.leases = m.leases ∧ m'.owners = m.owners)
      fun c m' => c.config = config ∧ c.id = m.owners.size ∧ m'.owners = m.owners.push 1 ∧
        match config.target.ordinal? with
        | none => m'.leases = m.leases
        | some n => m.leases.acquire n = .ok m'.leases := by
  unfold Context.build
  cases config.target.ordinal? with
  | none =>
    rw [meets_bind, meets_attempt]
    refine (openTarget_keeps config _ m).mono (fun e m' same => same) ?_
    rintro opened m' ⟨leases, owners⟩
    exact ⟨rfl, congrArg Array.size owners, congrArg (Array.push · 1) owners, leases⟩
  | some n =>
    simp only
    unfold Context.lease
    rw [meets_bind, meets_bind, meets_get, meets_bind, meets_lift]
    cases acquired : m.leases.acquire n with
    | error e => exact ⟨rfl, rfl⟩
    | ok l =>
      simp only [meets_modify]
      rw [meets_bind, meets_attempt]
      refine (openTarget_keeps config _ _).mono ?_ ?_
      · rintro e m' ⟨leases, owners⟩
        refine ⟨?_, owners⟩
        rw [← returns n l acquired]
        exact congrArg (Leases.release · n) leases
      · rintro opened m' ⟨leases, owners⟩
        exact ⟨rfl, congrArg Array.size owners, congrArg (Array.push · 1) owners, congrArg Except.ok leases.symm⟩

end Context

/-- What a process holds: leases that were taken by hand, and contexts with the number of their owners. -/
structure Tenancy where
  machine : Machine := {}
  leases : List Nat := []
  contexts : List (Context × Nat) := []

namespace Tenancy

/-- The accelerator that a context holds a lease on. -/
def leased (e : Context × Nat) : Option Nat := e.1.config.target.ordinal?

/-- The accelerators of all leases that were not returned. -/
def live (w : Tenancy) : List Nat := w.leases ++ w.contexts.filterMap leased

/-- One operation, however it ends. The last owner of a context drops it. -/
inductive Step : Tenancy → Tenancy → Prop where
  | acquire {w : Tenancy} {m : Machine} (ordinal : Nat) (ran : (Context.lease ordinal).start w.machine = (.ok (), m)) :
    Step w { w with machine := m, leases := ordinal :: w.leases }
  | refused {w : Tenancy} {m : Machine} {e : Error} (ordinal : Nat)
    (ran : (Context.lease ordinal).start w.machine = (.error e, m)) : Step w { w with machine := m }
  | giveBack {w : Tenancy} {before after : List Nat} {ordinal : Nat} (split : w.leases = before ++ ordinal :: after) :
    Step w { w with
      machine := { w.machine with leases := w.machine.leases.release ordinal }
      leases := before ++ after }
  | build {w : Tenancy} {m : Machine} {c : Context} (config : Config) (tables : List Table) (kernels : Kernels)
    (ran : (Context.build config tables kernels).start w.machine = (.ok c, m)) :
    Step w { w with machine := m, contexts := (c, 1) :: w.contexts }
  | unbuilt {w : Tenancy} {m : Machine} {e : Error} (config : Config) (tables : List Table) (kernels : Kernels)
    (ran : (Context.build config tables kernels).start w.machine = (.error e, m)) : Step w { w with machine := m }
  | share {w : Tenancy} {before after : List (Context × Nat)} {c : Context} {n : Nat}
    (split : w.contexts = before ++ (c, n) :: after) :
    Step w { w with machine := c.retain w.machine, contexts := before ++ (c, n + 1) :: after }
  | leave {w : Tenancy} {before after : List (Context × Nat)} {c : Context} {n : Nat}
    (split : w.contexts = before ++ (c, n + 2) :: after) :
    Step w { w with machine := c.release w.machine, contexts := before ++ (c, n + 1) :: after }
  | drop {w : Tenancy} {before after : List (Context × Nat)} {c : Context}
    (split : w.contexts = before ++ (c, 1) :: after) :
    Step w { w with machine := c.release w.machine, contexts := before ++ after }

/-- What operations lead to. -/
inductive Reachable : Tenancy → Prop where
  | start : Reachable {}
  | step {w w' : Tenancy} (reachable : Reachable w) (step : Step w w') : Reachable w'

/-- The registry has the live leases, and the machine has the owners of every context. -/
structure Booked (w : Tenancy) : Prop where
  records : w.machine.leases.Records w.live
  owned : ∀ e ∈ w.contexts, w.machine.owners[e.1.id]? = some e.2 ∧ 0 < e.2
  distinct : (w.contexts.map fun e => e.1.id).Nodup

variable {w w' : Tenancy}

/-- A registry goes by which leases are live, and not by who holds them. -/
theorem records_perm {l : Leases} {live live' : List Nat} (records : l.Records live) (same : live.Perm live') :
    l.Records live' := by
  rcases records with ⟨held, rfl⟩ | ⟨o, n, held, rfl⟩
  · exact .inl ⟨held, same.nil_eq.symm⟩
  · exact .inr ⟨o, n, held, List.perm_replicate.mp same.symm⟩

theorem Booked.others (booked : w.Booked) {before after : List (Context × Nat)} {c : Context} {n : Nat}
    (split : w.contexts = before ++ (c, n) :: after) {e : Context × Nat} (other : e ∈ before ++ after) :
    e.1.id ≠ c.id := by
  have distinct := booked.distinct
  rw [split, List.map_append, List.map_cons, List.nodup_middle, ← List.map_append] at distinct
  exact fun same => (List.nodup_cons.mp distinct).1 (List.mem_map.mpr ⟨e, other, same⟩)

/-- The owners of other contexts stay as they are. -/
theorem Booked.apart (booked : w.Booked) {before after : List (Context × Nat)} {c : Context} {n : Nat}
    (split : w.contexts = before ++ (c, n) :: after) (f : Nat → Nat) {e : Context × Nat} (other : e ∈ before ++ after) :
    (w.machine.owners.modify c.id f)[e.1.id]? = some e.2 ∧ 0 < e.2 := by
  have member : e ∈ w.contexts := by
    rw [split]
    rcases List.mem_append.mp other with front | back
    · exact List.mem_append_left _ front
    · exact List.mem_append_right _ (List.mem_cons_of_mem _ back)
  obtain ⟨old, positive⟩ := booked.owned e member
  rw [Array.getElem?_modify, if_neg (booked.others split other).symm]
  exact ⟨old, positive⟩

theorem Booked.owners_of (booked : w.Booked) {before after : List (Context × Nat)} {c : Context} {n : Nat}
    (split : w.contexts = before ++ (c, n) :: after) (f : Nat → Nat) :
    (w.machine.owners.modify c.id f)[c.id]? = some (f n) := by
  have here := (booked.owned (c, n) (by simp [split])).1
  rw [Array.getElem?_modify, if_pos rfl, here]
  rfl

/-- The books stay right while a context keeps an owner. -/
theorem Booked.kept (booked : w.Booked) {before after : List (Context × Nat)} {c : Context} {n : Nat}
    (split : w.contexts = before ++ (c, n) :: after) {f : Nat → Nat} (positive : 0 < f n) :
    Booked { w with
      machine := { w.machine with owners := w.machine.owners.modify c.id f }
      contexts := before ++ (c, f n) :: after } := by
  refine ⟨?_, fun e member => ?_, ?_⟩
  · have records := booked.records
    simp only [live, split, List.filterMap_append, List.filterMap_cons, leased] at records ⊢
    exact records
  · rcases List.mem_append.mp member with front | rest
    · exact booked.apart split f (List.mem_append_left _ front)
    · rcases List.mem_cons.mp rest with rfl | back
      · exact ⟨booked.owners_of split f, positive⟩
      · exact booked.apart split f (List.mem_append_right _ back)
  · have distinct := booked.distinct
    rw [split] at distinct
    simpa using distinct

/-- The last owner of a context returns its lease. -/
theorem Booked.dropped (booked : w.Booked) {before after : List (Context × Nat)} {c : Context}
    (split : w.contexts = before ++ (c, 1) :: after) :
    Booked { w with machine := c.release w.machine, contexts := before ++ after } := by
  have gone : (w.machine.owners.modify c.id (· - 1)).getD c.id 0 = 0 := by
    rw [Array.getD_eq_getD_getElem?, booked.owners_of split]
    rfl
  have owners : (c.release w.machine).owners = w.machine.owners.modify c.id (· - 1) := by
    simp only [Context.release, gone]
    cases c.config.target.ordinal? <;> rfl
  refine ⟨?_, fun e member => ?_, ?_⟩
  · have records := booked.records
    simp only [live, split, List.filterMap_append, List.filterMap_cons, leased] at records ⊢
    simp only [Context.release, gone]
    cases ordinal : c.config.target.ordinal? with
    | none =>
      rw [ordinal] at records
      exact records
    | some o =>
      rw [ordinal] at records
      simp only [← List.append_assoc] at records ⊢
      exact records.release
  · rw [owners]
    exact booked.apart split _ member
  · have distinct := booked.distinct
    rw [split, List.map_append, List.map_cons, List.nodup_middle, ← List.map_append] at distinct
    exact (List.nodup_cons.mp distinct).2

/-- What is refused or not built leaves the leases and the owners as they were. -/
theorem Booked.same (booked : w.Booked) {m : Machine} (leases : m.leases = w.machine.leases)
    (owners : m.owners = w.machine.owners) : Booked { w with machine := m } :=
  ⟨leases ▸ booked.records, owners ▸ booked.owned, booked.distinct⟩

/-- Leases that are taken in this world can be returned. -/
theorem Booked.returns (booked : w.Booked) (n : Nat) (l : Leases) (acquired : w.machine.leases.acquire n = .ok l) :
    l.release n = w.machine.leases := by
  have spec := booked.records.acquire n
  rw [acquired] at spec
  exact spec.2.2

/-- A new context has an owner and a number of its own. -/
theorem Booked.built (booked : w.Booked) {m : Machine} {c : Context} (fresh : c.id = w.machine.owners.size)
    (owners : m.owners = w.machine.owners.push 1) (records : m.leases.Records (w.live ++ (c.config.target.ordinal?).toList)) :
    Booked { w with machine := m, contexts := (c, 1) :: w.contexts } := by
  have inside : ∀ e ∈ w.contexts, e.1.id < w.machine.owners.size := fun e member =>
    (Array.getElem?_eq_some_iff.mp (booked.owned e member).1).1
  refine ⟨records_perm records ?_, fun e member => ?_, List.nodup_cons.mpr ⟨fun again => ?_, booked.distinct⟩⟩
  · cases ordinal : c.config.target.ordinal? with
    | none => simp [live, leased, ordinal]
    | some o =>
      simp only [live, leased, ordinal, List.filterMap_cons, Option.toList_some, List.append_assoc]
      have newest : (w.contexts.filterMap leased ++ [o]).Perm (o :: w.contexts.filterMap leased) :=
        List.perm_append_singleton o _
      exact newest.append_left _
  · rw [owners]
    rcases List.mem_cons.mp member with rfl | old
    · exact ⟨by rw [fresh, Array.getElem?_push_size], Nat.one_pos⟩
    · rw [Array.getElem?_push_lt (inside e old), ← Array.getElem?_eq_getElem (inside e old)]
      exact booked.owned e old
  · obtain ⟨e, member, same⟩ := List.mem_map.mp again
    exact absurd (same.trans fresh) (Nat.ne_of_lt (inside e member))

theorem Booked.step (booked : w.Booked) (step : Step w w') : w'.Booked := by
  cases step with
  | acquire ordinal ran =>
    have spec := booked.records.acquire ordinal
    rw [Context.lease_start] at ran
    cases acquired : w.machine.leases.acquire ordinal with
    | ok l =>
      rw [acquired] at spec ran
      cases ran
      exact ⟨spec.2.1, booked.owned, booked.distinct⟩
    | error e =>
      rw [acquired] at ran
      cases ran
  | refused ordinal ran =>
    rw [Context.lease_start] at ran
    cases acquired : w.machine.leases.acquire ordinal with
    | ok l =>
      rw [acquired] at ran
      cases ran
    | error e =>
      rw [acquired] at ran
      cases ran
      exact booked
  | giveBack split =>
    have records := booked.records
    rw [live, split, List.append_assoc] at records
    refine ⟨?_, booked.owned, booked.distinct⟩
    rw [live, List.append_assoc]
    exact records.release
  | @build m c config tables kernels ran =>
    obtain ⟨rfl, fresh, owners, leases⟩ := (Context.build_leases config tables kernels booked.returns).of_ok ran
    refine booked.built fresh owners ?_
    cases ordinal : c.config.target.ordinal? with
    | none =>
      rw [ordinal] at leases
      rw [leases, Option.toList_none, List.append_nil]
      exact booked.records
    | some o =>
      rw [ordinal] at leases
      have spec := booked.records.acquire o
      rw [leases] at spec
      exact records_perm spec.2.1 (List.perm_append_singleton o w.live).symm
  | unbuilt config tables kernels ran =>
    obtain ⟨leases, owners⟩ := (Context.build_leases config tables kernels booked.returns).of_error ran
    exact booked.same leases owners
  | share split => exact booked.kept split (Nat.succ_pos _)
  | @leave before after c n split =>
    have stays : (w.machine.owners.modify c.id (· - 1)).getD c.id 0 = n + 1 := by
      rw [Array.getD_eq_getD_getElem?, booked.owners_of split]
      rfl
    have released : c.release w.machine = { w.machine with owners := w.machine.owners.modify c.id (· - 1) } := by
      simp only [Context.release, stays]
    rw [released]
    exact booked.kept (f := (· - 1)) split (Nat.succ_pos n)
  | drop split => exact booked.dropped split

theorem Reachable.booked (reachable : Reachable w) : w.Booked := by
  induction reachable with
  | start => exact ⟨.inl ⟨rfl, rfl⟩, fun e none => (List.not_mem_nil none).elim, .nil⟩
  | step _ step booked => exact booked.step step

/-- A context for another accelerator than the one that is held is refused. -/
theorem Booked.build_refused (booked : w.Booked) {config : Config} {o : Nat} (aimed : config.target.ordinal? = some o)
    (elsewhere : ∃ x ∈ w.live, x ≠ o) (tables : List Table) (kernels : Kernels) :
    ∃ reason, (Context.build config tables kernels).start w.machine = (.error (.configuration reason), w.machine) := by
  have spec := booked.records.acquire o
  cases acquired : w.machine.leases.acquire o with
  | ok l =>
    rw [acquired] at spec
    obtain ⟨x, member, differs⟩ := elsewhere
    exact absurd (spec.1 x member) differs
  | error e =>
    rw [acquired] at spec
    obtain ⟨-, reason, rfl⟩ := spec
    refine ⟨reason, ?_⟩
    unfold Context.build
    rw [aimed]
    simp only
    rw [start_bind, Context.lease_start, acquired]

/-- One accelerator in a process. The registry is empty when no lease is live, and else has one accelerator with the
number of live leases, all of which are on it. A lease is refused exactly when one on another accelerator is live, as
an error of the configuration, and then nothing changes. A context that is not built leaves the registry as it was. -/
theorem one_accelerator_at_a_time (reachable : Reachable w) :
    (w.machine.leases.held = [] ∧ w.live = [] ∨
      ∃ o n, 0 < n ∧ w.machine.leases.held = [(o, n)] ∧ w.live = List.replicate n o) ∧
    (∀ o, match (Context.lease o).start w.machine with
      | (.ok _, _) => ∀ x ∈ w.live, x = o
      | (.error e, m) => (∃ x ∈ w.live, x ≠ o) ∧ (∃ reason, e = .configuration reason) ∧ m = w.machine) ∧
    ∀ config tables kernels,
      (∀ o, config.target.ordinal? = some o → (∃ x ∈ w.live, x ≠ o) → ∃ reason m,
        (Context.build config tables kernels).start w.machine = (.error (.configuration reason), m)) ∧
      ∀ e m, (Context.build config tables kernels).start w.machine = (.error e, m) →
        m.leases = w.machine.leases := by
  have booked := reachable.booked
  refine ⟨?_, fun o => ?_, fun config tables kernels => ⟨fun o aimed elsewhere => ?_, fun e m failed => ?_⟩⟩
  · exact booked.records.imp_right fun ⟨o, n, held, same⟩ => ⟨o, n + 1, Nat.succ_pos n, held, same⟩
  · have spec := booked.records.acquire o
    rw [Context.lease_start]
    cases acquired : w.machine.leases.acquire o with
    | ok l =>
      rw [acquired] at spec
      exact spec.1
    | error e =>
      rw [acquired] at spec
      exact ⟨spec.1, spec.2, rfl⟩
  · obtain ⟨reason, refused⟩ := booked.build_refused aimed elsewhere tables kernels
    exact ⟨reason, w.machine, refused⟩
  · exact ((Context.build_leases config tables kernels booked.returns).of_error failed).1

section

open scoped BlockRoutine

/-- A context on one accelerator is shared and left by one owner, beside a lease that was taken by hand: another
accelerator is refused, and a context with the table of another device is not built. -/
theorem one_accelerator_at_a_time_shared : ∃ w, Reachable w ∧ w.machine.leases.held = [(0, 2)] ∧ w.live = [0, 0] ∧
    (∃ reason, (Context.lease 1).start w.machine = (.error (.configuration reason), w.machine)) ∧
    ∃ e m, (Context.build { target := .sim 0 } [.sim 1] .host).start w.machine = (.error e, m) ∧
      m.leases = w.machine.leases := by
  have empty : Reachable {} := .start
  have taken := empty.step (.acquire (w := {}) 0 rfl)
  have built := taken.step (.build { target := .sim 0 } [] .host rfl)
  have shared := built.step (@Step.share _ [] _ _ _ rfl)
  have reachable := shared.step (@Step.leave _ [] _ _ _ rfl)
  obtain ⟨-, leases, contexts⟩ := one_accelerator_at_a_time reachable
  refine ⟨_, reachable, rfl, rfl, ?_, ?_⟩
  · have refused := leases 1
    rcases ran : (Context.lease 1).start _ with ⟨e | _, m⟩
    · rw [ran] at refused
      obtain ⟨-, ⟨reason, rfl⟩, rfl⟩ := refused
      exact ⟨reason, rfl⟩
    · cases ran
  · exact ⟨_, _, rfl, (contexts { target := .sim 0 } [.sim 1] .host).2 _ _ rfl⟩

end

end Tenancy

end TensorGraph
