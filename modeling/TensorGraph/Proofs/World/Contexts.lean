import TensorGraph.Proofs.Executable.Compiled
import TensorGraph.Proofs.Logic.Action

/-! Contexts as they are built: an accelerator comes with a table of its own, and so every location that placement may
choose has one. -/
namespace TensorGraph

open TensorGraph.Action

namespace Context

/-- What opening a target gives: nothing for the host, else a device with the table that is meant for it. -/
def Opens (config : Config) (custom : Option Table) (opened : Option Device × Option Table) : Prop :=
  (config.target = .host ∧ opened = (none, none)) ∨ ∃ id n t, config.target = .sim n ∧
    opened = (some (.sim id n), some t) ∧ t.location = .device n ∧ t = custom.getD (.sim n)

/-- A context with the parts that a configuration, tables and kernels ask for. -/
structure Assembled (c : Context) (config : Config) (tables : List Table) (kernels : Kernels) : Prop where
  sameConfig : c.config = config
  sameKernels : c.kernels = kernels
  hostTable : c.hostTable = (customTables tables).1.getD .host
  opened : Opens config (customTables tables).2 (c.accelerator, c.acceleratorTable)

/-- A context that some configuration led to. -/
def Built (c : Context) : Prop :=
  ∃ config tables kernels m m', (Context.build config tables kernels).start m = (.ok c, m')

section Building

variable {fails : Error → Machine → Prop}

theorem openTarget_opens (config : Config) (custom : Option Table) (m : Machine) :
    (openTarget config custom).Meets m (fun _ _ => True) fun opened _ => Opens config custom opened := by
  unfold openTarget Opens
  cases config.target with
  | host =>
    rw [meets_bind, meets_pure, meets_bind, meets_lift]
    cases custom with
    | some t => trivial
    | none => exact .inl ⟨rfl, rfl⟩
  | cuda n => trivial
  | sim n =>
    have chosen : ∀ m', ((do return (some (.sim m.accelerators.size n),
        ← chooseTable (some (.sim m.accelerators.size n)) custom) :
          Action Machine (Option Device × Option Table))).Meets m' (fun _ _ => True) fun opened _ =>
        (Target.sim n = .host ∧ opened = (none, none)) ∨ ∃ id n' t, Target.sim n = .sim n' ∧
          opened = (some (.sim id n'), some t) ∧ t.location = .device n' ∧ t = custom.getD (.sim n') := by
      intro m'
      rw [meets_bind, meets_lift]
      cases custom with
      | none => exact .inr ⟨_, n, .sim n, rfl, rfl, rfl, rfl⟩
      | some t =>
        unfold chooseTable
        by_cases same : t.location = (Device.sim m.accelerators.size n).location
        · simp only [if_pos same]
          exact .inr ⟨_, n, t, rfl, rfl, same, rfl⟩
        · simp only [if_neg same]
    exact chosen _

/-- A context is assembled as it was asked for. -/
theorem build_assembled (config : Config) (tables : List Table) (kernels : Kernels) (m : Machine) :
    (Context.build config tables kernels).Meets m (fun _ _ => True) fun c _ => c.Assembled config tables kernels := by
  have target : ∀ m, (openTarget config (customTables tables).2).attempt.Meets m (fun _ _ => True)
      fun result _ => ∀ opened, result = .ok opened → Opens config (customTables tables).2 opened := by
    intro m
    rw [meets_attempt]
    refine (openTarget_opens config _ m).mono (fun e _ _ => by rintro _ ⟨⟩) ?_
    rintro opened _ opens _ ⟨⟩
    exact opens
  unfold Context.build
  cases config.target.ordinal? with
  | none =>
    rw [meets_bind]
    refine (target m).post ?_
    rintro (e | opened) m' opens
    · trivial
    · exact ⟨rfl, rfl, rfl, opens opened rfl⟩
  | some n =>
    simp only
    unfold Context.lease
    rw [meets_bind, meets_bind, meets_get, meets_bind, meets_lift]
    cases m.leases.acquire n with
    | error e => trivial
    | ok leases =>
      simp only [meets_modify]
      rw [meets_bind]
      refine (target _).post ?_
      rintro (e | opened) m' opens
      · trivial
      · exact ⟨rfl, rfl, rfl, opens opened rfl⟩

theorem assembled_of_build {config : Config} {tables : List Table} {kernels : Kernels} {c : Context} {m m' : Machine}
    (ran : (Context.build config tables kernels).start m = (.ok c, m')) : c.Assembled config tables kernels :=
  (build_assembled config tables kernels m).of_ok ran

end Building

section Tables

variable {c : Context} {config : Config} {tables : List Table} {kernels : Kernels}

/-- The target is the host exactly if no accelerator was asked for. -/
theorem Assembled.target_host (assembled : c.Assembled config tables kernels) :
    c.target = .host ↔ config.target = .host := by
  rcases assembled.opened with ⟨aimed, none⟩ | ⟨id, n, t, aimed, some, -⟩
  · simp [Context.target, targetDevice, (Prod.mk.inj none).1, Device.location, aimed]
  · simp [Context.target, targetDevice, (Prod.mk.inj some).1, Device.location, aimed]

/-- The device that placement prefers has a table, which is meant for it. -/
theorem Assembled.table_target (assembled : c.Assembled config tables kernels) :
    c.table c.target = .ok c.targetTable := by
  rcases assembled.opened with ⟨-, none⟩ | ⟨id, n, t, -, some, location, -⟩
  · obtain ⟨accelerator, table⟩ := Prod.mk.inj none
    simp [Context.target, targetDevice, targetTable, Context.table, accelerator, table, Device.location]
  · obtain ⟨accelerator, table⟩ := Prod.mk.inj some
    simp [Context.target, targetDevice, targetTable, Context.table, accelerator, table, Device.location, location]

theorem Assembled.table_of_known (assembled : c.Assembled config tables kernels) {l : Location}
    (there : l = .host ∨ l = c.target) : ∃ t, c.table l = .ok t := by
  rcases there with rfl | rfl
  · exact ⟨c.hostTable, by cases c.acceleratorTable <;> rfl⟩
  · exact ⟨_, assembled.table_target⟩

theorem Built.table_target (built : c.Built) : c.table c.target = .ok c.targetTable := by
  obtain ⟨config, tables, kernels, m, m', ran⟩ := built
  exact (assembled_of_build ran).table_target

theorem Built.table_of_known (built : c.Built) {l : Location} (there : l = .host ∨ l = c.target) :
    ∃ t, c.table l = .ok t := by
  obtain ⟨config, tables, kernels, m, m', ran⟩ := built
  exact (assembled_of_build ran).table_of_known there

end Tables

variable [BlockRoutine]

theorem built_first {fallback : Fallback} {memory : Option Nat} : (first (.sim 0) fallback memory).Built :=
  ⟨{ target := .sim 0, fallback, sim := { memory } }, [], .host, {}, _, rfl⟩

end Context

end TensorGraph
