import Mathlib.Data.List.Nodup
import TensorGraph.Config
import TensorGraph.Proofs.Logic.Checked

/-! What one flag can do: it sets one option, in a way that does not depend on the other options, it gives options that
make sense again, and a refusal of it is a configuration error. -/
namespace TensorGraph.Config

open Checked

/-- The options that flags set. -/
inductive Field where
  | target
  | float
  | collect
  | fallback
  | relaxed
  | excluded
  | lanes
  | memory
  | foldLimit
  deriving DecidableEq

/-- The option that a key stands for. Some have two keys. -/
def Field.ofKey? (key : String) : Option Field :=
  match key with
  | "device" => some target
  | "gc" | "garbage_collection" => some collect
  | "fallback" => some fallback
  | "float" | "element_type" => some float
  | "relaxed" | "precision" => some relaxed
  | "exclude" => some excluded
  | "lanes" => some lanes
  | "sim_memory" => some memory
  | "fold_limit" => some foldLimit
  | _ => none

/-- Reads the value of this option into the options. -/
def Field.read (x : Field) (c : Config) (key : String) (value : List Char) : Except Error Config :=
  match x with
  | target => do return { c with target := ← Target.parse value }
  | float => do c.withFloat (← Kind.parse (String.ofList value))
  | collect => do return { c with collect := ← parseSwitch key (String.ofList value) }
  | fallback => do return { c with fallback := ← Fallback.parse (String.ofList value) }
  | relaxed =>
    if String.ofList value = "none" then .ok { c with relaxed := [] }
    else { c with relaxed := [] }.relaxNamed ((Text.split '+' value).map String.ofList)
  | excluded => c.excludeNamed (((Text.split '+' value).filter fun p => !p.isEmpty).map String.ofList)
  | lanes => do return { c with sim.lanes := some (max (← parseNumber key value) 1) }
  | memory => do return { c with sim.memory := some (← parseNumber key value) }
  | foldLimit => do return { c with foldLimit := ← parseNumber key value }

/-- A flag is read by the option that its key stands for, and by no other. -/
theorem set_eq (c : Config) (key : String) (value : List Char) :
    c.set key value =
      match Field.ofKey? key with
      | some x => x.read c key value
      | none => .error (.configuration ("unknown flag `" ++ key ++ "`")) := by
  unfold set Field.ofKey?
  split
  case h_13 => simp [*]
  all_goals rfl

/-- The options `c`, with this one taken from `d`. Excluded passes are added to those that are there. -/
def Field.put (x : Field) (c d : Config) : Config :=
  match x with
  | target => { c with target := d.target }
  | float => { c with float := d.float }
  | collect => { c with collect := d.collect }
  | fallback => { c with fallback := d.fallback }
  | relaxed => { c with relaxed := d.relaxed }
  | excluded => { c with excluded := c.excluded ++ d.excluded }
  | lanes => { c with sim.lanes := d.sim.lanes }
  | memory => { c with sim.memory := d.sim.memory }
  | foldLimit => { c with foldLimit := d.foldLimit }

theorem Field.put_comm {x y : Field} (differ : x ≠ y) (c d e : Config) :
    y.put (x.put c d) e = x.put (y.put c e) d := by
  cases x <;> cases y <;> first | rfl | exact absurd rfl differ

section Put

variable {c d : Config}

theorem relaxNamed_eq_put (same : c.relaxed = d.relaxed) (names : List String) :
    c.relaxNamed names = Field.relaxed.put c <$> d.relaxNamed names := by
  induction names generalizing c d with
  | nil =>
    refine congrArg Except.ok ?_
    rw [Field.put, ← same]
  | cons name names ih =>
    simp only [relaxNamed, map_bind]
    refine bind_congr fun r => ?_
    have added : (c.relax r).relaxed = (d.relax r).relaxed := by
      unfold relax
      rw [same]
      split
      · exact same
      · rfl
    have elsewhere : Field.relaxed.put (c.relax r) = Field.relaxed.put c := by
      unfold relax
      split <;> rfl
    rw [ih added, elsewhere]

theorem excludeNamed_eq_put (none : d.excluded = []) (names : List String) :
    c.excludeNamed names = Field.excluded.put c <$> d.excludeNamed names := by
  induction names generalizing c d with
  | nil =>
    refine congrArg Except.ok ?_
    rw [Field.put, none, List.append_nil]
  | cons name names ih =>
    simp only [excludeNamed]
    split
    · rfl
    · have onto (b : Config) := ih (c := b.exclude name) (d := {}) rfl
      rw [onto c, onto d, ← comp_map]
      refine congrArg (· <$> _) (funext fun e => ?_)
      simp [Field.put, exclude, none]

theorem Field.read_eq_put (x : Field) (key : String) (value : List Char) :
    x.read c key value = x.put c <$> x.read {} key value := by
  cases x with
  | float =>
    simp only [read, map_bind]
    refine bind_congr fun kind => ?_
    unfold withFloat
    split <;> rfl
  | relaxed =>
    simp only [read]
    split
    · rfl
    · exact relaxNamed_eq_put (c := { c with relaxed := [] }) (d := { ({} : Config) with relaxed := [] }) rfl _
  | excluded => exact excludeNamed_eq_put rfl _
  | target | collect | fallback | lanes | memory | foldLimit =>
    simp only [read, map_bind]
    exact bind_congr fun _ => rfl

end Put

/-- Options that a compilation can work with. -/
structure Sensible (c : Config) : Prop where
  float : c.float.isFloat
  lanes : ∀ processors, 1 ≤ c.sim.laneCount processors
  relaxed : c.relaxed.Nodup
  excluded : ∀ name ∈ c.excluded, ∃ pass : PassName, pass.name = name

theorem sensible_default : Sensible {} := ⟨rfl, fun n => Nat.le_max_left 1 (min n 4), List.nodup_nil, nofun⟩

section Sensible

variable {c c' : Config}

theorem Sensible.relax (sensible : c.Sensible) (r : Relaxation) : (c.relax r).Sensible := by
  unfold Config.relax
  split
  · exact sensible
  · rename_i new
    have alone : ∀ s ∈ c.relaxed, s ≠ r := fun s member same => new (List.contains_iff_mem.mpr (same ▸ member))
    refine { sensible with relaxed := List.nodup_append.mpr ⟨sensible.relaxed, List.nodup_singleton r, ?_⟩ }
    intro s member t isNew
    exact List.mem_singleton.mp isNew ▸ alone s member

theorem Sensible.relaxNamed {names : List String} (sensible : c.Sensible) (ran : c.relaxNamed names = .ok c') :
    c'.Sensible := by
  induction names generalizing c with
  | nil =>
    cases ran
    exact sensible
  | cons name names ih =>
    obtain ⟨r, -, rest⟩ := bind_eq_ok.mp ran
    exact ih (sensible.relax r) rest

theorem Sensible.excludeNamed {names : List String} (sensible : c.Sensible) (ran : c.excludeNamed names = .ok c') :
    c'.Sensible := by
  induction names generalizing c with
  | nil =>
    cases ran
    exact sensible
  | cons name names ih =>
    unfold Config.excludeNamed at ran
    split at ran
    · cases ran
    · rename_i known
      obtain ⟨pass, found⟩ : ∃ pass, PassName.ofName? name = some pass :=
        Option.ne_none_iff_exists'.mp fun none => known (Option.isNone_iff_eq_none.mpr none)
      have named : pass.name = name := beq_iff_eq.mp (List.find?_some (p := fun p : PassName => p.name == name) found)
      have added : (c.exclude name).Sensible := { sensible with
        excluded := fun other member => by
          rcases List.mem_append.mp member with before | new
          · exact sensible.excluded other before
          · exact ⟨pass, named.trans (List.mem_singleton.mp new).symm⟩ }
      exact ih added ran

/-- One flag leads from options that make sense to such options. -/
theorem Sensible.read {x : Field} {key : String} {value : List Char} (sensible : c.Sensible)
    (ran : x.read c key value = .ok c') : c'.Sensible := by
  cases x with
  | float =>
    obtain ⟨kind, -, accepted⟩ := bind_eq_ok.mp ran
    unfold withFloat at accepted
    split at accepted <;> cases accepted
    rename_i isFloat
    exact { sensible with float := isFloat }
  | relaxed =>
    have cleared : ({ c with relaxed := [] } : Config).Sensible := { sensible with relaxed := List.nodup_nil }
    simp only [Field.read] at ran
    split at ran
    · cases ran
      exact cleared
    · exact cleared.relaxNamed ran
  | excluded => exact sensible.excludeNamed ran
  | lanes =>
    obtain ⟨n, -, made⟩ := bind_eq_ok.mp ran
    cases made
    exact { sensible with lanes := fun _ => Nat.le_max_right n 1 }
  | target | collect | fallback | memory | foldLimit =>
    obtain ⟨_, -, made⟩ := bind_eq_ok.mp ran
    cases made
    exact { sensible with }

end Sensible

/-- Whatever goes wrong is a wrong option. -/
def Refuses {α : Type} (r : Except Error α) : Prop := ∀ e, r = .error e → ∃ reason, e = .configuration reason

section Refuses

variable {α β : Type} {r : Except Error α}

theorem Refuses.ok (a : α) : Refuses (.ok a : Except Error α) := nofun

theorem Refuses.error (reason : String) : Refuses (.error (.configuration reason) : Except Error α) := by
  rintro e ⟨⟩
  exact ⟨reason, rfl⟩

theorem Refuses.bind (refuses : Refuses r) {f : α → Except Error β} (next : ∀ a, Refuses (f a)) :
    Refuses (r >>= f) := by
  intro e failed
  rcases bind_eq_error.mp failed with first | ⟨a, -, later⟩
  · exact refuses e first
  · exact next a e later

theorem refuses_target (value : List Char) : Refuses (Target.parse value) := by
  unfold Target.parse
  split <;> first | exact .ok _ | exact .error _

theorem refuses_fallback (word : String) : Refuses (Fallback.parse word) := by
  unfold Fallback.parse
  split <;> first | exact .ok _ | exact .error _

theorem refuses_kind (word : String) : Refuses (Kind.parse word) := by
  unfold Kind.parse
  split <;> first | exact .ok _ | exact .error _

theorem refuses_switch (key word : String) : Refuses (parseSwitch key word) := by
  unfold parseSwitch
  split <;> first | exact .ok _ | exact .error _

theorem refuses_number (key : String) (value : List Char) : Refuses (parseNumber key value) := by
  unfold parseNumber
  split <;> first | exact .ok _ | exact .error _

theorem refuses_relaxation (word : String) : Refuses (Relaxation.parse word) := by
  unfold Relaxation.parse
  split <;> first | exact .ok _ | exact .error _

theorem refuses_relaxNamed (c : Config) (names : List String) : Refuses (c.relaxNamed names) := by
  induction names generalizing c with
  | nil => exact .ok _
  | cons name names ih => exact (refuses_relaxation name).bind fun r => ih (c.relax r)

theorem refuses_excludeNamed (c : Config) (names : List String) : Refuses (c.excludeNamed names) := by
  induction names generalizing c with
  | nil => exact .ok _
  | cons name names ih =>
    unfold excludeNamed
    split
    · exact .error _
    · exact ih (c.exclude name)

theorem refuses_read (x : Field) (c : Config) (key : String) (value : List Char) : Refuses (x.read c key value) := by
  cases x with
  | target => exact (refuses_target value).bind fun _ => .ok _
  | float =>
    refine (refuses_kind _).bind fun kind => ?_
    unfold withFloat
    split <;> first | exact .ok _ | exact .error _
  | collect => exact (refuses_switch key _).bind fun _ => .ok _
  | fallback => exact (refuses_fallback _).bind fun _ => .ok _
  | relaxed =>
    simp only [Field.read]
    split
    · exact .ok _
    · exact refuses_relaxNamed _ _
  | excluded => exact refuses_excludeNamed _ _
  | lanes | memory | foldLimit => exact (refuses_number key value).bind fun _ => .ok _

end Refuses

end TensorGraph.Config
