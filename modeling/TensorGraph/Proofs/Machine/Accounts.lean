import Mathlib.Algebra.BigOperators.Group.Finset.Basic
import Mathlib.Algebra.Order.BigOperators.Group.Finset
import TensorGraph.Proofs.Logic.Invariant
import TensorGraph.Proofs.Machine.Accelerator

/-! The counter of a device memory. It counts the bytes of the blocks that live, and a block lives as long as somebody
refers to it: a slot, a handle, or a launch that has not finished. -/
namespace TensorGraph

open TensorGraph.Action

/-- Whatever comes of an action, it keeps what is so. -/
abbrev Action.Preserves {σ α : Type} (act : Action σ α) (inv : σ → Prop) : Prop :=
  act.Keeps inv (fun _ => True) fun _ => True

theorem Action.Preserves.always {σ α : Type} {act : Action σ α} {inv : σ → Prop} (preserves : act.Preserves inv)
    {s s' : σ} (held : inv s) {result : Except Error α} (ran : act.start s = (result, s')) : inv s' :=
  ((preserves s held).mono (fun _ _ kept => kept.2) fun _ _ kept => kept.2).always ran

theorem Action.preserves_lift {σ α : Type} (x : Except Error α) (inv : σ → Prop) :
    (liftM x : Action σ α).Preserves inv := keeps_lift (fun _ _ => trivial) fun _ _ => trivial

namespace Memory

variable {m m' m'' : Memory} {b : BlockId} {limit : Option Nat}

/-- Bytes of a block, none when it is gone. -/
def bytesOf (m : Memory) (b : BlockId) : Nat := ((m.get? b).map Block.bytes).getD 0

/-- A new block of so many bytes is within the limit. -/
def Fits (m : Memory) (limit : Option Nat) (bytes : Nat) : Prop := ∀ most, limit = some most → m.inUse + bytes ≤ most

/-- The counter counts the blocks that live and is within the limit, and every block that lives is held. -/
structure Accounted (m : Memory) (limit : Option Nat) : Prop where
  total : m.inUse = ∑ b ∈ Finset.range m.next, m.bytesOf b
  held : ∀ {b : BlockId} {block : Block}, m.get? b = some block → 0 < block.holders
  fits : m.Fits limit 0

/-- A later state of a memory. Blocks may have come and gone, but what is left of the older ones has its size. -/
structure Continues (m : Memory) (limit : Option Nat) (m' : Memory) : Prop where
  accounted : m.Accounted limit → m'.Accounted limit
  next : m.next ≤ m'.next
  older : ∀ {b : BlockId} {block : Block}, b < m.next → m'.get? b = some block →
    ∃ old, m.get? b = some old ∧ block.bytes = old.bytes

/-- The counter is the bytes of the blocks that somebody refers to, which are those that live. -/
structure Exact (m : Memory) (limit : Option Nat) (refs : BlockId → Nat) : Prop where
  live : ∀ b, (m.get? b).isSome ↔ 0 < refs b
  total : m.inUse = ∑ b ∈ Finset.range m.next with 0 < refs b, m.bytesOf b
  fits : ∀ most, limit = some most → m.inUse ≤ most

theorem accounted_empty : Accounted {} limit where
  total := rfl
  held {b block} at_ := by cases at_
  fits _ _ := Nat.zero_le _

theorem bytesOf_none (gone : m.get? b = none) : m.bytesOf b = 0 := by
  rw [bytesOf, gone]
  rfl

theorem bytesOf_some {block : Block} (at_ : m.get? b = some block) : m.bytesOf b = block.bytes := by
  rw [bytesOf, at_]
  rfl

theorem get?_beyond (beyond : m.next ≤ b) : m.get? b = none := by
  cases at_ : m.get? b with
  | none => rfl
  | some block => exact absurd (lt_of_get? at_) (Nat.not_lt.mpr beyond)

theorem holders_pos (accounted : m.Accounted limit) : (m.get? b).isSome ↔ 0 < m.holders b := by
  rw [holders_eq]
  cases at_ : m.get? b with
  | none => simp
  | some block => simpa using accounted.held at_

/-- Where the books of holders are kept, the counter counts what somebody refers to. -/
theorem Accounted.exact (accounted : m.Accounted limit) {refs : BlockId → Nat} (held : ∀ b, m.holders b = refs b) :
    m.Exact limit refs where
  live b := by rw [holders_pos accounted, held]
  total := by
    rw [accounted.total, Finset.sum_filter]
    refine Finset.sum_congr rfl fun b _ => ?_
    split
    · rfl
    · rename_i unheld
      rw [← held, ← holders_pos accounted, Option.not_isSome_iff_eq_none] at unheld
      exact bytesOf_none unheld
  fits := accounted.fits

/-- A sum in which one term has changed. -/
theorem sum_changed {n k : Nat} (inside : k < n) {f g : Nat → Nat} (others : ∀ i, i ≠ k → g i = f i) :
    ∑ i ∈ Finset.range n, g i + f k = ∑ i ∈ Finset.range n, f i + g k := by
  have before := Finset.add_sum_erase (Finset.range n) (fun i => f i) (Finset.mem_range.mpr inside)
  have after := Finset.add_sum_erase (Finset.range n) (fun i => g i) (Finset.mem_range.mpr inside)
  have rest : ∑ i ∈ (Finset.range n).erase k, g i = ∑ i ∈ (Finset.range n).erase k, f i :=
    Finset.sum_congr rfl fun i left => others i (Finset.ne_of_mem_erase left)
  omega

/-- The counter follows the size of the one block that has changed. -/
theorem Accounted.total_changed (accounted : m.Accounted limit)
    (others : ∀ b', b' ≠ b → m'.bytesOf b' = m.bytesOf b') (beyond : m.next ≤ b → m'.bytesOf b = 0)
    (next : m'.next = m.next)
    (counted : m.bytesOf b ≤ m.inUse → m'.inUse + m.bytesOf b = m.inUse + m'.bytesOf b) :
    m'.inUse = ∑ b' ∈ Finset.range m'.next, m'.bytesOf b' := by
  have total := accounted.total
  rw [next]
  by_cases inside : b < m.next
  · have least : m.bytesOf b ≤ m.inUse := by
      rw [total]
      exact Finset.single_le_sum (f := m.bytesOf) (fun _ _ => Nat.zero_le _) (Finset.mem_range.mpr inside)
    have changed := sum_changed inside others
    have counted := counted least
    omega
  · have outside := Nat.not_lt.mp inside
    have none : m.bytesOf b = 0 := bytesOf_none (get?_beyond outside)
    have counted := counted (none ▸ Nat.zero_le _)
    rw [none, beyond outside] at counted
    rw [Nat.add_right_cancel counted, total]
    refine Finset.sum_congr rfl fun b' there => (others b' ?_).symm
    rintro rfl
    exact inside (Finset.mem_range.mp there)

namespace Continues

theorem refl (m : Memory) : m.Continues limit m := ⟨id, Nat.le_refl _, fun {_ block} _ at_ => ⟨block, at_, rfl⟩⟩

theorem trans (first : m.Continues limit m') (second : m'.Continues limit m'') : m.Continues limit m'' where
  accounted := second.accounted ∘ first.accounted
  next := Nat.le_trans first.next second.next
  older old at_ := by
    obtain ⟨block', at', same'⟩ := second.older (Nat.lt_of_lt_of_le old first.next) at_
    obtain ⟨block, at_, same⟩ := first.older old at'
    exact ⟨block, at_, same'.trans same⟩

/-- An operation on one block, which keeps its size and its life unless it frees it. -/
theorem of_update (change : Block → Option Block)
    (changes : ∀ b', m'.get? b' = if b' = b then (m.get? b).bind change else m.get? b')
    (keeps : ∀ {block new}, change block = some new → new.bytes = block.bytes ∧ (0 < block.holders → 0 < new.holders))
    (next : m'.next = m.next) (lower : m'.inUse ≤ m.inUse)
    (counted : m.bytesOf b ≤ m.inUse → m'.inUse + m.bytesOf b = m.inUse + m'.bytesOf b) :
    m.Continues limit m' := by
  have older : ∀ {b' : BlockId} {block : Block}, m'.get? b' = some block → ∃ old, m.get? b' = some old ∧
      block.bytes = old.bytes ∧ (0 < old.holders → 0 < block.holders) := by
    intro b' block at_
    rw [changes] at at_
    split at at_
    · rename_i same
      obtain ⟨old, at_, new⟩ := Option.bind_eq_some_iff.mp at_
      exact ⟨old, same ▸ at_, keeps new⟩
    · exact ⟨block, at_, rfl, id⟩
  have others : ∀ b', b' ≠ b → m'.bytesOf b' = m.bytesOf b' := fun b' other => by
    rw [bytesOf, changes, if_neg other]
    rfl
  refine ⟨fun accounted => ⟨accounted.total_changed others (fun beyond => ?_) next counted, fun {b' block} at_ => ?_,
    fun most isLimit => ?_⟩, Nat.le_of_eq next.symm, fun _ at_ => ?_⟩
  · rw [bytesOf, changes, if_pos rfl, get?_beyond beyond]
    rfl
  · obtain ⟨old, at_, -, lives⟩ := older at_
    exact lives (accounted.held at_)
  · exact Nat.le_trans (Nat.add_le_add_right lower 0) (accounted.fits most isLimit)
  · obtain ⟨old, at_, same, -⟩ := older at_
    exact ⟨old, at_, same⟩

/-- What changes a block, but neither its size nor its life. -/
theorem of_change (change : Block → Block)
    (changes : ∀ b', m'.get? b' = if b' = b then (m.get? b).map change else m.get? b')
    (bytes : ∀ block, (change block).bytes = block.bytes)
    (holders : ∀ block, block.holders ≤ (change block).holders) (next : m'.next = m.next)
    (inUse : m'.inUse = m.inUse) : m.Continues limit m' := by
  refine of_update (some ∘ change) (fun b' => by rw [changes, Option.map_eq_bind]) ?_ next (Nat.le_of_eq inUse) ?_
  · rintro block _ ⟨⟩
    exact ⟨bytes block, fun held => Nat.lt_of_lt_of_le held (holders block)⟩
  · intro _
    have size : m'.bytesOf b = m.bytesOf b := by
      rw [bytesOf, changes, if_pos rfl, Option.map_map]
      exact congrArg (fun f => ((m.get? b).map f).getD 0) (funext bytes)
    rw [inUse, size]

theorem retain (b : BlockId) : m.Continues limit (m.retain b) := by
  refine of_change _ (fun _ => get?_retain) (fun _ => rfl) (fun _ => Nat.le_succ _) next_retain ?_
  unfold Memory.retain
  split <;> rfl

theorem write (b : BlockId) (data : Data) : m.Continues limit (m.write b data) := by
  refine of_change _ (fun _ => get?_write data) (fun _ => rfl) (fun _ => Nat.le_refl _) (next_write data) ?_
  unfold Memory.write
  split <;> rfl

theorem damage (b : BlockId) : m.Continues limit (m.damage b) := by
  refine of_change _ (fun _ => get?_damage) (fun _ => rfl) (fun _ => Nat.le_refl _) next_damage ?_
  unfold Memory.damage
  split <;> rfl

/-- The last holder takes the bytes of the block along. -/
theorem release (b : BlockId) : m.Continues limit (m.release b) := by
  refine of_update _ (fun _ => get?_release) ?_ next_release ?_ ?_
  · intro block new changed
    split at changed
    · cases changed
    · rename_i several
      cases changed
      exact ⟨rfl, fun _ => Nat.sub_pos_of_lt (Nat.not_le.mp several)⟩
  · unfold Memory.release
    split
    · split
      · exact Nat.sub_le _ _
      · exact Nat.le_refl _
    · exact Nat.le_refl _
  · intro least
    have now : (m.release b).get? b = (m.get? b).bind fun block =>
        if block.holders ≤ 1 then none else some { block with holders := block.holders - 1 } := by
      rw [get?_release, if_pos rfl]
    cases at_ : m.get? b with
    | none =>
      rw [at_] at now
      rw [bytesOf_none at_, bytesOf_none now, Memory.release, at_]
    | some block =>
      rw [at_, Option.bind_some] at now
      rw [bytesOf_some at_] at least ⊢
      by_cases last : block.holders ≤ 1
      · rw [if_pos last] at now
        rw [bytesOf_none now]
        simp only [Memory.release, at_, last, ↓reduceIte]
        exact Nat.sub_add_cancel least
      · rw [if_neg last] at now
        rw [bytesOf_some now]
        simp only [Memory.release, at_, last, ↓reduceIte]
        rfl

/-- A block that fits is counted. -/
theorem alloc {kind : Kind} {n : Nat} (fits : m.Fits limit (n * kind.bytes)) :
    m.Continues limit (m.alloc kind n) where
  accounted accounted := by
    refine ⟨?_, fun {b block} at_ => ?_, fits⟩
    · have new : (m.alloc kind n).bytesOf m.next = n * kind.bytes := by
        rw [bytesOf, get?_alloc, if_pos rfl]
        rfl
      have old : ∀ b ∈ Finset.range m.next, (m.alloc kind n).bytesOf b = m.bytesOf b := fun b inside => by
        rw [bytesOf, get?_alloc, if_neg (Nat.ne_of_lt (Finset.mem_range.mp inside))]
        rfl
      rw [next_alloc, Finset.sum_range_succ, new, Finset.sum_congr rfl old, ← accounted.total]
      rfl
    · rw [get?_alloc] at at_
      split at at_
      · cases at_
        exact Nat.one_pos
      · exact accounted.held at_
  next := by
    rw [next_alloc]
    exact Nat.le_succ _
  older {b block} old at_ := by
    rw [get?_alloc, if_neg (Nat.ne_of_lt old)] at at_
    exact ⟨block, at_, rfl⟩

/-- Where nothing is left but older blocks, the counter is not higher than it was. -/
theorem inUse_le (continues : m.Continues limit m') (accounted : m.Accounted limit)
    (left : ∀ b, m.next ≤ b → m'.get? b = none) : m'.inUse ≤ m.inUse := by
  have sizes : ∀ b ∈ Finset.range m.next, m'.bytesOf b ≤ m.bytesOf b := fun b inside => by
    cases at_ : m'.get? b with
    | none =>
      rw [bytesOf_none at_]
      exact Nat.zero_le _
    | some block =>
      obtain ⟨old, there, same⟩ := continues.older (Finset.mem_range.mp inside) at_
      rw [bytesOf_some at_, bytesOf_some there, same]
  calc m'.inUse = ∑ b ∈ Finset.range m'.next, m'.bytesOf b := (continues.accounted accounted).total
    _ = ∑ b ∈ Finset.range m.next, m'.bytesOf b := by
      refine (Finset.sum_subset (Finset.range_mono continues.next) fun b _ new => bytesOf_none ?_).symm
      exact left b (Nat.not_lt.mp fun old => new (Finset.mem_range.mpr old))
    _ ≤ ∑ b ∈ Finset.range m.next, m.bytesOf b := Finset.sum_le_sum sizes
    _ = m.inUse := accounted.total.symm

end Continues

section Holders

theorem holders_alloc (kind : Kind) (n : Nat) :
    (m.alloc kind n).holders b = m.holders b + if b = m.next then 1 else 0 := by
  rw [holders_eq, holders_eq, get?_alloc]
  split
  · rename_i new
    rw [new, get?_next]
    rfl
  · rfl

theorem holders_retain {b' : BlockId} (held : 0 < m.holders b) :
    (m.retain b).holders b' = m.holders b' + if b' = b then 1 else 0 := by
  rw [holders_eq, holders_eq, get?_retain]
  by_cases same : b' = b
  · subst same
    rw [holders_eq] at held
    cases at_ : m.get? b' with
    | none => simp [at_] at held
    | some block => simp
  · simp [same]

theorem holders_release {b' : BlockId} : (m.release b).holders b' = m.holders b' - if b' = b then 1 else 0 := by
  rw [holders_eq, holders_eq, get?_release]
  by_cases same : b' = b
  · subst same
    cases m.get? b' with
    | none => simp
    | some block =>
      by_cases last : block.holders ≤ 1
      · simp [last]
      · simp [last]
  · simp [same]

/-- Several references to blocks that live. -/
theorem retained_spec (limit : Option Nat) (bs : List BlockId) (held : ∀ b ∈ bs, 0 < m.holders b) :
    m.Continues limit (bs.foldl Memory.retain m) ∧
      ∀ b, (bs.foldl Memory.retain m).holders b = m.holders b + bs.count b := by
  induction bs generalizing m with
  | nil => exact ⟨.refl m, fun _ => rfl⟩
  | cons b' bs ih =>
    have here := held b' (List.mem_cons_self ..)
    obtain ⟨continues, holders⟩ := ih (m := m.retain b') fun b member => by
      rw [holders_retain here]
      exact Nat.add_pos_left (held b (List.mem_cons_of_mem _ member)) _
    refine ⟨(Continues.retain b').trans continues, fun b => (holders b).trans ?_⟩
    rw [holders_retain here, List.count_cons]
    simp only [beq_iff_eq, eq_comm (a := b)]
    omega

theorem released_spec (limit : Option Nat) (bs : List BlockId) : m.Continues limit (bs.foldl Memory.release m) ∧
    ∀ b, (bs.foldl Memory.release m).holders b = m.holders b - bs.count b := by
  induction bs generalizing m with
  | nil => exact ⟨.refl m, fun _ => rfl⟩
  | cons b' bs ih =>
    obtain ⟨continues, holders⟩ := ih (m := m.release b')
    refine ⟨(Continues.release b').trans continues, fun b => (holders b).trans ?_⟩
    rw [holders_release, List.count_cons]
    simp only [beq_iff_eq, eq_comm (a := b)]
    omega

end Holders

theorem holders_write (data : Data) {b' : BlockId} : (m.write b data).holders b' = m.holders b' := by
  rw [holders_eq, holders_eq, get?_write]
  split
  · rename_i same
    rw [same, Option.map_map]
    rfl
  · rfl

theorem holders_damage {b' : BlockId} : (m.damage b).holders b' = m.holders b' := by
  rw [holders_eq, holders_eq, get?_damage]
  split
  · rename_i same
    rw [same, Option.map_map]
    rfl
  · rfl

end Memory

namespace Accelerator

variable {a a' a'' : Accelerator}

/-- A later state of an accelerator, whose limit is what it was. -/
structure Continues (a a' : Accelerator) : Prop where
  limit : a'.limit = a.limit
  memory : a.memory.Continues a.limit a'.memory

/-- A later state in which every block has the holders that it had. -/
structure Steady (a a' : Accelerator) : Prop extends a.Continues a' where
  holders : ∀ b, a'.memory.holders b = a.memory.holders b

/-- The counter of an accelerator is right. -/
def Accounted (a : Accelerator) : Prop := a.memory.Accounted a.limit

theorem Continues.refl (a : Accelerator) : a.Continues a := ⟨rfl, .refl _⟩

theorem Continues.trans (first : a.Continues a') (second : a'.Continues a'') : a.Continues a'' where
  limit := second.limit.trans first.limit
  memory := first.memory.trans (first.limit ▸ second.memory)

theorem Continues.accounted (continues : a.Continues a') (accounted : a.Accounted) : a'.Accounted := by
  rw [Accounted, continues.limit]
  exact continues.memory.accounted accounted

theorem Continues.of_memory {m : Memory} (continues : a.memory.Continues a.limit m) :
    a.Continues { a with memory := m } := ⟨rfl, continues⟩

theorem steady_of_same (limit : a'.limit = a.limit) (memory : a'.memory = a.memory) : a.Steady a' :=
  ⟨⟨limit, memory ▸ .refl _⟩, fun _ => by rw [memory]⟩

theorem Steady.refl (a : Accelerator) : a.Steady a := steady_of_same rfl rfl

theorem Steady.trans (first : a.Steady a') (second : a'.Steady a'') : a.Steady a'' :=
  ⟨first.toContinues.trans second.toContinues, fun b => (second.holders b).trans (first.holders b)⟩

/-- What is granted stays within the limit. -/
theorem Grants.fits {kind : Kind} {n : Nat} (grants : a.Grants kind n) : a.memory.Fits a.limit (n * kind.bytes) := by
  intro most limited
  have admits := grants.admits
  unfold refusal? at admits
  rw [if_neg (Nat.not_le.mpr (bytes_lt_word grants.room kind)), limited, Option.bind_some] at admits
  split at admits
  · cases admits
  · by_contra beyond
    rw [if_pos (Nat.not_le.mp beyond)] at admits
    cases admits

/-- What was granted is granted where less is in use. -/
theorem Grants.lower {kind : Kind} {n : Nat} (grants : a.Grants kind n) (limit : a'.limit = a.limit)
    (lower : a'.memory.inUse ≤ a.memory.inUse) (alive : a'.knowsLoss = false) : a'.Grants kind n where
  alive := alive
  room := grants.room
  admits := by
    have fits := grants.fits
    have admits := grants.admits
    unfold refusal? at admits ⊢
    rw [if_neg (Nat.not_le.mpr (bytes_lt_word grants.room kind))] at admits ⊢
    rw [limit]
    cases limited : a.limit with
    | none => rfl
    | some most =>
      have within := fits most limited
      rw [limited, Option.bind_some] at admits
      rw [Option.bind_some]
      split at admits
      · cases admits
      · rw [if_neg (by omega), if_neg (by omega)]

section Works

variable {a₀ : Accelerator} {b : BlockId} {l : Launch BlockId} {fails : Error → Prop}

theorem checkAlive_steady (op : String) : (checkAlive op).Preserves a₀.Steady :=
  keeps_get.bind fun _ _ => keeps_ite (fun _ => keeps_throw trivial) fun _ => keeps_pure trivial

theorem steady_write (a : Accelerator) (b : BlockId) (data : Data) :
    a.Steady { a with memory := a.memory.write b data } :=
  ⟨.of_memory (.write b data), fun _ => Memory.holders_write data⟩

theorem steady_damage (a : Accelerator) (b : BlockId) : a.Steady { a with memory := a.memory.damage b } :=
  ⟨.of_memory (.damage b), fun _ => Memory.holders_damage⟩

/-- A launch writes its output or spoils it. -/
theorem run_steady (a : Accelerator) (id : LaunchId) (l : Launch BlockId) (deps : List LaunchId) :
    a.Steady (a.run id l deps).2 := by
  unfold run
  split
  · exact .refl a
  · split
    · exact steady_of_same rfl rfl
    · exact .refl a
  · split
    · exact .refl a
    split
    · exact .refl a
    split
    · exact steady_write a _ _
    · exact steady_damage a _
    · exact .refl a

/-- A launch that was delayed writes its output or spoils it. -/
theorem land_steady (a : Accelerator) (d : Delayed) : a.Steady (a.land d) :=
  (run_steady a d.id d.launch d.deps).trans (steady_of_same rfl rfl)

theorem landAll_steady (a : Accelerator) : a.Steady a.landAll :=
  (List.foldlRecOn a.delayed land (motive := a.Steady) (.refl a) fun a' steady d _ =>
    steady.trans (land_steady a' d)).trans (steady_of_same rfl rfl)

theorem await_steady (a : Accelerator) (ls : List LaunchId) : a.Steady (a.await ls) := by
  unfold await
  split
  · exact landAll_steady a
  · exact .refl a

theorem settle_steady (ls : List LaunchId) : (settle ls).Preserves a₀.Steady := by
  refine keeps_modify fun a steady => ?_
  refine (steady.trans (await_steady a ls)).trans ?_
  simp only
  split
  · exact steady_of_same rfl rfl
  · exact .refl _

theorem wait_steady (ls : List LaunchId) : (wait ls).Preserves a₀.Steady := by
  refine (settle_steady ls).andThen fun _ => keeps_get.bind fun a _ => ?_
  cases a.firstFailure? ls with
  | none => exact keeps_pure trivial
  | some f => exact keeps_throw trivial

theorem contents_steady (b : BlockId) : (contents b).Preserves a₀.Steady := by
  refine keeps_get.bind fun a _ => ?_
  cases a.memory.get? b with
  | none => exact keeps_throw trivial
  | some block =>
    exact keeps_ite (fun _ => Keeps.andThen (keeps_throw trivial) fun _ => keeps_pure trivial) fun _ =>
      keeps_pure trivial

theorem upload_steady (source : Data) (n : Nat) (b : BlockId) : (upload source n b).Preserves a₀.Steady := by
  refine keeps_get.bind fun a _ => (settle_steady _).andThen fun _ => (contents_steady b).andThen fun data => ?_
  refine (preserves_lift _ _).andThen fun data => keeps_modify fun a steady => ?_
  exact (steady.trans (steady_write a b data)).trans (steady_of_same rfl rfl)

theorem download_steady (b : BlockId) (n : Nat) : (download b n).Preserves a₀.Steady := by
  refine keeps_get.bind fun a _ => (wait_steady _).andThen fun _ => (contents_steady b).andThen fun data => ?_
  exact preserves_lift _ _

theorem settleBlock_steady (b : BlockId) : (settleBlock b).Preserves a₀.Steady :=
  keeps_get.bind fun _ _ => wait_steady _

theorem synchronize_steady : synchronize.Preserves a₀.Steady := by
  refine keeps_get.bind fun a _ => (keeps_modify fun a steady => ?_).andThen fun _ =>
    (wait_steady _).andThen fun _ => checkAlive_steady _
  exact steady.trans (steady_of_same rfl rfl)

theorem push_steady (a : Accelerator) (l : Launch BlockId) : a.Steady (a.push l) := by
  have recorded : a.Steady (a.record l) := steady_of_same rfl rfl
  unfold push
  simp only
  split
  · exact recorded.trans (steady_of_same rfl rfl)
  · exact recorded.trans (land_steady _ _)

theorem dispatch_steady (l : Launch BlockId) : (dispatch l).Preserves a₀.Steady :=
  (checkAlive_steady _).andThen fun _ => keeps_modify fun a steady => steady.trans (push_steady a l)

/-- What moves no holder continues the device. -/
theorem continues_of_steady {α : Type} {act : Action Accelerator α}
    (steady : ∀ a : Accelerator, act.Preserves a.Steady) : act.Preserves a₀.Continues := fun a continues =>
  (steady a a (.refl a)).mono (fun _ _ kept => ⟨trivial, continues.trans kept.2.toContinues⟩)
    fun _ _ kept => ⟨trivial, continues.trans kept.2.toContinues⟩

theorem alloc_continues (kind : Kind) {n : Nat} (room : n < Shape.capacity) :
    (alloc kind n).Preserves a₀.Continues := fun a continues => by
  refine (alloc_decides a kind n).mono ?_ ?_
  · rintro e _ ⟨-, ⟨rfl, -⟩ | ⟨-, beyond, -⟩⟩
    · exact ⟨trivial, continues⟩
    · exact absurd room (Nat.not_lt.mpr beyond)
  · rintro b _ ⟨grants, -, rfl⟩
    exact ⟨trivial, continues.trans (.of_memory (.alloc grants.fits))⟩

end Works

end Accelerator

end TensorGraph
