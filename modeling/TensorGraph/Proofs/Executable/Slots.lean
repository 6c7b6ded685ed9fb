import TensorGraph.Executable.Call
import TensorGraph.Proofs.Machine.Device

/-! The slots of an executable. Every block has as many holders as slots and others refer to it, so a block
with one holder is written without harm to anybody else. -/
namespace TensorGraph

open TensorGraph.Action

/-- The buffer is in a block. -/
def Buffer.isIn (k : Key) : Option Buffer → Bool
  | some (.owned r) => r.key == k
  | _ => false

/-- One for the buffer of a block. -/
def Buffer.hold (b : Option Buffer) (k : Key) : Nat := if Buffer.isIn k b then 1 else 0

namespace Frame

variable {f : Frame} {slot x : SlotId} {b : Option Buffer} {k : Key}

/-- Number of slots that hold a buffer in a block. -/
def refs (f : Frame) (k : Key) : Nat := f.slots.countP (Buffer.isIn k)

theorem inside_of_buffer {b : Buffer} (at_ : f.buffer? slot = some b) : slot < f.slots.size := by
  unfold buffer? at at_
  rw [Option.join_eq_some_iff] at at_
  exact (Array.getElem?_eq_some_iff.mp at_).1

theorem buffer?_set (inside : slot < f.slots.size) :
    ({ f with slots := f.slots.setIfInBounds slot b } : Frame).buffer? x =
      if x = slot then b else f.buffer? x := by
  unfold buffer?
  rw [Array.getElem?_setIfInBounds]
  by_cases same : x = slot
  · subst same
    simp [inside]
  · simp [same, Ne.symm same]

/-- What a slot held is exchanged for what it holds now. -/
theorem refs_set (inside : slot < f.slots.size) :
    ({ f with slots := f.slots.setIfInBounds slot b } : Frame).refs k + Buffer.hold (f.buffer? slot) k =
      f.refs k + Buffer.hold b k := by
  have here : f.buffer? slot = f.slots[slot] := by simp [buffer?, inside]
  have least : (if Buffer.isIn k f.slots[slot] then 1 else 0) ≤ f.slots.countP (Buffer.isIn k) := by
    split
    · rename_i isIn
      exact Array.countP_pos_iff.mpr ⟨f.slots[slot], Array.getElem_mem inside, isIn⟩
    · exact Nat.zero_le _
  simp only [refs, Array.setIfInBounds, inside, ↓reduceDIte, here, Buffer.hold, Array.countP_set]
  omega

theorem refs_pos (at_ : Buffer.isIn k (f.buffer? slot)) : 0 < f.refs k := by
  unfold buffer? at at_
  cases found : f.slots[slot]? with
  | none => simp [found, Buffer.isIn] at at_
  | some b =>
    rw [found] at at_
    obtain ⟨inside, rfl⟩ := Array.getElem?_eq_some_iff.mp found
    exact Array.countP_pos_iff.mpr ⟨_, Array.getElem_mem inside, at_⟩

theorem refs_eq_zero (empty : ∀ x, f.buffer? x = none) : f.refs k = 0 := by
  unfold refs
  rw [Array.countP_eq_zero]
  intro b member isIn
  obtain ⟨x, inside, rfl⟩ := Array.mem_iff_getElem.mp member
  have none := empty x
  rw [buffer?, Array.getElem?_eq_getElem inside, Option.join_some] at none
  rw [none] at isIn
  cases isIn

/-- Two slots that refer to a block are counted twice. -/
theorem two_refs (at_ : Buffer.isIn k (f.buffer? slot)) (atX : Buffer.isIn k (f.buffer? x))
    (other : x ≠ slot) : 2 ≤ f.refs k := by
  have inside : slot < f.slots.size := by
    cases here : f.buffer? slot with
    | none => simp [here, Buffer.isIn] at at_
    | some b => exact inside_of_buffer here
  have emptied := refs_set (f := f) (b := none) (k := k) inside
  have still : Buffer.isIn k (({ f with slots := f.slots.setIfInBounds slot none } : Frame).buffer? x) := by
    rw [buffer?_set inside, if_neg other]
    exact atX
  have left := refs_pos still
  have one : Buffer.hold (f.buffer? slot) k = 1 := if_pos at_
  have zero : Buffer.hold none k = 0 := rfl
  omega

/-- A block that nobody refers to but a slot. -/
def Private (f : Frame) (ext : Key → Nat) (slot : SlotId) (k : Key) : Prop :=
  ext k = 0 ∧ ∀ x, x ≠ slot → Buffer.isIn k (f.buffer? x) = false

end Frame

namespace Context

variable {c : Context} {d e : Device} {loc : Location}

/-- The device belongs to the context. -/
def Owns (c : Context) (d : Device) : Prop := d = .host ∨ c.accelerator = some d

theorem device_eq_ok (found : c.device loc = .ok d) : c.Owns d ∧ d.location = loc := by
  unfold Context.device at found
  split at found
  · cases found
    exact ⟨.inl rfl, rfl⟩
  · rename_i accelerator
    split at found
    · rename_i same
      cases found
      exact ⟨.inr accelerator, same⟩
    · cases found
  · cases found

theorem Owns.device (owns : c.Owns d) : c.device d.location = .ok d := by
  rcases owns with rfl | accelerator
  · rfl
  · cases d with
    | host => rfl
    | sim id ordinal => simp [Context.device, Device.location, accelerator]

theorem Owns.eq_of_location (owns : c.Owns d) (owns' : c.Owns e) (same : d.location = e.location) :
    d = e := by
  have found := owns.device
  rw [same, owns'.device] at found
  exact (Except.ok.inj found).symm

variable [BlockRoutine]

/-- The kernels are the reference ones; nothing has failed on the devices of the context, and nothing is bound
to fail. -/
structure Reliable (c : Context) (m : Machine) : Prop where
  kernels : c.kernels = .host
  serves : ∀ d, c.Owns d → m.Serves d

theorem Reliable.lasts {m m' : Machine} {loud : Prop} (reliable : c.Reliable m) (lasts : m.Lasts m' loud)
    (quiet : ¬ loud) : c.Reliable m' :=
  ⟨reliable.kernels, fun d owns => lasts.serves (reliable.serves d owns) quiet⟩

end Context

/-- A block where a device computes values of a kind, with room for `n` elements. -/
structure BlockRef.Suits (r : BlockRef) (d : Device) (kind : Kind) (n : Nat) : Prop where
  device : r.device = d
  kind : r.kind = kind
  room : n ≤ r.capacity

namespace Machine

/-- What is to be known of a block to read it. -/
def sees (m : Machine) (k : Key) : Option Data × Bool :=
  ((m.view k).block.map Block.data, (m.view k).tainted)

variable {m m' : Machine}

theorem Alters.sees {touched : Key → Prop} {loud : Prop} (alters : m.Alters m' touched loud) {k : Key}
    (outside : ¬ touched k) : m'.sees k = m.sees k := by
  unfold Machine.sees
  rw [alters.view k outside]

theorem Alters.held {touched : Key → Prop} {loud : Prop} (alters : m.Alters m' touched loud) {k : Key}
    (outside : ¬ touched k) : m'.held k = m.held k := by
  unfold Machine.held
  rw [alters.view k outside]

theorem backs_congr {k : Key} {block block' : Option Block} {t t' : Bool} (before : m.view k = ⟨block, t⟩)
    (after : m'.view k = ⟨block', t'⟩) (same : block'.map Block.data = block.map Block.data)
    {r : BlockRef} (key : r.key = k) (backs : m.Backs r) : m'.Backs r := by
  obtain ⟨old, atOld, kind, size⟩ := backs
  rw [key, before] at atOld
  obtain rfl : block = some old := atOld
  obtain ⟨new, rfl, data⟩ := Option.map_eq_some_iff.mp same
  exact ⟨new, by rw [key, after], by rw [data]; exact kind, by rw [data]; exact size⟩

theorem sees_eq_iff {k : Key} : m'.sees k = m.sees k ↔
    (m'.view k).block.map Block.data = (m.view k).block.map Block.data ∧
      (m'.view k).tainted = (m.view k).tainted := by
  unfold sees
  rw [Prod.mk.injEq]

theorem Backs.of_sees {r : BlockRef} (backs : m.Backs r) (same : m'.sees r.key = m.sees r.key) :
    m'.Backs r :=
  backs_congr rfl rfl (sees_eq_iff.mp same).1 rfl backs

/-- Gives up a buffer, if there is one. -/
def dropped (m : Machine) : Option Buffer → Machine
  | some b => m.release b
  | none => m

/-- A buffer that is given up is one holder less; a block that others hold stays. -/
theorem dropped_spec (sane : m.Sane) {b : Option Buffer} (known : ∀ r, b = some (.owned r) → m.Has r.device)
    (counted : ∀ k, Buffer.isIn k b → 0 < m.held k) :
    m.Lasts (m.dropped b) False ∧ (∀ k, (m.dropped b).held k + Buffer.hold b k = m.held k) ∧
      ∀ k, (Buffer.isIn k b → 1 < m.held k) → (m.dropped b).sees k = m.sees k := by
  have still : ∀ {k : Key}, Buffer.isIn k b = false → Buffer.hold b k = 0 := fun outside => by
    rw [Buffer.hold, outside]
    rfl
  cases b with
  | none => exact ⟨.refl m, fun k => rfl, fun k _ => rfl⟩
  | some b =>
    cases b with
    | borrowed data => exact ⟨.refl m, fun k => rfl, fun k _ => rfl⟩
    | owned r =>
      have positive := counted r.key (by simp [Buffer.isIn])
      obtain ⟨block, contents⟩ : ∃ block, (m.view r.key).block = some block := by
        cases contents : (m.view r.key).block with
        | none => simp [held, contents] at positive
        | some block => exact ⟨block, rfl⟩
      have at_ : m.view r.key = ⟨some block, (m.view r.key).tainted⟩ := View.ext contents rfl
      obtain ⟨alters, last, more⟩ := release_spec sane (known r rfl) at_
      have holders : m.held r.key = block.holders := by simp [held, contents]
      have one : Buffer.hold (some (.owned r)) r.key = 1 := by simp [Buffer.hold, Buffer.isIn]
      have elsewhere : ∀ {k : Key}, k ≠ r.key → Buffer.isIn k (some (.owned r)) = false := by
        intro k other
        simpa [Buffer.isIn] using Ne.symm other
      refine ⟨alters.toLasts, fun k => ?_, fun k others => ?_⟩
      · by_cases here : k = r.key
        · subst here
          rw [one]
          rcases Nat.lt_or_ge 1 block.holders with many | few
          · simp only [dropped, held, more many, contents, Option.map_some, Option.getD_some]
            omega
          · simp only [dropped, held, last few, contents, Option.map_some, Option.map_none,
              Option.getD_some, Option.getD_none]
            omega
        · rw [still (elsewhere here), dropped, alters.held here]
          rfl
      · by_cases here : k = r.key
        · subst here
          have many := others (by simp [Buffer.isIn])
          rw [holders] at many
          rw [dropped, sees_eq_iff, more many, contents]
          exact ⟨rfl, rfl⟩
        · exact alters.sees here

/-- A buffer gets one more holder. -/
theorem retained_spec {b : Buffer} (known : ∀ r, b = .owned r → m.Has r.device ∧ m.Backs r) :
    m.Lasts (m.retain b) False ∧ (∀ k, (m.retain b).held k = m.held k + Buffer.hold (some b) k) ∧
      ∀ k, (m.retain b).sees k = m.sees k := by
  cases b with
  | borrowed data => exact ⟨.refl m, fun k => rfl, fun k => rfl⟩
  | owned r =>
    obtain ⟨has, block, contents, -⟩ := known r rfl
    have at_ : m.view r.key = ⟨some block, (m.view r.key).tainted⟩ := View.ext contents rfl
    obtain ⟨alters, new⟩ := retain_spec has at_
    refine ⟨alters.toLasts, fun k => ?_, fun k => ?_⟩
    · by_cases here : k = r.key
      · subst here
        simp [held, new, contents, Buffer.hold, Buffer.isIn]
      · rw [alters.held here]
        simp [Buffer.hold, Buffer.isIn, Ne.symm here]
    · by_cases here : k = r.key
      · subst here
        rw [sees_eq_iff, new, contents]
        exact ⟨rfl, rfl⟩
      · exact alters.sees here

end Machine

namespace Activation

/-- The books are kept: every block has its holders, and every buffer in a slot is in a block of its kind and
capacity on a device of the context. Others than the slots hold blocks too. -/
structure Tidy (a : Activation) (c : Context) (ext : Key → Nat) : Prop where
  held : ∀ k, a.machine.held k = a.frame.refs k + ext k
  owned : ∀ {slot : SlotId} {r : BlockRef}, a.frame.buffer? slot = some (.owned r) →
    c.Owns r.device ∧ a.machine.Backs r
  has : ∀ d, c.Owns d → a.machine.Has d
  sane : a.machine.Sane

/-- Something was done to a slot and to a block that only the slot refers to. -/
structure Steps (a a' : Activation) (ext : Key → Nat) (slot : SlotId) (loud : Prop) : Prop where
  lasts : a.machine.Lasts a'.machine loud
  size : a'.frame.slots.size = a.frame.slots.size
  others : ∀ x, x ≠ slot → a'.frame.buffer? x = a.frame.buffer? x
  sees : ∀ k, ¬ a.frame.Private ext slot k → a'.machine.sees k = a.machine.sees k
  counts : a'.frame.counts = a.frame.counts
  shapes : a'.frame.shapes = a.frame.shapes
  poisoned : a'.frame.poisoned = a.frame.poisoned

variable {a a' a'' : Activation} {c : Context} {ext : Key → Nat} {slot x : SlotId} {loud loud' : Prop}

theorem Steps.refl (a : Activation) (ext : Key → Nat) (slot : SlotId) : a.Steps a ext slot False :=
  ⟨.refl _, rfl, fun _ _ => rfl, fun _ _ => rfl, rfl, rfl, rfl⟩

theorem Steps.private_iff (steps : a.Steps a' ext slot loud) {k : Key} :
    a'.frame.Private ext slot k ↔ a.frame.Private ext slot k := by
  have same : ∀ x, x ≠ slot → Buffer.isIn k (a'.frame.buffer? x) = Buffer.isIn k (a.frame.buffer? x) :=
    fun x other => by rw [steps.others x other]
  exact and_congr_right fun _ => forall_congr' fun x => imp_congr_right fun other => by rw [same x other]

theorem Steps.trans (first : a.Steps a' ext slot loud) (second : a'.Steps a'' ext slot loud') :
    a.Steps a'' ext slot (loud ∨ loud') where
  lasts := first.lasts.trans second.lasts
  size := second.size.trans first.size
  others x other := (second.others x other).trans (first.others x other)
  sees k shared := (second.sees k (mt first.private_iff.mp shared)).trans (first.sees k shared)
  counts := second.counts.trans first.counts
  shapes := second.shapes.trans first.shapes
  poisoned := second.poisoned.trans first.poisoned

theorem Steps.mono (steps : a.Steps a' ext slot loud) (louder : loud → loud') :
    a.Steps a' ext slot loud' := { steps with lasts := steps.lasts.mono louder }

/-- The first of two steps was silent. -/
theorem Steps.after (first : a.Steps a' ext slot False) (second : a'.Steps a'' ext slot loud) :
    a.Steps a'' ext slot loud := (first.trans second).mono (Or.rec False.elim id)

/-- Who holds more keeps more as it was. -/
theorem Steps.of_more {more : Key → Nat} (steps : a.Steps a' more slot loud) (least : ∀ k, ext k ≤ more k) :
    a.Steps a' ext slot loud :=
  { steps with
    sees := fun k shared => steps.sees k fun only =>
      shared (And.intro (Nat.eq_zero_of_le_zero (only.1 ▸ least k)) only.2) }

/-- Contents of blocks were changed at most. -/
theorem Tidy.rewritten (tidy : a.Tidy c ext) {m : Machine} {touched : Key → Prop}
    (alters : a.machine.Alters m touched loud) (same : ∀ k, touched k → m.held k = a.machine.held k ∧
      ∀ r : BlockRef, r.key = k → a.machine.Backs r → m.Backs r) :
    Activation.Tidy { a with machine := m } c ext where
  held k := by
    by_cases inside : touched k
    · exact (same k inside).1.trans (tidy.held k)
    · exact (alters.held inside).trans (tidy.held k)
  owned {x r} at_ := by
    obtain ⟨owns, backs⟩ := tidy.owned at_
    refine ⟨owns, ?_⟩
    by_cases inside : touched r.key
    · exact (same r.key inside).2 r rfl backs
    · exact backs.of_sees (alters.sees inside)
  has d owns := alters.has (tidy.has d owns)
  sane := alters.sane tidy.sane

/-- The books are about slots only. -/
theorem Tidy.reframed (tidy : a.Tidy c ext) {f : Frame} (slots : f.slots = a.frame.slots) :
    Activation.Tidy { a with frame := f } c ext where
  held k := by
    simp only [Frame.refs, slots]
    exact tidy.held k
  owned {x r} at_ := by
    simp only [Frame.buffer?, slots] at at_
    exact tidy.owned at_
  has := tidy.has
  sane := tidy.sane

theorem Steps.reframed (steps : a.Steps a' ext slot loud) {f : Frame} (slots : f.slots = a'.frame.slots)
    (counts : f.counts = a'.frame.counts) (shapes : f.shapes = a'.frame.shapes)
    (poisoned : f.poisoned = a'.frame.poisoned) : a.Steps { a' with frame := f } ext slot loud :=
  { steps with
    size := by
      simp only [slots]
      exact steps.size
    others := fun x other => by
      simp only [Frame.buffer?, slots]
      exact steps.others x other
    sees := steps.sees
    counts := counts.trans steps.counts
    shapes := shapes.trans steps.shapes
    poisoned := poisoned.trans steps.poisoned }

/-- The counters do not matter. -/
theorem Tidy.recounted (tidy : a.Tidy c ext) (stats : Stats) :
    Activation.Tidy { a with frame := { a.frame with stats } } c ext := tidy.reframed rfl

theorem Steps.recounted (steps : a.Steps a' ext slot loud) (stats : Stats) :
    a.Steps { a' with frame := { a'.frame with stats } } ext slot loud := steps.reframed rfl rfl rfl rfl

/-- Nothing that is held was changed. -/
theorem Tidy.quiet (tidy : a.Tidy c ext) {m : Machine} (alters : a.machine.Alters m (fun _ => False) loud) :
    Activation.Tidy { a with machine := m } c ext := tidy.rewritten alters fun _ => False.elim

theorem Steps.quiet {m : Machine} (alters : a.machine.Alters m (fun _ => False) loud) (ext : Key → Nat)
    (slot : SlotId) : a.Steps { a with machine := m } ext slot loud :=
  ⟨alters.toLasts, rfl, fun _ _ => rfl, fun _ _ => alters.sees (fun inside => inside), rfl, rfl, rfl⟩

variable [BlockRoutine]

/-- An operation was refused, because a device or a kernel of the context fails or is bound to. -/
structure Halts (a a' : Activation) (c : Context) (ext : Key → Nat) (e : Error) : Prop where
  tidy : a'.Tidy c ext
  lasts : a.machine.Lasts a'.machine False
  size : a'.frame.slots.size = a.frame.slots.size
  sees : ∀ k, 0 < ext k → a'.machine.sees k = a.machine.sees k
  shapes : a'.frame.shapes = a.frame.shapes
  poisoned : a'.frame.poisoned = a.frame.poisoned
  notVacant : ¬ e.Vacant
  ill : ¬ c.Reliable a.machine

omit [BlockRoutine] in
theorem Steps.public (steps : a.Steps a' ext slot loud) {k : Key} (others : 0 < ext k) :
    a'.machine.sees k = a.machine.sees k := steps.sees k fun only => by
  rw [only.1] at others
  exact Nat.lt_irrefl 0 others

/-- What was done before an operation was refused left what others hold. -/
theorem Steps.halts_of {more : Key → Nat} (steps : a.Steps a' ext slot False)
    (kept : ∀ k, 0 < more k → a'.machine.sees k = a.machine.sees k) {e : Error}
    (halts : a'.Halts a'' c more e) : a.Halts a'' c more e where
  tidy := halts.tidy
  lasts := (steps.lasts.trans halts.lasts).mono (Or.rec id id)
  size := halts.size.trans steps.size
  sees k others := (halts.sees k others).trans (kept k others)
  shapes := halts.shapes.trans steps.shapes
  poisoned := halts.poisoned.trans steps.poisoned
  notVacant := halts.notVacant
  ill reliable := halts.ill (reliable.lasts steps.lasts fun loud => loud)

theorem Steps.halts (steps : a.Steps a' ext slot False) {e : Error} (halts : a'.Halts a'' c ext e) :
    a.Halts a'' c ext e := steps.halts_of (fun _ others => steps.public others) halts

theorem Tidy.halts (tidy : a.Tidy c ext) {d : Device} (owns : c.Owns d) {e : Error} {m : Machine}
    (refused : a.machine.Refused d e m) : a.Halts { a with machine := m } c ext e where
  tidy := tidy.quiet refused.1
  lasts := refused.1.toLasts
  size := rfl
  sees _ _ := refused.1.sees fun inside => inside
  shapes := rfl
  poisoned := rfl
  notVacant := refused.2.1
  ill reliable := refused.2.2 (reliable.serves d owns)

omit [BlockRoutine] in
theorem Tidy.private_of_sole (tidy : a.Tidy c ext) {r : BlockRef}
    (at_ : a.frame.buffer? slot = some (.owned r)) (sole : a.machine.held r.key = 1) :
    a.frame.Private ext slot r.key := by
  have here : Buffer.isIn r.key (a.frame.buffer? slot) := by simp [at_, Buffer.isIn]
  have holders := tidy.held r.key
  have one := Frame.refs_pos here
  refine ⟨by omega, fun x other => ?_⟩
  cases also : Buffer.isIn r.key (a.frame.buffer? x) with
  | false => rfl
  | true =>
    have two := Frame.two_refs here also other
    omega

end Activation

namespace Calling

variable {a : Activation} {c : Context} {ext more : Key → Nat} {slot : SlotId} {d : Device} {kind : Kind}
  {n : Nat} {fails : Error → Activation → Prop}

theorem put_eq (slot : SlotId) (b : Option Buffer) : put slot b = modify fun a =>
    ⟨{ a.frame with slots := a.frame.slots.setIfInBounds slot b },
      a.machine.dropped (a.frame.buffer? slot)⟩ := rfl

/-- A slot gets a buffer that is counted already, and no longer holds the one that was there. -/
theorem put_meets (tidy : a.Tidy c more) (inside : slot < a.frame.slots.size) (b : Option Buffer)
    (new : ∀ k, more k = ext k + Buffer.hold b k)
    (fits : ∀ r, b = some (.owned r) → c.Owns r.device ∧ a.machine.Backs r) :
    (put slot b).Meets a fails fun _ a' => a'.Tidy c ext ∧ a.Steps a' ext slot False ∧
      a'.frame.buffer? slot = b ∧ (∀ k, 0 < more k → a'.machine.sees k = a.machine.sees k) ∧
      ∀ k, a'.machine.held k + Buffer.hold (a.frame.buffer? slot) k = a.machine.held k := by
  have counted : ∀ k, Buffer.isIn k (a.frame.buffer? slot) → 0 < a.machine.held k := fun k isIn => by
    have here := Frame.refs_pos isIn
    have holders := tidy.held k
    omega
  obtain ⟨lasts, held, sees⟩ := Machine.dropped_spec tidy.sane
    (fun r at_ => tidy.has _ (tidy.owned at_).1) counted
  rw [put_eq, meets_modify]
  have shared : ∀ k, 0 < more k → (a.machine.dropped (a.frame.buffer? slot)).sees k = a.machine.sees k := by
    refine fun k others => sees k fun isIn => ?_
    have here := Frame.refs_pos isIn
    have holders := tidy.held k
    omega
  have beside : ∀ k x, x ≠ slot → Buffer.isIn k (a.frame.buffer? x) →
      (a.machine.dropped (a.frame.buffer? slot)).sees k = a.machine.sees k := by
    refine fun k x other isIn => sees k fun also => ?_
    have two := Frame.two_refs also isIn other
    have holders := tidy.held k
    omega
  refine ⟨⟨fun k => ?_, fun {x r} at_ => ?_, fun d owns => lasts.has (tidy.has d owns), lasts.sane tidy.sane⟩,
    ⟨lasts, by simp, fun x other => ?_, fun k common => ?_, rfl, rfl, rfl⟩, ?_, shared, held⟩
  · have set := Frame.refs_set (f := a.frame) (b := b) (k := k) inside
    have holders := tidy.held k
    have now := held k
    have counts := new k
    simp only at set ⊢
    omega
  · rw [Frame.buffer?_set inside] at at_
    split at at_
    · subst at_
      obtain ⟨owns, backs⟩ := fits r rfl
      refine ⟨owns, backs.of_sees (shared r.key ?_)⟩
      have one : Buffer.hold (some (.owned r)) r.key = 1 := by simp [Buffer.hold, Buffer.isIn]
      have counts := new r.key
      omega
    · rename_i other
      obtain ⟨owns, backs⟩ := tidy.owned at_
      exact ⟨owns, backs.of_sees (beside r.key x other (by simp [at_, Buffer.isIn]))⟩
  · rw [Frame.buffer?_set inside, if_neg other]
  · by_cases others : 0 < ext k
    · exact shared k (by have counts := new k; omega)
    · refine Classical.byContradiction fun changed => common ⟨by omega, fun x other => ?_⟩
      exact Bool.eq_false_iff.mpr fun isIn => changed (beside k x other isIn)
  · rw [Frame.buffer?_set inside, if_pos rfl]

theorem onMachine_meets {α : Type} {act : Action Machine α} {failing : Error → Machine → Prop}
    {ending : α → Machine → Prop} {post : α → Activation → Prop} (met : act.Meets a.machine failing ending)
    (failed : ∀ e m, failing e m → fails e { a with machine := m })
    (ended : ∀ x m, ending x m → post x { a with machine := m }) : (onMachine act).Meets a fails post := by
  unfold onMachine
  rw [meets_onPart]
  exact met.mono failed ended

theorem count_meets (f : Stats → Stats) {post : PUnit → Activation → Prop}
    (held : ∀ stats, post ⟨⟩ { a with frame := { a.frame with stats } }) : (count f).Meets a fails post :=
  held (f a.frame.stats)

/-- A slot gets a block that nobody else refers to. -/
theorem allocate_meets [BlockRoutine] (tidy : a.Tidy c ext) (inside : slot < a.frame.slots.size) (owns : c.Owns d) :
    (allocate slot d kind n).Meets a (fun e a' => n < Shape.capacity → a.Halts a' c ext e) fun b a' => ∃ r, b = .owned r ∧
      r.Suits d kind n ∧ a'.Tidy c ext ∧ a.Steps a' ext slot False ∧
      a'.frame.buffer? slot = some (.owned r) ∧ a'.machine.held r.key = 1 := by
  unfold allocate
  rw [meets_bind]
  refine onMachine_meets (Device.alloc_meets (tidy.has d owns) tidy.sane kind (max n 1))
    (fun e m refused room => tidy.halts owns (refused (Accelerator.max_one_lt_capacity room))) ?_
  rintro r m ⟨device, kindOf, capacity, fresh, alters, bytes, new⟩
  rw [meets_bind]
  refine count_meets _ fun stats => ?_
  have before : a.machine.held r.key = 0 := by simp [Machine.held, fresh]
  have now : m.held r.key = 1 := by simp [Machine.held, new]
  have holders := tidy.held r.key
  have unknown : ∀ x, Buffer.isIn r.key (a.frame.buffer? x) = false := fun x =>
    Bool.eq_false_iff.mpr fun isIn => by
      have here := Frame.refs_pos isIn
      omega
  have elsewhere : ∀ {k : Key}, k ≠ r.key → Buffer.hold (some (.owned r)) k = 0 := fun other => by
    simp [Buffer.hold, Buffer.isIn, Ne.symm other]
  have one : Buffer.hold (some (.owned r)) r.key = 1 := by simp [Buffer.hold, Buffer.isIn]
  have counted : Activation.Tidy ⟨a.frame, m⟩ c fun k => ext k + Buffer.hold (some (.owned r)) k := by
    refine ⟨fun k => ?_, fun {x r'} at_ => ?_, fun d owns => alters.has (tidy.has d owns), alters.sane tidy.sane⟩
    · by_cases same : k = r.key
      · subst same
        simp only at now ⊢
        omega
      · rw [elsewhere same]
        exact (alters.held same).trans (tidy.held k)
    · obtain ⟨owns', backs⟩ := tidy.owned at_
      refine ⟨owns', backs.of_sees (alters.sees fun same => ?_)⟩
      have isIn : Buffer.isIn r.key (a.frame.buffer? x) = true := by
        rw [at_]
        simp [Buffer.isIn, same]
      rw [unknown x] at isIn
      cases isIn
  have backs : m.Backs r := ⟨_, congrArg View.block new, kindOf.symm, by simp [Data.zeros, Data.size, capacity]⟩
  have first : a.Steps ⟨a.frame, m⟩ ext slot False := by
    refine ⟨alters.toLasts, rfl, fun _ _ => rfl, fun k common => alters.sees fun same => ?_, rfl, rfl, rfl⟩
    subst same
    exact common ⟨by omega, fun x _ => unknown x⟩
  rw [meets_bind]
  refine (put_meets (counted.recounted stats) inside (some (.owned r)) (fun k => rfl) fun r' same => ?_).post ?_
  · cases same
    exact ⟨device ▸ owns, backs⟩
  · rintro _ a' ⟨tidy', steps, at_, -, held⟩
    refine ⟨r, rfl, ⟨device, kindOf, ?_⟩, tidy', (first.recounted stats).after steps, at_, ?_⟩
    · rw [capacity]
      exact Nat.le_max_left n 1
    · have gone : Buffer.hold (a.frame.buffer? slot) r.key = 0 := by
        rw [Buffer.hold, unknown slot]
        rfl
      have left := held r.key
      simp only [Frame.buffer?] at left gone
      omega

theorem reusable_iff {m : Machine} {b : Buffer} {holders : Nat} : reusable m b d kind n holders ↔
    ∃ r, b = .owned r ∧ r.device.location = d.location ∧ r.kind = kind ∧ n ≤ r.capacity ∧
      m.held r.key = holders := by
  cases b with
  | borrowed data => simp [reusable]
  | owned r => simp [reusable, Machine.holders_eq, and_assoc]

/-- A slot has a block that nobody else refers to. -/
theorem acquire_meets [BlockRoutine] (tidy : a.Tidy c ext) (inside : slot < a.frame.slots.size) (owns : c.Owns d) :
    (acquire slot d kind n).Meets a (fun e a' => n < Shape.capacity → a.Halts a' c ext e) fun b a' => ∃ r, b = .owned r ∧
      r.Suits d kind n ∧ a'.Tidy c ext ∧ a.Steps a' ext slot False ∧
      a'.frame.buffer? slot = some (.owned r) ∧ a'.frame.Private ext slot r.key := by
  have allocated : (allocate slot d kind n).Meets a (fun e a' => n < Shape.capacity → a.Halts a' c ext e) fun b a' => ∃ r,
      b = .owned r ∧ r.Suits d kind n ∧ a'.Tidy c ext ∧ a.Steps a' ext slot False ∧
      a'.frame.buffer? slot = some (.owned r) ∧ a'.frame.Private ext slot r.key := by
    refine (allocate_meets tidy inside owns).post ?_
    rintro b a' ⟨r, same, suits, tidy', steps, at_, sole⟩
    exact ⟨r, same, suits, tidy', steps, at_, tidy'.private_of_sole at_ sole⟩
  unfold acquire
  rw [meets_bind, meets_get]
  cases at_ : a.frame.buffer? slot with
  | none => exact allocated
  | some b =>
    by_cases reuse : reusable a.machine b d kind n 1
    · simp only [if_pos reuse]
      obtain ⟨r, rfl, location, kindOf, room, sole⟩ := reusable_iff.mp reuse
      have device := (tidy.owned at_).1.eq_of_location owns location
      rw [meets_bind]
      refine count_meets _ fun stats => ?_
      exact ⟨r, rfl, ⟨device, kindOf, room⟩, tidy.recounted stats, (Activation.Steps.refl a ext slot).recounted stats,
        at_, tidy.private_of_sole at_ sole⟩
    · simp only [if_neg reuse]
      exact allocated

/-- A slot has a block that nobody else refers to: the one of the operand, or a new one while the operand is
held elsewhere. -/
theorem acquireOver_meets [BlockRoutine] {input : Buffer} (tidy : a.Tidy c fun k => ext k + Buffer.hold (some input) k)
    (at_ : a.frame.buffer? slot = some input) (owns : c.Owns d) :
    (acquireOver slot input d kind n).Meets a
      (fun e a' => n < Shape.capacity → a.Halts a' c (fun k => ext k + Buffer.hold (some input) k) e) fun b a' => ∃ r, b = .owned r ∧
        r.Suits d kind n ∧ a'.Tidy c (fun k => ext k + Buffer.hold (some input) k) ∧ a.Steps a' ext slot False ∧
        a'.frame.buffer? slot = some (.owned r) ∧ a'.frame.Private ext slot r.key ∧
        ∀ k, Buffer.isIn k (some input) → a'.machine.sees k = a.machine.sees k := by
  unfold acquireOver
  rw [meets_bind, meets_get]
  by_cases reuse : reusable a.machine input d kind n 2
  · simp only [if_pos reuse]
    obtain ⟨r, rfl, location, kindOf, room, both⟩ := reusable_iff.mp reuse
    have device := (tidy.owned at_).1.eq_of_location owns location
    rw [meets_bind]
    refine count_meets _ fun stats => ?_
    refine ⟨r, rfl, ⟨device, kindOf, room⟩, tidy.recounted stats,
      (Activation.Steps.refl a ext slot).recounted stats, at_, ⟨?_, fun x other => ?_⟩, fun _ _ => rfl⟩
    · have here : Buffer.isIn r.key (a.frame.buffer? slot) := by simp [at_, Buffer.isIn]
      have one := Frame.refs_pos here
      have held : Buffer.hold (some (.owned r)) r.key = 1 := by simp [Buffer.hold, Buffer.isIn]
      have holders := tidy.held r.key
      omega
    · refine Bool.eq_false_iff.mpr fun also => ?_
      have here : Buffer.isIn r.key (a.frame.buffer? slot) := by simp [at_, Buffer.isIn]
      have two := Frame.two_refs here also other
      have held : Buffer.hold (some (.owned r)) r.key = 1 := by simp [Buffer.hold, Buffer.isIn]
      have holders := tidy.held r.key
      omega
  · simp only [if_neg reuse]
    have inside := Frame.inside_of_buffer at_
    have least : ∀ k, ext k ≤ ext k + Buffer.hold (some input) k := fun k => Nat.le_add_right _ _
    rw [meets_bind]
    refine (put_meets tidy inside none (fun k => rfl) fun r wrong => by cases wrong).post ?_
    rintro _ a₁ ⟨tidy₁, emptied, vacant, kept, -⟩
    have inside₁ : slot < a₁.frame.slots.size := emptied.size ▸ inside
    refine (allocate_meets tidy₁ inside₁ owns).mono (fun e a' halts room => emptied.halts (halts room)) ?_
    rintro b a' ⟨r, same, suits, tidy', steps, at', sole⟩
    have only := tidy'.private_of_sole at' sole
    have others : ∀ k, Buffer.isIn k (some input) → 0 < ext k + Buffer.hold (some input) k := fun k isIn => by
      rw [Buffer.hold, if_pos isIn]
      exact Nat.succ_pos _
    refine ⟨r, same, suits, tidy', (emptied.after steps).of_more least, at',
      ⟨Nat.eq_zero_of_add_eq_zero_right only.1, only.2⟩, fun k isIn => ?_⟩
    exact (steps.public (others k isIn)).trans (kept k (others k isIn))

/-- Whoever gives up a buffer leaves blocks that others hold as they are. -/
theorem released_spec {b : Buffer} (tidy : a.Tidy c fun k => ext k + Buffer.hold (some b) k)
    (owns : ∀ r, b = .owned r → c.Owns r.device) : Activation.Tidy ⟨a.frame, a.machine.release b⟩ c ext ∧
      a.machine.Lasts (a.machine.release b) False ∧
      ∀ k, 0 < a.frame.refs k + ext k → (a.machine.release b).sees k = a.machine.sees k := by
  have counted : ∀ k, Buffer.isIn k (some b) → 0 < a.machine.held k := fun k isIn => by
    have holders := tidy.held k
    have one : Buffer.hold (some b) k = 1 := if_pos isIn
    omega
  obtain ⟨lasts, held, sees⟩ := Machine.dropped_spec tidy.sane (b := some b)
    (fun r same => tidy.has _ (owns r (Option.some.inj same))) counted
  have still : ∀ k, 0 < a.frame.refs k + ext k → (a.machine.release b).sees k = a.machine.sees k :=
    fun k others => sees k fun isIn => by
      have holders := tidy.held k
      have one : Buffer.hold (some b) k = 1 := if_pos isIn
      omega
  refine ⟨⟨fun k => ?_, fun {x r} at_ => ?_, fun d owns => lasts.has (tidy.has d owns), lasts.sane tidy.sane⟩,
    lasts, still⟩
  · have old := tidy.held k
    have new : (a.machine.release b).held k + Buffer.hold (some b) k = a.machine.held k := held k
    simp only
    omega
  · obtain ⟨owns', backs⟩ := tidy.owned (show a.frame.buffer? x = some (.owned r) from at_)
    have isIn : Buffer.isIn r.key (a.frame.buffer? x) := by
      rw [show a.frame.buffer? x = some (.owned r) from at_]
      simp [Buffer.isIn]
    exact ⟨owns', backs.of_sees (still _ (Nat.lt_of_lt_of_le (Frame.refs_pos isIn) (Nat.le_add_right _ _)))⟩

/-- A buffer is held while an action runs, and given up whatever comes of it. -/
theorem holding_meets [BlockRoutine] {α : Type} {b : Buffer} {act : Calling α} {post : α → Activation → Prop} {P : Prop}
    (tidy : a.Tidy c ext) (known : ∀ r, b = .owned r → c.Owns r.device ∧ a.machine.Backs r)
    (inner : ∀ m, Activation.Tidy ⟨a.frame, m⟩ c (fun k => ext k + Buffer.hold (some b) k) →
      a.machine.Lasts m False → (∀ k, m.sees k = a.machine.sees k) →
      act.Meets ⟨a.frame, m⟩
        (fun e a₁ => P → Activation.Halts ⟨a.frame, m⟩ a₁ c (fun k => ext k + Buffer.hold (some b) k) e)
        fun x a₁ => a₁.Tidy c (fun k => ext k + Buffer.hold (some b) k) ∧ ∀ m', Activation.Tidy ⟨a₁.frame, m'⟩ c ext →
          a₁.machine.Lasts m' False →
          (∀ k, 0 < a₁.frame.refs k + ext k → m'.sees k = a₁.machine.sees k) → post x ⟨a₁.frame, m'⟩) :
    (holding b act).Meets a (fun e a' => P → a.Halts a' c ext e) post := by
  obtain ⟨lasts, held, sees⟩ := a.machine.retained_spec
    fun r same => ⟨tidy.has _ (known r same).1, (known r same).2⟩
  have owns : ∀ r, b = .owned r → c.Owns r.device := fun r same => (known r same).1
  have tidy₁ : Activation.Tidy ⟨a.frame, a.machine.retain b⟩ c
      fun k => ext k + Buffer.hold (some b) k := by
    refine ⟨fun k => ?_, fun {x r} at_ => ?_, fun d owns => lasts.has (tidy.has d owns), lasts.sane tidy.sane⟩
    · have old := tidy.held k
      have new := held k
      simp only at new ⊢
      omega
    · exact ⟨(tidy.owned at_).1, (tidy.owned at_).2.of_sees (sees _)⟩
  unfold holding
  rw [meets_bind, meets_modify, meets_bind, meets_attempt]
  refine (inner _ tidy₁ lasts sees).mono (fun e a₁ halts => ?_) fun x a₁ ⟨tidy', ending⟩ => ?_
  · rw [meets_bind, meets_modify, meets_lift]
    intro held
    have halts := halts held
    obtain ⟨tidy₂, lasts₂, still⟩ := released_spec halts.tidy owns
    refine ⟨tidy₂, ?_, halts.size, fun k others => ?_, halts.shapes, halts.poisoned, halts.notVacant, ?_⟩
    · exact ((lasts.trans halts.lasts).trans lasts₂).mono (by simp)
    · refine (still k (by omega)).trans ((halts.sees k ?_).trans (sees k))
      exact Nat.lt_of_lt_of_le others (Nat.le_add_right _ _)
    · exact fun reliable => halts.ill (reliable.lasts lasts fun loud => loud)
  · obtain ⟨tidy₂, lasts₂, still⟩ := released_spec tidy' owns
    rw [meets_bind, meets_modify, meets_lift]
    exact ending _ tidy₂ lasts₂ still

/-- A slot that nobody needs is given up at most. Pinned ones stay. -/
theorem free_meets [BlockRoutine] (s : Schedule) (tidy : a.Tidy c ext) : (free s c slot).Meets a
    (fun e a' => a.Halts a' c ext e) fun _ a' => a'.Tidy c ext ∧ a.Steps a' ext slot False ∧
      (s.pinned.getD slot false = true → a' = a) := by
  have nothing : a.Tidy c ext ∧ a.Steps a ext slot False ∧ (s.pinned.getD slot false = true → a = a) :=
    ⟨tidy, .refl a ext slot, fun _ => rfl⟩
  unfold free
  by_cases pinned : s.pinned.getD slot false
  · rw [if_pos pinned]
    exact nothing
  rw [if_neg pinned]
  have emptied : ∀ {a₁ : Activation}, a₁.Tidy c ext → slot < a₁.frame.slots.size →
      a.Steps a₁ ext slot False → (put slot none).Meets a₁ (fun e a' => a.Halts a' c ext e)
        fun _ a' => a'.Tidy c ext ∧ a.Steps a' ext slot False ∧ (s.pinned.getD slot false = true → a' = a) := by
    intro a₁ tidy₁ inside steps
    refine (put_meets tidy₁ inside none (fun k => rfl) fun r wrong => by cases wrong).post ?_
    rintro _ a' ⟨tidy', steps', -⟩
    exact ⟨tidy', steps.after steps', fun wrong => absurd wrong pinned⟩
  rw [meets_bind, meets_get]
  cases at_ : a.frame.buffer? slot with
  | none => exact nothing
  | some b =>
    have inside := Frame.inside_of_buffer at_
    cases b with
    | borrowed data => exact emptied tidy inside (.refl a ext slot)
    | owned r =>
      obtain ⟨owns, backs⟩ := tidy.owned at_
      by_cases collect : c.config.collect
      · by_cases host : (Buffer.owned r).location.isHost
        · simp only [collect, host, Bool.not_true, Bool.false_eq_true, ↓reduceIte]
          rw [meets_bind]
          refine (emptied tidy inside (.refl a ext slot)).post ?_
          rintro _ a' ⟨tidy', steps, kept⟩
          rw [meets_bind]
          refine count_meets _ fun stats => ?_
          exact ⟨tidy'.recounted stats, steps.recounted stats, fun wrong => absurd wrong pinned⟩
        · simp only [collect, host, Bool.not_true, Bool.not_false, Bool.false_eq_true, ↓reduceIte]
          have device : c.device (Buffer.owned r).location = .ok r.device := owns.device
          rw [meets_bind, meets_lift, device]
          simp only
          rw [meets_bind]
          refine onMachine_meets (Device.settle_meets tidy.sane (show (Buffer.owned r).On r.device from rfl)
            (tidy.has _ owns)) (fun e m refused => tidy.halts owns refused) fun _ m alters => ?_
          rw [meets_bind]
          refine (emptied (tidy.quiet alters) inside (.quiet alters ext slot)).post ?_
          rintro _ a' ⟨tidy', steps, kept⟩
          rw [meets_bind]
          refine count_meets _ fun stats => count_meets _ fun stats' => ?_
          exact ⟨(tidy'.recounted stats).recounted stats', (steps.recounted stats).recounted stats',
            fun wrong => absurd wrong pinned⟩
      · simp only [collect, Bool.not_false, ↓reduceIte]
        exact nothing

/-- What giving up buffers leaves of an activation. -/
structure Sheds (a a' : Activation) (ext : Key → Nat) (gone : SlotId → Prop) : Prop where
  lasts : a.machine.Lasts a'.machine False
  size : a'.frame.slots.size = a.frame.slots.size
  given : ∀ x, gone x → a'.frame.buffer? x = none
  stays : ∀ x, ¬ gone x → a'.frame.buffer? x = a.frame.buffer? x
  others : ∀ k, 0 < ext k → a'.machine.sees k = a.machine.sees k
  slots : ∀ k x, Buffer.isIn k (a'.frame.buffer? x) → a'.machine.sees k = a.machine.sees k
  counts : a'.frame.counts = a.frame.counts
  shapes : a'.frame.shapes = a.frame.shapes
  poisoned : a'.frame.poisoned = a.frame.poisoned

/-- Who gives up all buffers has none left. -/
theorem Sheds.empty {s : Schedule}
    (sheds : Sheds a a' ext fun x => x < s.slotCount ∧ (a.frame.buffer? x).any fun _ => true)
    (slots : a.frame.slots.size = s.slotCount) (x : SlotId) : a'.frame.buffer? x = none := by
  cases at_ : a.frame.buffer? x with
  | none => exact (sheds.stays x fun gone => by rw [at_] at gone; cases gone.2).trans at_
  | some b => exact sheds.given x ⟨slots ▸ Frame.inside_of_buffer at_, by rw [at_]; rfl⟩

/-- Buffers are given up without fail. -/
theorem drop_meets (s : Schedule) (tidy : a.Tidy c ext) (p : Buffer → Bool) : (drop s p).Meets a fails
    fun _ a' => a'.Tidy c ext ∧
      Sheds a a' ext fun x => x < s.slotCount ∧ (a.frame.buffer? x).any p := by
  unfold drop
  refine meets_forM (fun before _ a' => a'.Tidy c ext ∧
    Sheds a a' ext fun x => x ∈ before ∧ (a.frame.buffer? x).any p) _ ?_ ?_ ?_
  · refine ⟨tidy, .refl _, rfl, fun x gone => ?_, fun _ _ => rfl, fun _ _ => rfl, fun _ _ _ => rfl, rfl, rfl, rfl⟩
    cases gone.1
  · rintro before x after a₁ split ⟨tidy₁, sheds⟩
    rw [meets_bind, meets_get]
    have fresh : x ∉ before := by
      have distinct : (List.range s.slotCount).Nodup := List.nodup_range
      rw [split] at distinct
      exact fun member => (List.nodup_append.mp distinct).2.2 x member x (by simp) rfl
    have here : a₁.frame.buffer? x = a.frame.buffer? x := sheds.stays x fun gone => fresh gone.1
    by_cases goes : (a₁.frame.buffer? x).any p
    · rw [if_pos goes]
      have inside : x < a₁.frame.slots.size := by
        cases at_ : a₁.frame.buffer? x with
        | none => simp [at_] at goes
        | some b => exact Frame.inside_of_buffer at_
      refine (put_meets tidy₁ inside none (fun k => rfl) fun r wrong => by cases wrong).post ?_
      rintro _ a₂ ⟨tidy₂, steps, vacant, -, -⟩
      refine ⟨tidy₂, (sheds.lasts.trans steps.lasts).mono (by simp), steps.size.trans sheds.size, fun y gone => ?_,
        fun y stays => ?_, fun k others => (steps.public others).trans (sheds.others k others), fun k y isIn => ?_,
        steps.counts.trans sheds.counts, steps.shapes.trans sheds.shapes, steps.poisoned.trans sheds.poisoned⟩
      · by_cases same : y = x
        · rw [same]
          exact vacant
        · rw [steps.others y same]
          have listed : y ∈ before := by simpa [same] using gone.1
          exact sheds.given y ⟨listed, gone.2⟩
      · have other : y ≠ x := by
          rintro rfl
          exact stays ⟨by simp, here ▸ goes⟩
        rw [steps.others y other]
        exact sheds.stays y fun gone => stays ⟨List.mem_append_left _ gone.1, gone.2⟩
      · have other : y ≠ x := by
          rintro rfl
          rw [vacant] at isIn
          cases isIn
        rw [steps.others y other] at isIn
        refine (steps.sees k fun only => ?_).trans (sheds.slots k y isIn)
        rw [only.2 y other] at isIn
        cases isIn
    · rw [if_neg goes]
      refine ⟨tidy₁, { sheds with given := fun y gone => ?_, stays := fun y stays => ?_ }⟩
      · by_cases same : y = x
        · rw [same, ← here] at gone
          exact absurd gone.2 goes
        · exact sheds.given y ⟨by simpa [same] using gone.1, gone.2⟩
      · exact sheds.stays y fun gone => stays ⟨List.mem_append_left _ gone.1, gone.2⟩
  · rintro a' ⟨tidy', sheds⟩
    simp only [List.mem_range] at sheds
    exact ⟨tidy', sheds⟩

end Calling

end TensorGraph
