import TensorGraph.Device.Target
import TensorGraph.Proofs.Text.Numeral

/-! The texts that name a device. The text of every device is one of them, so it is read back. -/
namespace TensorGraph

namespace Target

/-- What may follow the word of an accelerator: a colon or none, then its number, or nothing for zero. -/
inductive Ordinal : List Char → Nat → Prop where
  | none : Ordinal [] 0
  | colon : Ordinal [':'] 0
  | numeral (number : Text.Numeral cs n) : Ordinal cs n
  | colonNumeral (number : Text.Numeral cs n) : Ordinal (':' :: cs) n

/-- The texts that name a device. -/
inductive Written : List Char → Target → Prop where
  | host : Written "host".toList host
  | cpu : Written "cpu".toList host
  | sim (number : Ordinal cs n) : Written ("sim".toList ++ cs) (sim n)
  | cuda (number : Ordinal cs n) : Written ("cuda".toList ++ cs) (cuda n)

theorem number?_eq_some {cs : List Char} {n : Nat} : number? cs = some n ↔ Ordinal cs n := by
  have natural : ∀ ds, (Text.natural? ds).toOption = some n ↔ Text.Numeral ds n := by
    intro ds
    rw [← Text.natural?_eq_ok]
    cases Text.natural? ds <;> simp [Except.toOption]
  constructor
  · intro read
    unfold number? at read
    split at read
    · rename_i rest
      by_cases empty : rest = []
      · simp only [empty, List.isEmpty_nil, ↓reduceIte, Option.some.injEq] at read
        exact empty ▸ read ▸ .colon
      · simp only [List.isEmpty_eq_false_iff.mpr empty, Bool.false_eq_true, ↓reduceIte, natural] at read
        exact .colonNumeral read
    · by_cases empty : cs = []
      · simp only [empty, List.isEmpty_nil, ↓reduceIte, Option.some.injEq] at read
        exact empty ▸ read ▸ .none
      · simp only [List.isEmpty_eq_false_iff.mpr empty, Bool.false_eq_true, ↓reduceIte, natural] at read
        exact .numeral read
  · intro ordinal
    cases ordinal with
    | none => rfl
    | colon => rfl
    | numeral number =>
      unfold number?
      split
      · exact absurd number Text.not_numeral_colon
      · simp only [List.isEmpty_eq_false_iff.mpr number.ne_nil, Bool.false_eq_true, ↓reduceIte, natural, number]
    | colonNumeral number =>
      simp only [number?, List.isEmpty_eq_false_iff.mpr number.ne_nil, Bool.false_eq_true, ↓reduceIte, natural, number]

theorem read?_eq_some {cs : List Char} {t : Target} : read? cs = some t ↔ Written cs t := by
  constructor
  · intro read
    unfold read? at read
    split at read
    · cases read
      exact .host
    · cases read
      exact .cpu
    · obtain ⟨n, number, rfl⟩ := Option.map_eq_some_iff.mp read
      exact .sim (number?_eq_some.mp number)
    · obtain ⟨n, number, rfl⟩ := Option.map_eq_some_iff.mp read
      exact .cuda (number?_eq_some.mp number)
    · cases read
  · intro written
    cases written with
    | host => rfl
    | cpu => rfl
    | sim number => exact Option.map_eq_some_iff.mpr ⟨_, number?_eq_some.mpr number, rfl⟩
    | cuda number => exact Option.map_eq_some_iff.mpr ⟨_, number?_eq_some.mpr number, rfl⟩

theorem parse_eq_ok {cs : List Char} {t : Target} : parse cs = .ok t ↔ Written cs t := by
  rw [← read?_eq_some, parse]
  cases read? cs <;> simp

/-- A text that names no device is refused as it stands. -/
theorem parse_eq_error {cs : List Char} (none : ∀ t, ¬ Written cs t) :
    parse cs = .error (.configuration ("unknown device `" ++ String.ofList cs ++ "`")) := by
  cases read : read? cs with
  | none => rw [parse, read]
  | some t => exact absurd (read?_eq_some.mp read) (none t)

/-- The ordinal fits the word that numbers devices. -/
def Numbered (t : Target) : Prop := ∀ n ∈ t.ordinal?, n < 2 ^ 64

/-- The number as it stands after a word. -/
theorem toList_append_number (word : String) (n : Nat) :
    (word ++ toString n).toList = word.toList ++ Nat.toDigits 10 n := by
  rw [String.toList_append, Nat.toString_eq_ofList_toDigits, String.toList_ofList]

theorem written_name {t : Target} (numbered : t.Numbered) : Written t.name.toList t := by
  cases t with
  | host => exact .host
  | sim n => exact toList_append_number "sim" n ▸ .sim (.numeral (Text.numeral_toDigits (numbered n rfl)))
  | cuda n => exact toList_append_number "cuda" n ▸ .cuda (.numeral (Text.numeral_toDigits (numbered n rfl)))

/-- The text of a device is read back, and so is the one with a colon before the number. What is read at all is a name
of a device, and any other text is refused as a wrong option. -/
theorem texts_read_back :
    (∀ t : Target, t.Numbered → parse t.name.toList = .ok t) ∧
      (∀ n < 2 ^ 64, parse s!"sim:{n}".toList = .ok (sim n) ∧ parse s!"cuda:{n}".toList = .ok (cuda n)) ∧
      ∀ cs, (∀ t, parse cs = .ok t ↔ Written cs t) ∧
        ((∀ t, ¬ Written cs t) →
          parse cs = .error (.configuration ("unknown device `" ++ String.ofList cs ++ "`"))) := by
  refine ⟨fun t numbered => parse_eq_ok.mpr (written_name numbered), fun n inRange => ?_,
    fun cs => ⟨fun t => parse_eq_ok, parse_eq_error⟩⟩
  have number : Ordinal (':' :: Nat.toDigits 10 n) n := .colonNumeral (Text.numeral_toDigits inRange)
  exact ⟨parse_eq_ok.mpr (toList_append_number "sim:" n ▸ .sim number),
    parse_eq_ok.mpr (toList_append_number "cuda:" n ▸ .cuda number)⟩

example : parse "cuda:+007".toList = .ok (cuda 7) := rfl

/-- The greatest ordinal, and a word in the place of a number. -/
theorem texts_read_back_greatest :
    (sim 18446744073709551615).Numbered ∧ 18446744073709551615 < 2 ^ 64 ∧
      parse "sim18446744073709551615".toList = .ok (sim 18446744073709551615) ∧
      parse "cuda:18446744073709551615".toList = .ok (cuda 18446744073709551615) ∧
      (∀ t, ¬ Written "sim:x".toList t) ∧ parse "sim:x".toList = .error (.configuration "unknown device `sim:x`") := by
  obtain ⟨names, colons, texts⟩ := texts_read_back
  have numbered : (sim 18446744073709551615).Numbered := by
    rintro n ⟨⟩
    decide
  have inRange : 18446744073709551615 < 2 ^ 64 := by decide
  have none : ∀ t, ¬ Written "sim:x".toList t := fun t written => by
    cases ((texts _).1 t).mpr written
  exact ⟨numbered, inRange, names _ numbered, (colons _ inRange).2, none, (texts _).2 none⟩

end Target

end TensorGraph
