import TensorGraph.Proofs.Config.Fields
import TensorGraph.Proofs.Text.Blank

/-! Texts of flags. Each flag acts on its own: neighbours that set different options may be exchanged, and blanks do not
matter. What is read makes sense, and what is not read is a configuration error. -/
namespace TensorGraph.Config

open Checked Text

/-- The option that a flag sets, if it sets one. -/
def fieldOf? (flag : List Char) : Option Field :=
  (cut? '=' flag).bind fun (key, _) => Field.ofKey? (String.ofList (trim key))

/-- Applies one flag, with the blanks that are around it and inside of it. -/
def applySpaced (c : Config) (flag : List Char) : Except Error Config :=
  match cut? '=' flag with
  | some (key, value) => c.set (String.ofList (trim key)) (trim value)
  | none =>
    if trim flag = [] then .ok c
    else .error (.configuration ("expected key=value, got `" ++ String.ofList (trim flag) ++ "`"))

theorem applyAll_append (c : Config) (flags more : List (List Char)) :
    c.applyAll (flags ++ more) = c.applyAll flags >>= fun c => c.applyAll more := by
  induction flags generalizing c with
  | nil => rfl
  | cons flag flags ih =>
    rw [List.cons_append, applyAll, applyAll, bind_assoc]
    exact bind_congr fun c => ih c

theorem flagsOf_append (before after : List Char) :
    flagsOf (before ++ ',' :: after) = flagsOf before ++ flagsOf after := by
  simp only [flagsOf, split_append, List.map_append, List.filter_append]

theorem flagsOf_intercalate (flags : List (List Char)) :
    flagsOf ([','].intercalate flags) = flags.flatMap flagsOf := by
  induction flags with
  | nil => rfl
  | cons flag flags ih =>
    cases flags with
    | nil => simp
    | cons next flags =>
      rw [List.intercalate_cons_cons, List.append_assoc, List.singleton_append, flagsOf_append, ih]
      rfl

section Flag

variable {flag : List Char}

/-- Trimming a flag and then its two sides is trimming the two sides. -/
theorem applyAll_flagsOf (one : ',' ∉ flag) (c : Config) : c.applyAll (flagsOf flag) = c.applySpaced flag := by
  have alone (visible : trim flag ≠ []) : c.applyAll (flagsOf flag) = c.apply (trim flag) := by
    have flags : flagsOf flag = [trim flag] := by simp [flagsOf, split_of_not_mem one, visible]
    rw [flags, applyAll]
    exact bind_pure _
  unfold applySpaced
  split
  · rename_i key value cut
    obtain ⟨rfl, first⟩ := cut?_eq_some cut
    have ends : trim (key ++ '=' :: value) = _ := trim_append_visible (by decide) key value
    have inKey : '=' ∉ key.dropWhile isBlank := fun member => first ((List.dropWhile_sublist _).subset member)
    simp only [alone (by simp [ends]), apply, ends, cut?_append inKey, trim_dropWhile, trim_reverse_dropWhile]
  · rename_i none
    split
    · rename_i blank
      simp [flagsOf, split_of_not_mem one, blank, applyAll]
    · rename_i visible
      have inside : '=' ∉ trim flag := fun member => cut?_eq_none.mp none (mem_of_mem_trim member)
      rw [alone visible, apply, cut?_eq_none.mpr inside]

/-- What a flag does to any options: it sets one of them, it is blank, or it is refused. -/
inductive Does (flag : List Char) : Prop where
  | sets (x : Field) (r : Except Error Config) (field : fieldOf? flag = some x)
      (does : ∀ c : Config, c.applySpaced flag = x.put c <$> r)
  | nothing (does : ∀ c : Config, c.applySpaced flag = .ok c)
  | refused (reason : String) (does : ∀ c : Config, c.applySpaced flag = .error (.configuration reason))

theorem does (flag : List Char) : Does flag := by
  cases cut : cut? '=' flag with
  | some sides =>
    obtain ⟨key, value⟩ := sides
    have does (c : Config) : c.applySpaced flag = c.set (String.ofList (trim key)) (trim value) := by
      rw [applySpaced, cut]
    cases ofKey : Field.ofKey? (String.ofList (trim key)) with
    | some x =>
      refine .sets x (x.read {} (String.ofList (trim key)) (trim value)) (by simp [fieldOf?, cut, ofKey]) fun c => ?_
      rw [does, set_eq, ofKey]
      exact x.read_eq_put _ _
    | none =>
      refine .refused ("unknown flag `" ++ String.ofList (trim key) ++ "`") fun c => ?_
      rw [does, set_eq, ofKey]
  | none =>
    by_cases blank : trim flag = []
    · exact .nothing fun c => by rw [applySpaced, cut, if_pos blank]
    · exact .refused ("expected key=value, got `" ++ String.ofList (trim flag) ++ "`") fun c => by
        rw [applySpaced, cut, if_neg blank]

/-- Flags of different options may be exchanged. -/
theorem applySpaced_comm {flag other : List Char} (apart : ∀ x, fieldOf? flag = some x → fieldOf? other ≠ some x)
    (c : Config) :
    Agree Eq (c.applySpaced flag >>= fun c => c.applySpaced other)
      (c.applySpaced other >>= fun c => c.applySpaced flag) := by
  have idle (x : Except Error Config) : Agree Eq x (x >>= fun c => .ok c) ∧ Agree Eq (x >>= fun c => .ok c) x := by
    cases x with
    | ok d => exact ⟨rfl, rfl⟩
    | error e => exact ⟨trivial, trivial⟩
  have fails (x : Except Error Config) (e f : Error) :
      Agree Eq (.error e) (x >>= fun _ => .error f : Except Error Config) ∧
        Agree Eq (x >>= fun _ => .error f : Except Error Config) (.error e) := by
    cases x <;> exact ⟨trivial, trivial⟩
  cases does flag with
  | nothing first =>
    simp only [first, ok_bind]
    exact (idle _).1
  | refused reason first =>
    simp only [first, error_bind]
    exact (fails _ _ _).1
  | sets x r field first =>
    cases does other with
    | nothing second =>
      simp only [second, ok_bind]
      exact (idle _).2
    | refused reason second =>
      simp only [second, error_bind]
      exact (fails _ _ _).2
    | sets y s otherField second =>
      have differ : x ≠ y := fun same => apart x field (same ▸ otherField)
      simp only [first, second]
      cases r with
      | error e => cases s <;> trivial
      | ok d =>
        cases s with
        | error e => trivial
        | ok e => exact Field.put_comm differ c d e

end Flag

/-- Two spellings of a flag: blanks around the whole, or around the sign between its key and its value. -/
inductive Respaced : List Char → List Char → Prop where
  | around (left : Blank l) (right : Blank r) (flag : List Char) : Respaced (l ++ flag ++ r) flag
  | between (left : Blank l) (right : Blank r) (first : '=' ∉ key) (value : List Char) :
      Respaced (key ++ l ++ '=' :: (r ++ value)) (key ++ '=' :: value)

theorem Respaced.applySpaced_eq {flag plain : List Char} (respaced : Respaced flag plain) (c : Config) :
    c.applySpaced flag = c.applySpaced plain := by
  have sign : isBlank '=' = false := by decide
  cases respaced with
  | @around l r left right =>
    cases cut : cut? '=' plain with
    | some sides =>
      obtain ⟨key, value⟩ := sides
      obtain ⟨rfl, first⟩ := cut?_eq_some cut
      have inKey : '=' ∉ l ++ key := by simp [left.not_mem sign, first]
      have whole : l ++ (key ++ '=' :: value) ++ r = (l ++ key) ++ '=' :: (value ++ r) := by simp
      simp only [applySpaced, cut, whole, cut?_append inKey, trim_blank_append left, trim_append_blank right]
    | none =>
      have inside : '=' ∉ l ++ plain ++ r := by simp [left.not_mem sign, right.not_mem sign, cut?_eq_none.mp cut]
      simp only [applySpaced, cut, cut?_eq_none.mpr inside, trim_append_blank right, trim_blank_append left]
  | @between l r key left right first value =>
    have inKey : '=' ∉ key ++ l := by simp [left.not_mem sign, first]
    simp only [applySpaced, cut?_append inKey, cut?_append first, trim_append_blank left, trim_blank_append right]

theorem Respaced.subset {flag plain : List Char} (respaced : Respaced flag plain) : plain ⊆ flag := by
  cases respaced <;> grind

theorem applySpaced_blank {flag : List Char} (blank : Blank flag) (c : Config) : c.applySpaced flag = .ok c := by
  have none : cut? '=' flag = none := cut?_eq_none.mpr (blank.not_mem (by decide))
  simp only [applySpaced, none, blank.trim_eq, ↓reduceIte]

/-- A flag leads from options that make sense to such options. -/
theorem Sensible.applyAll {c c' : Config} {flags : List (List Char)} (sensible : c.Sensible)
    (ran : c.applyAll flags = .ok c') : c'.Sensible := by
  induction flags generalizing c with
  | nil =>
    cases ran
    exact sensible
  | cons flag flags ih =>
    obtain ⟨d, first, rest⟩ := bind_eq_ok.mp ran
    refine ih ?_ rest
    unfold Config.apply at first
    split at first
    · rw [set_eq] at first
      split at first
      · exact sensible.read first
      · cases first
    · cases first

theorem refuses_applyAll (c : Config) (flags : List (List Char)) : Refuses (c.applyAll flags) := by
  induction flags generalizing c with
  | nil => exact .ok _
  | cons flag flags ih =>
    refine Refuses.bind ?_ fun d => ih d
    unfold apply
    split
    · rw [set_eq]
      split
      · exact refuses_read _ _ _ _
      · exact .error _
    · exact .error _

/-- Flags between others are applied after those before them. -/
theorem parse_intercalate (before flags after : List String) :
    parse (",".intercalate (before ++ flags ++ after)) =
      ({} : Config).applyAll (before.flatMap fun f => flagsOf f.toList) >>= fun c =>
        c.applyAll (flags.flatMap fun f => flagsOf f.toList) >>= fun c =>
          c.applyAll (after.flatMap fun f => flagsOf f.toList) := by
  have pieces : flagsOf (",".intercalate (before ++ flags ++ after)).toList =
      before.flatMap (fun f => flagsOf f.toList) ++ (flags.flatMap (fun f => flagsOf f.toList) ++
        after.flatMap fun f => flagsOf f.toList) := by
    rw [String.toList_intercalate]
    refine (flagsOf_intercalate _).trans ?_
    simp [List.flatMap_map]
  rw [parse, pieces, applyAll_append]
  exact bind_congr fun c => applyAll_append c _ _

theorem eq_ok_of_agree {x y : Except Error Config} (agree : Agree Eq x y) (c : Config) : x = .ok c ↔ y = .ok c := by
  cases x with
  | ok a =>
    cases y with
    | ok b => rw [show a = b from agree]
    | error e => exact agree.elim
  | error e =>
    cases y with
    | ok b => exact agree.elim
    | error e' => exact ⟨nofun, nofun⟩

theorem exists_flags (text : String) :
    ∃ flags : List String, text = ",".intercalate flags ∧ ∀ flag ∈ flags, ',' ∉ flag.toList := by
  refine ⟨(split ',' text.toList).map String.ofList, ?_, ?_⟩
  · have same : String.toList ∘ String.ofList = id := funext fun _ => String.toList_ofList
    rw [← String.toList_inj, String.toList_intercalate, List.map_map, same, List.map_id]
    exact (intercalate_split _).symm
  · rintro flag member
    obtain ⟨piece, inText, rfl⟩ := List.mem_map.mp member
    rw [String.toList_ofList]
    exact not_mem_of_mem_split inText

/-- Flags act each on its own. Every text is a row of flags without commas. Neighbours may be exchanged unless both set
one option: the text is read as before or refused as before. Blanks around a flag, its key or its value change nothing,
and neither does a blank flag. A text is refused as a wrong option only, and what is read makes sense. -/
theorem flags_act_alone :
    (∀ text, ∃ flags : List String, text = ",".intercalate flags ∧ ∀ flag ∈ flags, ',' ∉ flag.toList) ∧
      (∀ before after flag other, ',' ∉ flag.toList → ',' ∉ other.toList →
        (∀ x, fieldOf? flag.toList = some x → fieldOf? other.toList ≠ some x) → ∀ c,
          (parse (",".intercalate (before ++ [flag, other] ++ after)) = .ok c ↔
            parse (",".intercalate (before ++ [other, flag] ++ after)) = .ok c)) ∧
      (∀ before after spaced plain, ',' ∉ spaced.toList → Respaced spaced.toList plain.toList →
        parse (",".intercalate (before ++ [spaced] ++ after)) = parse (",".intercalate (before ++ [plain] ++ after))) ∧
      (∀ before after blank, Blank blank.toList →
        parse (",".intercalate (before ++ [blank] ++ after)) = parse (",".intercalate (before ++ after))) ∧
      (∀ text e, parse text = .error e → ∃ reason, e = .configuration reason) ∧
      ∀ text c, parse text = .ok c → c.Sensible := by
  refine ⟨exists_flags, ?_, ?_, ?_, fun text => refuses_applyAll {} _, fun text c => sensible_default.applyAll⟩
  · intro before after flag other one two apart c
    have exchanged : Agree Eq (parse (",".intercalate (before ++ [flag, other] ++ after)))
        (parse (",".intercalate (before ++ [other, flag] ++ after))) := by
      simp only [parse_intercalate, List.flatMap_cons, List.flatMap_nil, List.append_nil, applyAll_append,
        applyAll_flagsOf one, applyAll_flagsOf two]
      refine (Agree.refl (fun _ => rfl) _).bind fun c _ same => same ▸ ?_
      exact (applySpaced_comm apart c).bind fun c _ same => same ▸ Agree.refl (fun _ => rfl) _
    exact eq_ok_of_agree exchanged c
  · intro before after spaced plain one respaced
    have two : ',' ∉ plain.toList := fun member => one (respaced.subset member)
    simp only [parse_intercalate, List.flatMap_singleton, applyAll_flagsOf one, applyAll_flagsOf two,
      respaced.applySpaced_eq]
  · intro before after blank isBlank
    have one : ',' ∉ blank.toList := isBlank.not_mem (by decide)
    have none := parse_intercalate before [] after
    simp only [List.append_nil, List.flatMap_nil, applyAll, ok_bind] at none
    rw [none]
    simp only [parse_intercalate, List.flatMap_singleton, applyAll_flagsOf one, applySpaced_blank isBlank, ok_bind]

/-- A switch and a list of relaxations exchanged, blanks in a flag, a flag of blanks, an unknown key. -/
theorem flags_act_alone_switch :
    let c : Config := { collect := false, relaxed := [.flushDenormals], sim.lanes := some 1 }
    ',' ∉ "gc=off".toList ∧ ',' ∉ "precision=flush_denormals".toList ∧
      (∀ x, fieldOf? "gc=off".toList = some x → fieldOf? "precision=flush_denormals".toList ≠ some x) ∧
      parse "lanes=0,precision=flush_denormals,gc=off" = .ok c ∧
      parse "lanes=0,gc=off,precision=flush_denormals" = .ok c ∧
      Respaced "gc = off".toList "gc=off".toList ∧ parse "gc = off" = parse "gc=off" ∧
      Blank " \t".toList ∧ parse "gc=off, \t" = parse "gc=off" ∧
      c.Sensible ∧ ∃ e, parse "colour=blue" = .error e ∧ ∃ reason, e = .configuration reason := by
  intro c
  obtain ⟨-, exchange, respace, blank, refuses, sensible⟩ := flags_act_alone
  have apart : ∀ x, fieldOf? "gc=off".toList = some x → fieldOf? "precision=flush_denormals".toList ≠ some x := by
    rintro x ⟨⟩
    decide
  have before : parse "lanes=0,gc=off,precision=flush_denormals" = .ok c := rfl
  have space : Blank [' '] := by decide
  have spaced : Respaced "gc = off".toList "gc=off".toList :=
    show Respaced ("gc".toList ++ [' '] ++ '=' :: ([' '] ++ "off".toList)) ("gc".toList ++ '=' :: "off".toList) from
      .between space space (by decide) _
  have blanks : Blank " \t".toList := by decide
  have unknown : parse "colour=blue" = .error (.configuration "unknown flag `colour`") := rfl
  have one : ',' ∉ "gc=off".toList := by decide
  have two : ',' ∉ "precision=flush_denormals".toList := by decide
  exact ⟨one, two, apart, (exchange ["lanes=0"] [] _ _ one two apart c).mp before, before, spaced,
    respace [] [] _ _ (by decide) spaced, blanks, blank ["gc=off"] [] _ blanks, sensible _ _ before, _, unknown,
    refuses _ _ unknown⟩

end TensorGraph.Config
