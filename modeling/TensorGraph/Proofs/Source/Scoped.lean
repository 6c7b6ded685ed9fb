import TensorGraph.Proofs.Kernel.TotalPointwise
import TensorGraph.Proofs.Source.Words

/-! Generated source is well scoped. Its text is made of a fixed vocabulary, names of registers and loads of inputs; the
line of a step names the registers of its operands, which earlier lines declare, and a load names its input. -/
namespace TensorGraph.Source

/-- The name of a register. -/
def registerName (n : Nat) : String := s!"r{n}"

/-- The name of an input. -/
def inputName (k : Nat) : String := s!"in{k}"

/-- The words that say what is done with registers and inputs. -/
def vocabulary : List String :=
  ["(", ")", "<", ">", ",", "?", ":", "+", "-", "*", "/", "=", "0", "0.0", "1.0", "static_cast", "double", "float",
    "uint8_t", "uint32_t", "int", "int64_t", "__half", "__nv_bfloat16", "__float2half", "__float2bfloat16",
    "fabs", "fmax", "fmin", "pow", "exp", "log", "sqrt", "tanh"]

/-- The words name these registers and load these inputs, some of them by their first element, and say nothing else that
has a meaning of its own. -/
inductive Reads : List String → List Nat → List (Nat × Bool) → Prop where
  | nil : Reads [] [] []
  | word (known : w ∈ vocabulary) (rest : Reads ws rs ls) : Reads (w :: ws) rs ls
  | register (n : Nat) (rest : Reads ws rs ls) : Reads (registerName n :: ws) (n :: rs) ls
  | load (k : Nat) (first : Bool) (rest : Reads ws rs ls) :
      Reads (inputName k :: "[" :: (if first then "0" else "i") :: "]" :: ws) rs ((k, first) :: ls)

theorem Reads.append {ws ws' : List String} {rs rs' : List Nat} {ls ls' : List (Nat × Bool)} (left : Reads ws rs ls)
    (right : Reads ws' rs' ls') : Reads (ws ++ ws') (rs ++ rs') (ls ++ ls') := by
  induction left with
  | nil => exact right
  | word known _ ih => exact .word known ih
  | register n _ ih => exact .register n ih
  | load k first _ ih => exact .load k first ih

/-- Words that have no meaning of their own. -/
def Known (ws : List String) : Prop := ∀ w ∈ ws, w ∈ vocabulary

instance (ws : List String) : Decidable (Known ws) := inferInstanceAs (Decidable (∀ w ∈ ws, w ∈ vocabulary))

theorem Known.append {ws ws' : List String} (left : Known ws) (right : Known ws') : Known (ws ++ ws') :=
  List.forall_mem_append.mpr ⟨left, right⟩

theorem Known.append_reads {ws ws' : List String} {rs : List Nat} {ls : List (Nat × Bool)} (known : Known ws)
    (reads : Reads ws' rs ls) : Reads (ws ++ ws') rs ls := by
  induction ws with
  | nil => exact reads
  | cons w ws ih =>
    obtain ⟨first, rest⟩ := List.forall_mem_cons.mp known
    exact .word first (ih rest)

theorem Reads.append_known {ws ws' : List String} {rs : List Nat} {ls : List (Nat × Bool)} (reads : Reads ws rs ls)
    (known : Known ws') : Reads (ws ++ ws') rs ls := by
  have nothing : Reads ws' [] [] := List.append_nil ws' ▸ known.append_reads .nil
  simpa using reads.append nothing

theorem toList_registerName (n : Nat) : (registerName n).toList = 'r' :: Nat.toDigits 10 n := by
  show ("r" ++ toString n).toList = _
  simp

theorem head_registerName (n : Nat) : (registerName n).toList.head? = some 'r' := by
  rw [toList_registerName, List.head?_cons]

theorem head_inputName (k : Nat) : (inputName k).toList.head? = some 'i' := by
  simp [inputName, toString]

/-- A word that is no name of a register or an input, is not known and is no part of a load does not stand in the
text. -/
theorem Reads.not_mem {w : String} {ws : List String} {rs : List Nat} {ls : List (Nat × Bool)} (reads : Reads ws rs ls)
    (unknown : w ∉ vocabulary ++ ["[", "0", "i", "]"])
    (noName : w.toList.head? ≠ some 'r' ∧ w.toList.head? ≠ some 'i') : w ∉ ws := by
  rw [List.mem_append, not_or] at unknown
  obtain ⟨known, inLoad⟩ := unknown
  simp only [List.mem_cons, List.not_mem_nil, or_false, not_or] at inLoad
  induction reads with
  | nil => exact List.not_mem_nil
  | word member _ ih =>
    refine List.not_mem_cons_of_ne_of_not_mem (fun same => known (same ▸ member)) ih
  | register n _ ih =>
    exact List.not_mem_cons_of_ne_of_not_mem (fun same => noName.1 (same ▸ head_registerName n)) ih
  | load k first _ ih =>
    have name : w ≠ inputName k := fun same => noName.2 (same ▸ head_inputName k)
    cases first <;> simp [name, inLoad, ih]

theorem registerName_inj {m n : Nat} : registerName m = registerName n ↔ m = n := by
  refine ⟨fun same => ?_, congrArg registerName⟩
  have digits : Nat.toDigits 10 m = Nat.toDigits 10 n := by
    have lists := congrArg String.toList same
    rw [toList_registerName, toList_registerName] at lists
    exact (List.cons.inj lists).2
  rw [← Nat.ofDigitChars_ten_toDigits (n := m), digits, Nat.ofDigitChars_ten_toDigits]

/-- The registers are those whose names stand in the text. -/
theorem Reads.mem_registerName {ws : List String} {rs : List Nat} {ls : List (Nat × Bool)} (reads : Reads ws rs ls)
    (m : Nat) : registerName m ∈ ws ↔ m ∈ rs := by
  have differs {w : String} (head : w.toList.head? ≠ some 'r') : registerName m ≠ w := fun same =>
    head (same ▸ head_registerName m)
  induction reads with
  | nil => simp
  | word known _ ih =>
    have noName : ∀ w ∈ vocabulary, w.toList.head? ≠ some 'r' := by decide
    simp [differs (noName _ known), ih]
  | register n _ ih => simp [registerName_inj, ih]
  | load k first _ ih =>
    have name : registerName m ≠ inputName k := differs (by simp [head_inputName])
    have mark : ∀ w ∈ ["[", "0", "i", "]"], registerName m ≠ w := fun w member =>
      differs ((by decide : ∀ w ∈ ["[", "0", "i", "]"], w.toList.head? ≠ some 'r') w member)
    cases first <;> simp [name, mark, ih]

theorem words_number (stem : String) (chars : stem.toList.all isWordChar) (n : Nat) :
    words (stem ++ toString n) = [stem ++ toString n] := by
  refine words_name (fun c member => ?_) (by simp)
  rw [String.toList_append, Nat.toString_eq_ofList_toDigits, String.toList_ofList] at member
  rcases List.mem_append.mp member with inStem | inNumber
  · exact List.all_eq_true.mp chars c inStem
  · have digit := Nat.isDigit_of_mem_toDigits (by decide) (by decide) inNumber
    simp [isWordChar, Char.isAlphanum, digit]

theorem words_register (n : Nat) : words (registerName n) = [registerName n] :=
  words_number "r" (by decide) n

theorem words_load (k : Nat) (first : Bool) :
    words (CExpr.load k first).text = [inputName k, "[", if first then "0" else "i", "]"] := by
  have name : words (inputName k) = [inputName k] := words_number "in" (by decide) k
  have text : (CExpr.load k first).text = inputName k ++ "[" ++ (if first then "0" else "i") ++ "]" := rfl
  simp (disch := decide) only [text, words_append_mark, words_mark_append, name]
  cases first <;> rfl

theorem opens : Known (words "(") := by decide

theorem closes : Known (words ")") := by decide

theorem space : Known (words " ") := by decide

theorem comma : Known (words ", ") := by decide

theorem asks : Known (words " ? ") := by decide

theorem otherwise : Known (words " : ") := by decide

namespace CExpr

/-- Whatever stands in the text beside registers and loads is known. -/
def Spelled : CExpr → Prop
  | load .. | register _ => True
  | number t => Known (words t)
  | grouped e | negated e => e.Spelled
  | converted t e | call t e => Known (words t) ∧ e.Spelled
  | call2 t a b | operator t a b => Known (words t) ∧ a.Spelled ∧ b.Spelled
  | choice c y n => c.Spelled ∧ y.Spelled ∧ n.Spelled

/-- The text of an expression names the registers that it reads and the inputs that it loads. -/
theorem Spelled.reads {e : CExpr} (spelled : e.Spelled) : Reads (words e.text) e.registers e.loads := by
  induction e with
  | load k first =>
    rw [words_load]
    exact .load k first .nil
  | register n =>
    rw [show (register n).text = registerName n from rfl, words_register]
    exact .register n .nil
  | number t => exact List.append_nil (words t) ▸ Known.append_reads spelled .nil
  | grouped e ih =>
    simp (disch := decide) only [text, words_append_mark, words_mark_first]
    exact (opens.append_reads (ih spelled)).append_known closes
  | negated e ih =>
    simp (disch := decide) only [text, words_mark_first]
    exact Known.append_reads (by decide) (ih spelled)
  | converted t e ih =>
    simp (disch := decide) only [text, words_append_mark, words_mark_append, words_mark_first]
    have before : Known (words "static_cast<" ++ words t ++ words ">(") :=
      .append (.append (by decide) spelled.1) (by decide)
    exact (before.append_reads (ih spelled.2)).append_known closes
  | call f e ih =>
    simp (disch := decide) only [text, words_append_mark, words_mark_append]
    exact ((spelled.1.append opens).append_reads (ih spelled.2)).append_known closes
  | call2 f a b left right =>
    simp (disch := decide) only [text, words_append_mark, words_mark_append]
    have first := (spelled.1.append opens).append_reads (left spelled.2.1)
    exact ((first.append_known comma).append (right spelled.2.2)).append_known closes
  | operator s a b left right =>
    simp (disch := decide) only [text, words_append_mark, words_mark_append]
    have first := ((left spelled.2.1).append_known space).append_known spelled.1
    exact (first.append_known space).append (right spelled.2.2)
  | choice c y n cond yes no =>
    simp (disch := decide) only [text, words_append_mark, words_mark_append, words_mark_first]
    have first := (opens.append_reads (cond spelled.1)).append_known asks
    have second := (first.append (yes spelled.2.1)).append_known otherwise
    exact (second.append (no spelled.2.2)).append_known closes

/-- A type of elements is a word of its own. -/
theorem known_cType (kind : Kind) : Known (words kind.cType) := by
  cases kind <;> decide

theorem spelled_number {t : String} (known : Known (words t)) : (number t).Spelled := known

theorem spelled_widened {x : CExpr} (spelled : x.Spelled) (kind : Kind) : (widened kind x).Spelled := by
  cases kind with
  | f64 => exact spelled
  | f16 | bf16 | f32 => exact ⟨by decide, by decide, spelled⟩
  | u8 | u32 | i32 | i64 => exact ⟨by decide, spelled⟩

theorem spelled_narrowed {v : CExpr} (spelled : v.Spelled) (kind : Kind) : (narrowed kind v).Spelled := by
  cases kind with
  | f16 | bf16 => exact ⟨by decide, by decide, spelled⟩
  | u8 | u32 | i32 | i64 | f32 | f64 => exact ⟨known_cType _, spelled⟩

theorem spelled_viaDouble {x : CExpr} (spelled : x.Spelled) (kind : Kind) {f : String} (known : Known (words f)) :
    (viaDouble kind f x).Spelled :=
  spelled_narrowed (v := call f (widened kind x)) ⟨known, spelled_widened spelled kind⟩ kind

theorem spelled_unary (f : Unary) (kind : Kind) {x : CExpr} (spelled : x.Spelled) : (unary f kind x).Spelled := by
  have wide := spelled_widened spelled kind
  have zero : (number "0").Spelled := spelled_number (by decide)
  cases f with
  | neg =>
    simp only [unary]
    split
    · exact spelled_narrowed (v := negated (widened kind x)) wide kind
    · exact ⟨known_cType kind, spelled⟩
  | abs =>
    simp only [unary]
    split
    · exact spelled_viaDouble spelled kind (by decide)
    split
    · exact ⟨⟨by decide, spelled, zero⟩, ⟨known_cType kind, spelled⟩, spelled⟩
    · exact spelled
  | relu =>
    simp only [unary]
    split
    · have zeroPoint : (number "0.0").Spelled := spelled_number (by decide)
      exact spelled_narrowed (v := call2 "fmax" (widened kind x) (number "0.0")) ⟨by decide, wide, zeroPoint⟩ kind
    · exact ⟨⟨by decide, spelled, zero⟩, spelled, known_cType kind, zero⟩
  | exp | log | sqrt | tanh => exact spelled_viaDouble spelled kind (by decide)
  | sigmoid =>
    have one : (number "1.0").Spelled := spelled_number (by decide)
    have below : (grouped (operator "+" (number "1.0") (call "exp" (negated (widened kind x))))).Spelled :=
      ⟨by decide, one, by decide, wide⟩
    exact spelled_narrowed (v := operator "/" _ _) ⟨by decide, one, below⟩ kind

theorem spelled_binary (f : Binary) (kind : Kind) {a b : CExpr} (left : a.Spelled) (right : b.Spelled) :
    (binary f kind a b).Spelled := by
  have wide := spelled_widened left kind
  have wide' := spelled_widened right kind
  have zero : (number "0").Spelled := spelled_number (by decide)
  unfold binary
  split
  · refine spelled_narrowed ?_ kind
    cases f with
    | add | sub | mul | div | max | min | pow => exact ⟨by decide, wide, wide'⟩
  · cases f with
    | add | sub | mul => exact ⟨known_cType kind, by decide, left, right⟩
    | div =>
      exact ⟨⟨by decide, right, zero⟩, ⟨known_cType kind, zero⟩, known_cType kind, by decide, left, right⟩
    | max | min => exact ⟨⟨by decide, left, right⟩, left, right⟩
    | pow => exact ⟨known_cType kind, by decide, wide, wide'⟩

section Mentions

variable {x : CExpr}

@[simp] theorem registers_widened (kind : Kind) : (widened kind x).registers = x.registers := by
  cases kind <;> rfl

@[simp] theorem registers_narrowed (kind : Kind) : (narrowed kind x).registers = x.registers := by
  cases kind <;> rfl

@[simp] theorem loads_widened (kind : Kind) : (widened kind x).loads = x.loads := by
  cases kind <;> rfl

@[simp] theorem loads_narrowed (kind : Kind) : (narrowed kind x).loads = x.loads := by
  cases kind <;> rfl

/-- A function of one operand mentions what its operand does. -/
theorem unary_mentions (f : Unary) (kind : Kind) (x : CExpr) :
    (∀ m, m ∈ (unary f kind x).registers ↔ m ∈ x.registers) ∧ ∀ l, l ∈ (unary f kind x).loads ↔ l ∈ x.loads := by
  cases f with
  | neg | abs | relu =>
    simp only [unary, viaDouble]
    split_ifs <;> simp [registers, loads]
  | exp | log | sqrt | tanh | sigmoid => simp [unary, viaDouble, registers, loads]

/-- A function of two operands mentions what one of them does. -/
theorem binary_mentions (f : Binary) (kind : Kind) (a b : CExpr) :
    (∀ m, m ∈ (binary f kind a b).registers ↔ m ∈ a.registers ∨ m ∈ b.registers) ∧
      ∀ l, l ∈ (binary f kind a b).loads ↔ l ∈ a.loads ∨ l ∈ b.loads := by
  unfold binary
  split
  · cases f <;> simp [binaryFloat, registers, loads]
  · cases f <;> simp [binaryInteger, registers, loads] <;> grind

end Mentions

end CExpr

/-- The registers that a step reads. -/
def operands : Step → List Nat
  | .load _ => []
  | .unary _ a => [a]
  | .binary _ a b => [a, b]

/-- The line declares register `n`, and nothing else, with a value that names the registers of the operands of a step
and the input that it loads. Those registers have lines before this one, and the input is one of so many. -/
structure Declares (kind : Kind) (inputs : Nat) (scalars : List Bool) (n : Nat) (step : Step) (line : String)
    (value : List String) (rs : List Nat) (ls : List (Nat × Bool)) : Prop where
  line : words line = ["const", kind.cType, registerName n, "="] ++ value ++ [";"]
  reads : Reads value rs ls
  single : "const" ∉ value ∧ ";" ∉ value
  other : registerName n ∉ value
  operands : ∀ m, m ∈ rs ↔ m ∈ operands step
  earlier : ∀ m ∈ rs, m < n
  loads : ∀ k first, (k, first) ∈ ls ↔ step = .load k ∧ first = scalars[k]?.getD false
  inside : ∀ k first, (k, first) ∈ ls → k < inputs

namespace KernelSource

theorem ofStep_spelled (kind : Kind) (scalars : List Bool) (step : Step) : (ofStep kind scalars step).Spelled := by
  cases step with
  | load k => trivial
  | unary f a => exact CExpr.spelled_unary f kind (x := .register a) trivial
  | binary f a b => exact CExpr.spelled_binary f kind (a := .register a) (b := .register b) trivial trivial

theorem ofStep_registers (kind : Kind) (scalars : List Bool) (step : Step) (m : Nat) :
    m ∈ (ofStep kind scalars step).registers ↔ m ∈ operands step := by
  cases step with
  | load k => rfl
  | unary f a => exact (CExpr.unary_mentions f kind (.register a)).1 m
  | binary f a b => simp [ofStep, (CExpr.binary_mentions f kind (.register a) (.register b)).1, CExpr.registers, operands]

theorem ofStep_loads (kind : Kind) (scalars : List Bool) (step : Step) (k : Nat) (first : Bool) :
    (k, first) ∈ (ofStep kind scalars step).loads ↔ step = .load k ∧ first = scalars[k]?.getD false := by
  cases step with
  | load j =>
    simp only [ofStep, loadOf, CExpr.loads, List.mem_singleton, Prod.mk.injEq, Step.load.injEq]
    constructor
    · rintro ⟨rfl, rfl⟩
      exact ⟨rfl, rfl⟩
    · rintro ⟨rfl, rfl⟩
      exact ⟨rfl, rfl⟩
  | unary f a => simp [ofStep, (CExpr.unary_mentions f kind (.register a)).2, CExpr.loads]
  | binary f a b => simp [ofStep, (CExpr.binary_mentions f kind (.register a) (.register b)).2, CExpr.loads]

theorem words_lineText (kind : Kind) (n : Nat) (value : CExpr) :
    words (lineText kind n value) = ["const", kind.cType, registerName n, "="] ++ words value.text ++ [";"] := by
  have text : lineText kind n value =
      "const " ++ kind.cType ++ " " ++ registerName n ++ " = " ++ value.text ++ ";" := by
    have declared : s!" r{n} = " = " " ++ registerName n ++ " = " := by
      show " r" ++ toString n ++ " = " = " " ++ ("r" ++ toString n) ++ " = "
      rw [← String.append_assoc]
      rfl
    simp only [lineText, declared, String.append_assoc]
  have type : words kind.cType = [kind.cType] := by cases kind <;> decide
  simp (disch := decide) only [text, words_append_mark, words_mark_append, words_mark_first, type, words_register]
  rfl

/-- The line of a step that refers to inputs and earlier steps only is well scoped. -/
theorem lineText_declares (kind : Kind) {inputs n : Nat} {step : Step} (inRange : Expr.InRange inputs n step)
    (scalars : List Bool) :
    ∃ value rs ls, Declares kind inputs scalars n step (lineText kind n (ofStep kind scalars step)) value rs ls := by
  have reads := (ofStep_spelled kind scalars step).reads
  have registers := ofStep_registers kind scalars step
  have loads := ofStep_loads kind scalars step
  have earlier : ∀ m ∈ (ofStep kind scalars step).registers, m < n := by
    intro m member
    have operand := (registers m).mp member
    cases step with
    | load k => cases operand
    | unary f a => exact List.mem_singleton.mp operand ▸ inRange
    | binary f a b =>
      rcases List.mem_pair.mp operand with rfl | rfl
      · exact inRange.1
      · exact inRange.2
  refine ⟨_, _, _, words_lineText kind n _, reads, ⟨?_, ?_⟩, ?_, registers, earlier, loads, ?_⟩
  · exact reads.not_mem (by decide) (by decide)
  · exact reads.not_mem (by decide) (by decide)
  · rw [reads.mem_registerName]
    exact fun own => Nat.lt_irrefl n (earlier n own)
  · intro k first member
    obtain ⟨rfl, -⟩ := (loads k first).mp member
    exact inRange

/-- Every step of a checked expression refers to inputs and earlier steps only. -/
theorem inRange_of_checkFrom {inputs : Nat} {kind : Kind} {i n : Nat} {steps : List Step} {step : Step}
    (checked : Expr.checkFrom inputs kind i steps = .ok ()) (at_ : steps[n]? = some step) :
    Expr.InRange inputs (i + n) step := by
  induction steps generalizing i n with
  | nil => cases at_
  | cons first steps ih =>
    obtain ⟨inRange, rest⟩ := Expr.checkFrom_cons checked
    cases n with
    | zero =>
      cases at_
      exact inRange
    | succ n =>
      rw [Nat.add_comm n 1, ← Nat.add_assoc]
      exact ih rest at_

/-- A checked expression has a kernel. Its lines are one for each step, and each declares the register of its step with
a value over registers of lines before it and elements of inputs, taken at the first place exactly where they are marked.
The result is the last register, and the parameters are the inputs in order, the output and the number of elements. -/
theorem fused_well_scoped {e : Expr} {kind : Kind} (accepted : e.check kind = .ok ()) (outKind : Kind)
    (scalars : List Bool) :
    ∃ k, of? (.fused e) kind outKind scalars = some k ∧ k.bodyLines.length = e.steps.length ∧
      (∀ n step, e.steps[n]? = some step → ∃ line value rs ls, k.bodyLines[n]? = some line ∧
        Declares kind e.inputs scalars n step line value rs ls) ∧
      k.result.text = registerName (e.steps.length - 1) ∧
      k.params = (List.range e.inputs).map (fun i => "const " ++ kind.cType ++ " *" ++ inputName i) ++
        [outKind.cType ++ " *out", "const size_t numel"] := by
  obtain ⟨someSteps, checked⟩ := Expr.check_ok accepted
  refine ⟨_, if_neg (mt List.isEmpty_iff.mp someSteps), ?_, fun n step at_ => ?_, rfl, ?_⟩
  · simp [bodyLines]
  · obtain ⟨value, rs, ls, declares⟩ :=
      lineText_declares kind (Nat.zero_add n ▸ inRange_of_checkFrom checked at_) scalars
    exact ⟨_, value, rs, ls, by simp [bodyLines, at_], declares⟩
  · refine congrArg (· ++ _) (List.map_congr_left fun i _ => ?_)
    show "const " ++ kind.cType ++ (" *in" ++ toString i) = "const " ++ kind.cType ++ " *" ++ ("in" ++ toString i)
    have star : " *in" ++ toString i = " *" ++ ("in" ++ toString i) := by
      rw [← String.append_assoc]
      rfl
    simp only [star, String.append_assoc]

/-- The exponential of one input plus the only element of another. -/
def shiftedExp : Expr := ⟨[.load 0, .unary .exp 0, .load 1, .binary .add 1 2], 2⟩

theorem fused_well_scoped_shiftedExp : shiftedExp.check .f16 = .ok () ∧
    ∃ k, of? (.fused shiftedExp) .f16 .f16 [false, true] = some k ∧ k.result.text = "r3" ∧
      k.params = ["const __half *in0", "const __half *in1", "__half *out", "const size_t numel"] ∧
      (∃ value rs ls, Declares .f16 2 [false, true] 1 (.unary .exp 0)
        "const __half r1 = __float2half(static_cast<float>(exp(static_cast<double>(static_cast<float>(r0)))));"
        value rs ls) ∧
      ∃ value rs ls, Declares .f16 2 [false, true] 2 (.load 1) "const __half r2 = in1[0];" value rs ls := by
  have accepted : shiftedExp.check .f16 = .ok () := rfl
  obtain ⟨k, made, -, lines, result, params⟩ := fused_well_scoped accepted .f16 [false, true]
  obtain ⟨line, value, rs, ls, atLine, declares⟩ := lines 1 (.unary .exp 0) rfl
  obtain ⟨line', value', rs', ls', atLine', declares'⟩ := lines 2 (.load 1) rfl
  cases made
  cases atLine
  cases atLine'
  exact ⟨accepted, _, rfl, result, params, ⟨value, rs, ls, declares⟩, value', rs', ls', declares'⟩

end KernelSource

end TensorGraph.Source
