import TensorGraph.Source.Kernel

/-! The words of C text. A name or a number is a word as a whole, every other character but the space is one of its own;
so a text falls into words wherever such a character stands. -/
namespace TensorGraph.Source

/-- Characters of names and numbers. -/
def isWordChar (c : Char) : Bool := c.isAlphanum || c == '_' || c == '.'

/-- The word that ends here, if there is one. -/
def ended (word : List Char) : List String := if word = [] then [] else [String.ofList word]

/-- The words of a text, after the characters of a word that is not over yet. -/
def scan (word : List Char) : List Char → List String
  | [] => ended word
  | c :: cs =>
    if isWordChar c then scan (word ++ [c]) cs
    else ended word ++ if c = ' ' then scan [] cs else String.singleton c :: scan [] cs

/-- The words of a text. -/
def words (text : String) : List String := scan [] text.toList

theorem scan_append {c : Char} (apart : isWordChar c = false) (word before after : List Char) :
    scan word (before ++ c :: after) = scan word before ++ scan [] (c :: after) := by
  induction before generalizing word with
  | nil => simp [scan, apart, ended]
  | cons b before ih =>
    simp only [List.cons_append, scan]
    split
    · exact ih _
    split
    · rw [ih, List.append_assoc, scan]
    · rw [ih, List.append_assoc, List.cons_append, scan]

/-- The text begins with a character that belongs to no name. -/
def Starts (text : String) : Prop := text.toList.head?.any fun c => !isWordChar c

/-- The text ends with a character that belongs to no name. -/
def Ends (text : String) : Prop := text.toList.getLast?.any fun c => !isWordChar c

instance (text : String) : Decidable (Starts text) := instDecidableEqBool _ _

instance (text : String) : Decidable (Ends text) := instDecidableEqBool _ _

variable {before mark after : String}

theorem words_append_mark (starts : Starts mark) : words (before ++ mark) = words before ++ words mark := by
  obtain ⟨c, first, outside⟩ := (Option.any_eq_true _ _).mp starts
  have apart : isWordChar c = false := by simpa using outside
  obtain ⟨cs, text⟩ := List.head?_eq_some_iff.mp first
  rw [words, String.toList_append, text, scan_append apart, words, words, text]

theorem words_mark_append (ends : Ends mark) : words (before ++ mark ++ after) = words (before ++ mark) ++ words after := by
  obtain ⟨c, last, outside⟩ := (Option.any_eq_true _ _).mp ends
  have apart : isWordChar c = false := by simpa using outside
  obtain ⟨cs, text⟩ := List.getLast?_eq_some_iff.mp last
  have alone (cs : List Char) : scan [] (c :: cs) = scan [] [c] ++ scan [] cs := by
    simp only [scan, apart, Bool.false_eq_true, ↓reduceIte, ended, List.nil_append]
    split <;> rfl
  have whole : (before ++ mark ++ after).toList = (before.toList ++ cs) ++ c :: after.toList := by simp [text]
  have part : (before ++ mark).toList = (before.toList ++ cs) ++ [c] := by simp [text]
  rw [words, whole, scan_append apart, alone, words, part, scan_append apart, words, List.append_assoc]

theorem words_mark_first (ends : Ends mark) : words (mark ++ after) = words mark ++ words after := by
  have after_nothing : words ("" ++ mark ++ after) = words ("" ++ mark) ++ words after := words_mark_append ends
  rwa [String.empty_append] at after_nothing

theorem scan_name {name : List Char} (chars : ∀ c ∈ name, isWordChar c) (word : List Char) :
    scan word name = ended (word ++ name) := by
  induction name generalizing word with
  | nil => rw [scan, List.append_nil]
  | cons c name ih =>
    obtain ⟨first, rest⟩ := List.forall_mem_cons.mp chars
    rw [scan, if_pos first, ih rest, List.append_assoc, List.singleton_append]

/-- A name is one word. -/
theorem words_name {name : String} (chars : ∀ c ∈ name.toList, isWordChar c) (nonempty : name ≠ "") :
    words name = [name] := by
  simp [words, scan_name chars, ended, nonempty]

end TensorGraph.Source
