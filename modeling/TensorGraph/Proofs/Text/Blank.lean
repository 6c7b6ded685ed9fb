import Mathlib.Data.List.TakeWhile
import TensorGraph.Text.Blank

/-! Laws of cutting text: blanks at the ends do not reach what is trimmed, and the pieces between separators are
those of the two sides of any one of them. -/
namespace TensorGraph.Text

/-- Nothing but blanks. -/
def Blank (cs : List Char) : Prop := ∀ c ∈ cs, isBlank c

instance (cs : List Char) : Decidable (Blank cs) := List.decidableBAll (isBlank · = true) cs

theorem Blank.not_mem {cs : List Char} (blank : Blank cs) {c : Char} (visible : isBlank c = false) : c ∉ cs :=
  fun member => Bool.false_ne_true (visible.symm.trans (blank c member))

theorem dropWhile_blank_append {bs : List Char} (blank : Blank bs) (cs : List Char) :
    (bs ++ cs).dropWhile isBlank = cs.dropWhile isBlank := by
  rw [List.dropWhile_append, List.dropWhile_eq_nil_iff.mpr blank, List.isEmpty_nil, if_pos rfl]

theorem trim_blank_append {bs : List Char} (blank : Blank bs) (cs : List Char) : trim (bs ++ cs) = trim cs := by
  rw [trim, dropWhile_blank_append blank, trim]

theorem Blank.trim_eq {cs : List Char} (blank : Blank cs) : trim cs = [] := by
  rw [trim, List.dropWhile_eq_nil_iff.mpr blank]
  rfl

theorem trim_append_blank {bs : List Char} (blank : Blank bs) (cs : List Char) : trim (cs ++ bs) = trim cs := by
  have ends : Blank bs.reverse := fun c member => blank c (List.mem_reverse.mp member)
  rw [trim, List.dropWhile_append, trim]
  cases rest : cs.dropWhile isBlank with
  | nil => rw [List.isEmpty_nil, if_pos rfl, List.dropWhile_eq_nil_iff.mpr blank]
  | cons c rest =>
    rw [List.isEmpty_cons, if_neg Bool.false_ne_true, List.reverse_append, dropWhile_blank_append ends]

theorem mem_of_mem_trim {c : Char} {cs : List Char} (member : c ∈ trim cs) : c ∈ cs := by
  have kept := (List.dropWhile_sublist _).subset (List.mem_reverse.mp member)
  exact (List.dropWhile_sublist _).subset (List.mem_reverse.mp kept)

theorem trim_dropWhile (cs : List Char) : trim (cs.dropWhile isBlank) = trim cs := by
  have blank : Blank (cs.takeWhile isBlank) := fun _ => List.mem_takeWhile_imp
  rw [← trim_blank_append blank, List.takeWhile_append_dropWhile]

theorem trim_reverse_dropWhile (cs : List Char) : trim (cs.reverse.dropWhile isBlank).reverse = trim cs := by
  have blank : Blank (cs.reverse.takeWhile isBlank).reverse := fun _ member =>
    List.mem_takeWhile_imp (List.mem_reverse.mp member)
  rw [← trim_append_blank blank, ← List.reverse_append, List.takeWhile_append_dropWhile, List.reverse_reverse]

section Cut

variable {sep : Char}

theorem dropWhile_append_visible (visible : isBlank sep = false) (before after : List Char) :
    (before ++ sep :: after).dropWhile isBlank = before.dropWhile isBlank ++ sep :: after := by
  rw [List.dropWhile_append]
  cases rest : before.dropWhile isBlank with
  | nil => simp [visible]
  | cons c rest => rfl

/-- Trimming goes no further than a character that is no blank. -/
theorem trim_append_visible (visible : isBlank sep = false) (before after : List Char) :
    trim (before ++ sep :: after) =
      before.dropWhile isBlank ++ sep :: (after.reverse.dropWhile isBlank).reverse := by
  rw [trim, dropWhile_append_visible visible, List.reverse_append, List.reverse_cons, List.append_assoc,
    List.singleton_append, dropWhile_append_visible visible]
  simp

theorem split_append (before after : List Char) :
    split sep (before ++ sep :: after) = split sep before ++ split sep after := by
  induction before with
  | nil => simp [split]
  | cons c before ih =>
    by_cases here : c = sep
    · simp only [List.cons_append, split, here, ↓reduceIte, ih]
    · simp only [List.cons_append, split, here, ↓reduceIte, ih]
      cases pieces : split sep before with
      | nil => exact absurd pieces (split_ne_nil sep before)
      | cons piece pieces => rfl

theorem split_of_not_mem {cs : List Char} (none : sep ∉ cs) : split sep cs = [cs] := by
  induction cs with
  | nil => rfl
  | cons c cs ih =>
    obtain ⟨differs, none⟩ := List.ne_and_not_mem_of_not_mem_cons none
    simp only [split, differs.symm, ↓reduceIte, ih none]

/-- The pieces with the separator between them are the text. -/
theorem intercalate_split (cs : List Char) : [sep].intercalate (split sep cs) = cs := by
  induction cs with
  | nil => rfl
  | cons c cs ih =>
    by_cases here : c = sep
    · cases pieces : split sep cs with
      | nil => exact absurd pieces (split_ne_nil sep cs)
      | cons piece pieces' =>
        rw [split, if_pos here, pieces, List.intercalate_cons_cons, ← pieces, ih, here]
        rfl
    · cases pieces : split sep cs with
      | nil => exact absurd pieces (split_ne_nil sep cs)
      | cons piece pieces' =>
        rw [pieces] at ih
        simp only [split, here, ↓reduceIte, pieces]
        cases pieces' with
        | nil => simpa using ih
        | cons next pieces' =>
          rw [List.intercalate_cons_cons] at ih ⊢
          rw [List.cons_append, List.cons_append, ih]

theorem not_mem_of_mem_split {piece cs : List Char} (member : piece ∈ split sep cs) : sep ∉ piece := by
  induction cs generalizing piece with
  | nil =>
    rw [List.mem_singleton.mp member]
    exact List.not_mem_nil
  | cons c cs ih =>
    by_cases here : c = sep
    · rw [split, if_pos here] at member
      rcases List.mem_cons.mp member with rfl | later
      · exact List.not_mem_nil
      · exact ih later
    · cases pieces : split sep cs with
      | nil => exact absurd pieces (split_ne_nil sep cs)
      | cons first rest =>
        simp only [split, here, ↓reduceIte, pieces] at member
        rcases List.mem_cons.mp member with rfl | later
        · have unmarked := ih (pieces ▸ List.mem_cons_self)
          simp [Ne.symm here, unmarked]
        · exact ih (pieces ▸ List.mem_cons_of_mem first later)

theorem cut?_append {before : List Char} (first : sep ∉ before) (after : List Char) :
    cut? sep (before ++ sep :: after) = some (before, after) := by
  induction before with
  | nil => simp [cut?]
  | cons c before ih =>
    obtain ⟨differs, first⟩ := List.ne_and_not_mem_of_not_mem_cons first
    simp [cut?, differs.symm, ih first]

theorem cut?_eq_some {cs before after : List Char} (cut : cut? sep cs = some (before, after)) :
    cs = before ++ sep :: after ∧ sep ∉ before := by
  induction cs generalizing before with
  | nil => cases cut
  | cons c cs ih =>
    unfold cut? at cut
    split at cut
    · rename_i here
      cases cut
      exact ⟨by rw [here, List.nil_append], List.not_mem_nil⟩
    · rename_i differs
      obtain ⟨⟨b, a⟩, rest, same⟩ := Option.map_eq_some_iff.mp cut
      cases same
      obtain ⟨whole, first⟩ := ih rest
      refine ⟨by rw [whole, List.cons_append], fun member => ?_⟩
      rcases List.mem_cons.mp member with here | later
      · exact differs here.symm
      · exact first later

theorem cut?_eq_none {cs : List Char} : cut? sep cs = none ↔ sep ∉ cs := by
  induction cs with
  | nil => simp [cut?]
  | cons c cs ih =>
    by_cases here : c = sep
    · simp [cut?, here]
    · simp [cut?, here, Ne.symm here, ih]

end Cut

end TensorGraph.Text
