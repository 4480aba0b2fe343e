/-
Module: DefinitionLists.Proofs.Words
Purpose: Texts that differ in blanks: the characters of a text that are not blank, and its words.
Main exports: Text.solid, Text.words, Text.words_append_of_isBlank, Text.spaced, Text.lettered, Text.worded,
  Text.lettered_worded
-/
import DefinitionLists.Text.Blank

namespace DefinitionLists.Text

/-! ### Characters that are not blank -/

/-- The characters of a text that are not blank. -/
def solid (text : List Char) : List Char := text.filter (fun c => !isBlank c)

theorem solid_append (first second : List Char) :
    solid (first ++ second) = solid first ++ solid second :=
  List.filter_append _ _

theorem solid_cons (c : Char) (text : List Char) : solid (c :: text) = solid [c] ++ solid text :=
  solid_append [c] text

theorem solid_of_blank {text : List Char} (h : ∀ c ∈ text, isBlank c = true) : solid text = [] :=
  List.filter_eq_nil_iff.2 fun c hc => by simp [h c hc]

/-! ### Words -/

/-- The maximal runs of characters of a text that are not blank. -/
def words (text : List Char) : List (List Char) :=
  (text.splitOnP isBlank).filter fun word => !word.isEmpty

/-- The words of a text with one space between them. -/
def spaced (text : List Char) : List Char := [' '].intercalate (words text)

/-- A blank ends a word. -/
theorem words_append_of_isBlank {c : Char} (h : isBlank c = true) (before after : List Char) :
    words (before ++ c :: after) = words before ++ words after := by
  rw [words, List.splitOnP_append_cons before after h, List.filter_append, ← words, ← words]

theorem words_cons_of_isBlank {c : Char} (h : isBlank c = true) (text : List Char) :
    words (c :: text) = words text :=
  words_append_of_isBlank h [] text

/-- It does not matter which blanks come between words, nor how many. -/
theorem words_append_of_blank {blanks : List Char} (h : ∀ c ∈ blanks, isBlank c = true)
    (hne : blanks ≠ []) (before after : List Char) :
    words (before ++ (blanks ++ after)) = words before ++ words after := by
  cases blanks with
  | nil => exact absurd rfl hne
  | cons c more =>
      obtain ⟨hc, hmore⟩ := List.forall_mem_cons.1 h
      have hfront : words (more ++ after) = words after := by
        clear h hne
        induction more with
        | nil => rfl
        | cons d rest ih =>
            obtain ⟨hd, hrest⟩ := List.forall_mem_cons.1 hmore
            rw [List.cons_append, words_cons_of_isBlank hd, ih hrest]
      rw [List.cons_append, words_append_of_isBlank hc, hfront]

theorem flatten_words (text : List Char) : (words text).flatten = solid text := by
  have hfilter (texts : List (List Char)) :
      (texts.filter fun word => !word.isEmpty).flatten = texts.flatten := by
    induction texts with
    | nil => rfl
    | cons word more ih => cases word <;> simp [ih]
  rw [words, hfilter]
  induction text with
  | nil => rfl
  | cons c more ih =>
      rw [List.splitOnP_cons_eq_if_modifyHead, solid_cons, ← ih]
      cases hc : isBlank c with
      | true => simp [solid, hc]
      | false =>
          obtain ⟨word, words, heq⟩ := List.exists_cons_of_ne_nil (List.splitOnP_ne_nil isBlank more)
          simp [solid, hc, heq]

/-- The space between words is blank. -/
theorem solid_spaced (text : List Char) : solid (spaced text) = solid text := by
  have hspace : solid [' '] = [] := rfl
  have hjoin (texts : List (List Char)) : solid ([' '].intercalate texts) = solid texts.flatten := by
    induction texts with
    | nil => rfl
    | cons first more ih =>
        cases more with
        | nil => simp [List.intercalate]
        | cons second rest =>
            rw [List.intercalate, List.intersperse_cons_cons, List.flatten_cons, List.flatten_cons,
              ← List.intercalate, solid_append, solid_append, hspace, ih, List.nil_append,
              ← solid_append, ← List.flatten_cons]
  rw [spaced, hjoin, flatten_words, solid, solid, List.filter_filter]
  simp

/-! ### Whether blanks count -/

/-- The text or, unless blanks count, its characters that are not blank. -/
def lettered (blanks : Bool) (text : List Char) : List Char := if blanks then text else solid text

/-- The text or, unless blanks count, its words with one space between them. -/
def worded (blanks : Bool) (text : List Char) : List Char := if blanks then text else spaced text

theorem lettered_append (blanks : Bool) (first second : List Char) :
    lettered blanks (first ++ second) = lettered blanks first ++ lettered blanks second := by
  cases blanks with
  | true => rfl
  | false => exact solid_append first second

theorem lettered_lettered (blanks : Bool) (text : List Char) :
    lettered blanks (lettered blanks text) = lettered blanks text := by
  cases blanks with
  | true => rfl
  | false => exact (List.filter_filter ..).trans (by simp [lettered, solid])

theorem lettered_worded (blanks : Bool) (text : List Char) :
    lettered blanks (worded blanks text) = lettered blanks text := by
  cases blanks with
  | true => rfl
  | false => exact solid_spaced text

end DefinitionLists.Text
