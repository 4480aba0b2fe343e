/-
Module: DefinitionLists.Text.Blank
Purpose: The Unicode white space characters, and trimming by them.
Main exports: isBlank, trimStart, trimEnd, trim, firstWord?
-/

namespace DefinitionLists.Text

/-- The characters with the Unicode property `White_Space`. -/
def isBlank (c : Char) : Bool :=
  c == ' ' || ('\t' ≤ c && c ≤ '\r') || c == '\u0085' || c == '\u00a0' || c == '\u1680' ||
    ('\u2000' ≤ c && c ≤ '\u200a') || c == '\u2028' || c == '\u2029' || c == '\u202f' ||
    c == '\u205f' || c == '\u3000'

/-- The text without its leading blanks. -/
def trimStart (text : List Char) : List Char :=
  text.dropWhile isBlank

/-- The text without the characters at its end that satisfy `p`. -/
def trimEndWhile (p : Char → Bool) (text : List Char) : List Char :=
  (text.reverse.dropWhile p).reverse

/-- The text without its trailing blanks. -/
def trimEnd (text : List Char) : List Char :=
  trimEndWhile isBlank text

/-- The text without blanks at either end. -/
def trim (text : List Char) : List Char :=
  trimEnd (trimStart text)

/-- The first maximal run of characters that are not blank, if there is one. -/
def firstWord? (text : List Char) : Option (List Char) :=
  match (trimStart text).takeWhile (fun c => !isBlank c) with
  | [] => none
  | word => some word

@[simp] theorem trimStart_nil : trimStart [] = [] := rfl

theorem trimStart_cons_of_isBlank {c : Char} (h : isBlank c = true) (text : List Char) :
    trimStart (c :: text) = trimStart text := by
  simp [trimStart, h]

theorem trimStart_cons_of_not_isBlank {c : Char} (h : isBlank c = false) (text : List Char) :
    trimStart (c :: text) = c :: text := by
  simp [trimStart, h]

theorem trimEndWhile_cons {p : Char → Bool} {c : Char} (h : p c = false) (rest : List Char) :
    trimEndWhile p (c :: rest) = c :: trimEndWhile p rest := by
  unfold trimEndWhile
  rw [List.reverse_cons, List.dropWhile_append, List.dropWhile_cons_of_neg (by simp [h])]
  split
  · next hempty => simp [List.isEmpty_iff.1 hempty]
  · simp

end DefinitionLists.Text
