/-
Module: DefinitionLists.Proofs.Fragments
Purpose: The terms and definitions that a paragraph is taken apart into are no longer than the
  paragraph.
Main exports: Text.weight, Entry.weight, totalWeight_splitEntriesFrom_le, Entry.FitsIn,
  fitsIn_of_mem_splitEntries
-/
import DefinitionLists.Definition.Formation
import DefinitionLists.Proofs.Entries

namespace DefinitionLists

/-! ### Lines -/

namespace Text

/-- How many bytes lines take that are each ended by a line feed. -/
def weight : List (List Char) → Nat
  | [] => 0
  | line :: more => byteLength line + 1 + weight more

theorem weight_append (first second : List (List Char)) :
    weight (first ++ second) = weight first + weight second := by
  induction first with
  | nil => simp [weight]
  | cons line more ih => simp [weight, ih, Nat.add_assoc]

/-- One of the lines takes no more than all of them. -/
theorem byteLength_add_one_le_weight {line : List Char} {lines : List (List Char)}
    (h : line ∈ lines) : byteLength line + 1 ≤ weight lines := by
  obtain ⟨before, after, rfl⟩ := List.append_of_mem h
  rw [weight_append, weight]
  omega

theorem byteLength_trimStart_le (text : List Char) : byteLength (trimStart text) ≤ byteLength text :=
  byteLength_le_of_sublist (List.dropWhile_sublist _)

theorem weight_map_trimStart_le (lines : List (List Char)) :
    weight (lines.map trimStart) ≤ weight lines := by
  induction lines with
  | nil => exact Nat.le_refl _
  | cons line more ih =>
      have hline := byteLength_trimStart_le line
      simp only [List.map_cons, weight]
      omega

/-- A line feed stands between each two of the lines, but not after the last one. -/
theorem byteLength_joinLines {lines : List (List Char)} (h : lines ≠ []) :
    byteLength (joinLines lines) + 1 = weight lines := by
  induction lines with
  | nil => exact absurd rfl h
  | cons line more ih =>
      cases more with
      | nil => rfl
      | cons next rest =>
          have hmore := ih (List.cons_ne_nil _ _)
          have hfeed : '\n'.utf8Size = 1 := rfl
          rw [joinLines, byteLength_append, byteLength_cons, hfeed, weight, ← hmore]
          · omega
          · simp

/-- Lines may lose a carriage return each, and the last one may be left out. -/
theorem weight_finishLines_le (pieces : List (List Char)) :
    weight (finishLines pieces) ≤ weight pieces := by
  fun_induction finishLines pieces with
  | case1 => exact Nat.le_refl _
  | case2 => exact Nat.zero_le _
  | case3 last => exact Nat.le_refl _
  | case4 line more _ ih =>
      have hpart := dropCarriageReturn_prefix line
      have hline := byteLength_le_of_sublist hpart.sublist
      simp only [weight]
      omega

theorem weight_lines_le (text : List Char) : weight (lines text) ≤ byteLength text + 1 := by
  have hpieces := byteLength_joinLines (splitLines_ne_nil text)
  rw [joinLines_splitLines] at hpieces
  rw [hpieces]
  exact weight_finishLines_le _

end Text

open Text (byteLength joinLines lines trimStart weight)

/-! ### Entries -/

/-- A definition is a part of its line. -/
theorem byteLength_of_definitionBody {line body : List Char} (h : definitionBody? line = some body) :
    byteLength body ≤ byteLength line :=
  Text.byteLength_le_of_sublist (sublist_of_definitionBody h)

namespace Entry

/-- How many bytes the lines of an entry take. -/
def weight (entry : Entry) : Nat := Text.weight entry.term + Text.weight entry.details

theorem weight_define (entry : Entry) (body : List Char) :
    (entry.define body).weight = entry.weight + (byteLength body + 1) := by
  simp [define, weight, Text.weight_append, Text.weight, Nat.add_assoc]

theorem weight_continueLast_le (line : List Char) (texts : List (List Char)) :
    Text.weight (continueLast line texts) ≤ Text.weight texts + (byteLength line + 1) := by
  fun_induction continueLast line texts with
  | case1 => exact Nat.zero_le _
  | case2 last =>
      have hfeed : '\n'.utf8Size = 1 := rfl
      simp only [Text.weight, Text.byteLength_append, Text.byteLength_cons, hfeed]
      omega
  | case3 first more _ ih =>
      simp only [Text.weight]
      omega

theorem weight_continueDetails_le (entry : Entry) (line : List Char) :
    (entry.continueDetails line).weight ≤ entry.weight + (byteLength line + 1) := by
  have hlast := weight_continueLast_le line entry.details
  simp only [continueDetails, weight]
  omega

end Entry

/-- How many bytes the lines of entries take. -/
def totalWeight : List Entry → Nat
  | [] => 0
  | entry :: more => entry.weight + totalWeight more

theorem totalWeight_append (first second : List Entry) :
    totalWeight (first ++ second) = totalWeight first + totalWeight second := by
  induction first with
  | nil => simp [totalWeight]
  | cons entry more ih => simp [totalWeight, ih, Nat.add_assoc]

theorem totalWeight_reverse (entries : List Entry) :
    totalWeight entries.reverse = totalWeight entries := by
  induction entries with
  | nil => rfl
  | cons entry more ih =>
      rw [List.reverse_cons, totalWeight_append, ih, totalWeight, totalWeight, totalWeight]
      omega

theorem weight_le_totalWeight {entry : Entry} {entries : List Entry} (h : entry ∈ entries) :
    entry.weight ≤ totalWeight entries := by
  obtain ⟨before, after, rfl⟩ := List.append_of_mem h
  rw [totalWeight_append, totalWeight]
  omega

/-- Each line goes to one place in one entry, if it goes anywhere. -/
theorem totalWeight_splitEntriesFrom_le (found : List Entry) (term lines : List (List Char)) :
    totalWeight (splitEntriesFrom found term lines) ≤
      totalWeight found + weight term + weight lines := by
  fun_induction splitEntriesFrom found term lines with
  | case1 found term =>
      rw [totalWeight_reverse]
      omega
  | case2 line more body last earlier hbody ih =>
      have hle := byteLength_of_definitionBody hbody
      rw [totalWeight, Entry.weight_define] at ih
      rw [totalWeight]
      simp only [weight] at ih ⊢
      omega
  | case3 line more body found term _ hbody ih =>
      have hle := byteLength_of_definitionBody hbody
      have hentry : Entry.weight ⟨term, [body]⟩ = weight term + (byteLength body + 1) := rfl
      rw [totalWeight, hentry] at ih
      simp only [weight] at ih ⊢
      omega
  | case4 line more term _ ih =>
      rw [Text.weight_append] at ih
      simp only [weight] at ih ⊢
      omega
  -- the line waits to be the next term
  | case5 line more last earlier term _ _ ih =>
      rw [Text.weight_append] at ih
      simp only [weight] at ih ⊢
      omega
  | case6 line more last earlier term _ _ ih =>
      have hlast := last.weight_continueDetails_le line
      rw [totalWeight] at ih ⊢
      simp only [weight]
      omega

/-- Whether the term of an entry and each of its definitions take up to that many bytes. -/
structure Entry.FitsIn (bound : Nat) (entry : Entry) : Prop where
  term : byteLength (joinLines entry.term) ≤ bound
  details : ∀ body ∈ entry.details, byteLength body ≤ bound

/-- No entry has a term or a definition longer than the paragraph that it stands in. -/
theorem fitsIn_of_mem_splitEntries {bound : Nat} {texts : List (List Char)}
    (h : weight texts ≤ bound + 1) {entry : Entry} (he : entry ∈ splitEntries texts) :
    entry.FitsIn bound := by
  have htotal := totalWeight_splitEntriesFrom_le [] [] texts
  have hentry := weight_le_totalWeight he
  have hempty : totalWeight [] + weight [] = 0 := rfl
  rw [hempty] at htotal
  have hweight : weight entry.term + weight entry.details ≤ bound + 1 := by
    have hsum : entry.weight = weight entry.term + weight entry.details := rfl
    rw [splitEntries] at hentry
    omega
  constructor
  · by_cases hterm : entry.term = []
    · rw [hterm]
      exact Nat.zero_le _
    · have hjoined := Text.byteLength_joinLines hterm
      omega
  · intro body hbody
    have hle := Text.byteLength_add_one_le_weight hbody
    omega

end DefinitionLists
