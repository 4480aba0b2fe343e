/-
Module: DefinitionLists.Text.Lines
Purpose: Splitting text at line feeds and joining the pieces again.
Main exports: splitLines, joinLines, joinLines_splitLines, lines
-/

namespace DefinitionLists.Text

/-- The pieces between line feeds, in order. Empty text has one piece, the empty one. -/
def splitLines : List Char → List (List Char)
  | [] => [[]]
  | c :: rest =>
    if c = '\n' then [] :: splitLines rest
    else match splitLines rest with
      | [] => [[c]]
      | line :: more => (c :: line) :: more

/-- The lines with a line feed between each two of them. -/
def joinLines : List (List Char) → List Char
  | [] => []
  | [line] => line
  | line :: more => line ++ '\n' :: joinLines more

/-- The line without one carriage return at its end, if it ends in one. -/
def dropCarriageReturn (line : List Char) : List Char :=
  match line.reverse with
  | '\r' :: rest => rest.reverse
  | _ => line

/-- Drops the carriage return before each line feed, and the piece after the last line feed when
it is empty. -/
def finishLines : List (List Char) → List (List Char)
  | [] => []
  | [last] => if last.isEmpty then [] else [last]
  | line :: more => dropCarriageReturn line :: finishLines more

/-- The lines of a text, each ended by a line feed, by a carriage return and a line feed, or by the
end of the text. Text that ends in a line feed has no empty line after it. -/
def lines (text : List Char) : List (List Char) :=
  finishLines (splitLines text)

theorem splitLines_ne_nil (text : List Char) : splitLines text ≠ [] := by
  induction text with
  | nil => simp [splitLines]
  | cons c rest ih =>
    unfold splitLines
    split
    · simp
    · cases h : splitLines rest with
      | nil => exact absurd h ih
      | cons line more => simp

@[simp] theorem joinLines_nil_cons (more : List (List Char)) (h : more ≠ []) :
    joinLines ([] :: more) = '\n' :: joinLines more := by
  cases more with
  | nil => exact absurd rfl h
  | cons line rest => rfl

@[simp] theorem joinLines_cons_cons (c : Char) (line : List Char) (more : List (List Char)) :
    joinLines ((c :: line) :: more) = c :: joinLines (line :: more) := by
  cases more with
  | nil => rfl
  | cons next rest => rfl

theorem joinLines_cons_of_ne_nil (line : List Char) {more : List (List Char)} (h : more ≠ []) :
    joinLines (line :: more) = line ++ '\n' :: joinLines more := by
  cases more with
  | nil => exact absurd rfl h
  | cons next rest => rfl

/-- A text of two lines stands for both. -/
theorem joinLines_continued (text line : List Char) (more : List (List Char)) :
    joinLines ((text ++ '\n' :: line) :: more) = joinLines (text :: line :: more) := by
  cases more with
  | nil => rfl
  | cons next more => simp [joinLines]

/-- Splitting loses nothing: the pieces joined by line feeds are the text. -/
theorem joinLines_splitLines (text : List Char) : joinLines (splitLines text) = text := by
  induction text with
  | nil => rfl
  | cons c rest ih =>
    unfold splitLines
    split
    · next h => rw [joinLines_nil_cons _ (splitLines_ne_nil rest), ih, h]
    · cases h : splitLines rest with
      | nil => exact absurd h (splitLines_ne_nil rest)
      | cons line more => rw [joinLines_cons_cons, ← h, ih]

/-- A line feed ends the pieces before it, and others follow it. -/
theorem splitLines_append (first second : List Char) :
    splitLines (first ++ '\n' :: second) = splitLines first ++ splitLines second := by
  induction first with
  | nil => simp [splitLines]
  | cons c rest ih =>
    obtain ⟨line, more, hsplit⟩ := List.exists_cons_of_ne_nil (splitLines_ne_nil rest)
    rw [List.cons_append, splitLines, ih, splitLines, hsplit]
    split <;> rfl

theorem splitLines_of_not_mem {line : List Char} (h : '\n' ∉ line) : splitLines line = [line] := by
  induction line with
  | nil => rfl
  | cons c rest ih =>
    have hc : c ≠ '\n' := fun e => h (by simp [e])
    have hrest : '\n' ∉ rest := fun hmem => h (List.mem_cons_of_mem c hmem)
    simp [splitLines, hc, ih hrest]

/-- No piece holds a line feed. -/
theorem not_mem_of_mem_splitLines {text line : List Char} (h : line ∈ splitLines text) :
    '\n' ∉ line := by
  induction text generalizing line with
  | nil => simp_all [splitLines]
  | cons c rest ih =>
    unfold splitLines at h
    split at h
    · rcases List.mem_cons.1 h with rfl | h
      · simp
      · exact ih h
    · next hc =>
      cases hs : splitLines rest with
      | nil => exact absurd hs (splitLines_ne_nil rest)
      | cons first more =>
        rw [hs] at h
        have hc : '\n' ≠ c := fun e => hc e.symm
        rcases List.mem_cons.1 h with rfl | h
        · have := ih (hs ▸ List.mem_cons_self)
          simp_all
        · exact ih (hs ▸ List.mem_cons_of_mem _ h)

/-- Pieces without line feeds, once joined, come apart into the pieces. -/
theorem splitLines_joinLines {pieces : List (List Char)} (hne : pieces ≠ [])
    (h : ∀ line ∈ pieces, '\n' ∉ line) : splitLines (joinLines pieces) = pieces := by
  induction pieces with
  | nil => exact absurd rfl hne
  | cons line more ih =>
    obtain ⟨hline, hmore⟩ := List.forall_mem_cons.1 h
    cases more with
    | nil => exact splitLines_of_not_mem hline
    | cons next rest =>
      rw [joinLines, splitLines_append, splitLines_of_not_mem hline, ih (List.cons_ne_nil _ _) hmore,
        List.singleton_append]
      simp

theorem dropCarriageReturn_prefix (line : List Char) : dropCarriageReturn line <+: line := by
  unfold dropCarriageReturn
  split
  · next rest heq =>
    refine ⟨['\r'], ?_⟩
    rw [← List.reverse_reverse line, heq, List.reverse_cons]
  · exact List.prefix_refl line

end DefinitionLists.Text
