/-
Module: DefinitionLists.Proofs.Markdown.Interruptions
Purpose: Which lines end the paragraph before them, and where that depends on the line after them.
Main exports: Line.nextIsBlank, Line.Same, IsBareMark, BlockState.interrupts_of_same,
  Cursor.listMarker_of_isBareMark, BlockState.InEmptyItem, Cursor.EndsParagraph,
  BlockState.interrupts_of_endsParagraph
-/
import Mathlib.Data.List.TakeWhile
import DefinitionLists.Markdown.Block
import DefinitionLists.Proofs.Markdown.Lines

namespace DefinitionLists.Markdown

/-! ### Lines -/

/-- Whether nothing but blanks comes up to the end of the line after this one. -/
def Line.nextIsBlank (line : Line) : Bool :=
  (line.following.dropWhile isInlineSpace).head?.all (fun c => c == '\n' || c == '\r')

/-- Whether lines hold the same, wherever they stand. -/
structure Line.Same (line line' : Line) : Prop where
  text : line.text = line'.text
  ending : line.ending = line'.ending
  raw : ∀ rest, line.rawFrom rest = line'.rawFrom rest

namespace Line.Same

variable {line line' : Line} (h : line.Same line')

include h

theorem endsInCarriageReturn : line.endsInCarriageReturn = line'.endsInCarriageReturn := by
  rw [Line.endsInCarriageReturn, Line.endsInCarriageReturn, h.ending]

theorem rawLine_eq (padding : Nat) (rest : List Char) :
    rawLine line padding rest = rawLine line' padding rest := by
  rw [rawLine, rawLine, h.raw]

theorem cursor : Cursor.ofLine line = Cursor.ofLine line' := by
  rw [Cursor.ofLine, Cursor.ofLine, h.text]

end Line.Same

/-- The character after text ends the line. -/
def Line.EndsTidily (line : Line) : Prop := ∀ c ∈ line.rawFrom [], c = '\n' ∨ c = '\r'

theorem Line.rawFrom_eq_append (line : Line) (rest : List Char) :
    line.rawFrom rest = rest ++ line.rawFrom [] := by
  unfold rawFrom
  split <;> simp

/-! ### Items without content -/

/-- Whether the mark of an item stands at the front of a text, and nothing but blanks after it. -/
def IsBareMark (rest : List Char) : Prop :=
  isRule rest = false ∧ ∃ char number width, listMark? rest = some (char, number, width) ∧
    (rest.drop width).head?.all (fun c => c == ' ' || c == '\t') = true ∧
    isBlankRest (rest.drop width) = true

/-- A blank line after it keeps an item from interrupting a paragraph only if the item holds nothing. -/
theorem interruptsAsItem_eq (current : Bool) (rest : List Char) :
    interruptsAsItem current false rest = interruptsAsItem current true rest ∨
      (interruptsAsItem current false rest = true ∧ ∃ char number width,
        listMark? rest = some (char, number, width) ∧
        (rest.drop width).head?.all (fun c => c == ' ' || c == '\t') = true ∧
        isBlankRest (rest.drop width) = true) := by
  unfold interruptsAsItem
  cases listMark? rest with
  | none => exact .inl rfl
  | some found =>
      obtain ⟨char, number, width⟩ := found
      simp only
      cases hhead : (rest.drop width).head?.all (fun c => c == ' ' || c == '\t') with
      | false => exact .inl rfl
      | true =>
          cases hblank : isBlankRest (rest.drop width) with
          | false => exact .inl rfl
          | true =>
              cases current with
              | false => exact .inl rfl
              | true =>
                  cases hkind : !isNumberDelimiter char || number == 1 with
                  | false => exact .inl rfl
                  | true => exact .inr ⟨rfl, char, number, width, rfl, hhead, hblank⟩

namespace BlockState

/-- What a line interrupts a paragraph by: each test reads the line alone, but that of an item's mark,
which also asks whether the next line is blank. -/
theorem interrupts_eq (current : Bool) (line : Line) (rest : List Char) :
    interrupts current line rest = (rest.isEmpty || isRule rest || (headingLevel? rest).isSome ||
      (openingFence? (line.rawFrom rest)).isSome || rest.head? == some '>' ||
        interruptsAsItem current line.nextIsBlank rest || (htmlStart? true rest).isSome) :=
  rfl

/-- Of two lines that hold the same, both interrupt a paragraph or none does, unless they are the mark
of an item and a blank line comes after one of them only. -/
theorem interrupts_of_same {line line' : Line} (h : line.Same line') (current : Bool) (rest : List Char)
    (hn : line.nextIsBlank = line'.nextIsBlank ∨ line.nextIsBlank = false) :
    interrupts current line rest = interrupts current line' rest ∨
      (line.nextIsBlank ≠ line'.nextIsBlank ∧ interrupts current line rest = true ∧
        IsBareMark rest) := by
  rw [interrupts_eq, interrupts_eq, h.raw]
  by_cases hnext : line.nextIsBlank = line'.nextIsBlank
  · rw [hnext]
    exact .inl rfl
  · have hblank : line.nextIsBlank = false := hn.resolve_left hnext
    have hblank' : line'.nextIsBlank = true := by
      rw [hblank] at hnext
      simpa using hnext
    rw [hblank, hblank']
    cases hrule : isRule rest with
    | true => simp
    | false =>
        rcases interruptsAsItem_eq current rest with heq | ⟨hitem, hmark⟩
        · rw [heq]
          exact .inl rfl
        · exact .inr ⟨by simp, by simp [hitem], hrule, hmark⟩

end BlockState

namespace Cursor

/-- Nothing is taken where no column is wanted. -/
theorem takeSpacesFrom_zero (rest : List Char) (taken column : Nat) :
    takeSpacesFrom 0 rest taken column = (0, ⟨rest, taken, column, 0⟩) := by
  unfold takeSpacesFrom
  split
  · rfl
  · rw [if_pos rfl]

/-- Columns of a tab are left over only if all the wanted ones were found. -/
theorem pending_takeSpacesFrom {wanted taken column : Nat} {rest : List Char}
    (h : (takeSpacesFrom wanted rest taken column).1 ≠ 0) :
    (takeSpacesFrom wanted rest taken column).2.pending = 0 := by
  fun_induction takeSpacesFrom wanted rest taken column with
  | case1 => rfl
  | case2 => rfl
  | case3 wanted taken column rest _ ih => exact ih h
  | case4 => exact absurd rfl h
  | case5 wanted taken column rest _ _ _ _ ih => exact ih h
  | case6 => rfl

theorem pending_takeSpaces {cursor : Cursor} {wanted : Nat} (h : (cursor.takeSpaces wanted).1 ≠ 0) :
    (cursor.takeSpaces wanted).2.pending = 0 := by
  unfold takeSpaces at h ⊢
  split at h
  · exact absurd rfl h
  · next hpending =>
      rw [if_neg hpending]
      exact pending_takeSpacesFrom h

/-- One space or tab is enough for one column. -/
theorem takeSpaces_one {c : Char} (hc : c = ' ' ∨ c = '\t') (rest : List Char) (taken column : Nat) :
    ((takeSpaces 1 ⟨c :: rest, taken, column, 0⟩).1 = 0) ∧
      (takeSpaces 1 ⟨c :: rest, taken, column, 0⟩).2.rest = rest := by
  rcases hc with rfl | rfl
  · have htake : takeSpaces 1 ⟨' ' :: rest, taken, column, 0⟩ =
        takeSpacesFrom 0 rest (taken + 1) (column + 1) := rfl
    rw [htake, takeSpacesFrom_zero]
    exact ⟨rfl, rfl⟩
  · have hwidth : 1 - (4 - column % 4) = 0 := by omega
    have htake : takeSpaces 1 ⟨'\t' :: rest, taken, column, 0⟩ =
        if 1 < 4 - column % 4 then
          (0, ⟨rest, taken + 1, column + (4 - column % 4), 4 - column % 4 - 1⟩)
        else takeSpacesFrom (1 - (4 - column % 4)) rest (taken + 1) (column + (4 - column % 4)) :=
      rfl
    rw [htake, hwidth, takeSpacesFrom_zero]
    split <;> exact ⟨rfl, rfl⟩

theorem pending_advanceBy (count : Nat) (cursor : Cursor) :
    (cursor.advanceBy count).pending = cursor.pending := by
  induction count generalizing cursor with
  | zero => rfl
  | succ count ih =>
      rw [advanceBy, ih]
      unfold advance
      split <;> rfl

theorem rest_advanceBy (count : Nat) (cursor : Cursor) :
    (cursor.advanceBy count).rest = cursor.rest.drop count := by
  induction count generalizing cursor with
  | zero => rfl
  | succ count ih =>
      rw [advanceBy, ih]
      unfold advance
      split
      · next heq => rw [heq, List.drop_nil, List.drop_nil]
      · next heq => rw [heq, List.drop_succ_cons]

/-- A mark with nothing after it is the mark of an item. -/
theorem listMarker_of_isBareMark {cursor : Cursor} (hp : cursor.pending = 0)
    (h : IsBareMark cursor.rest) (outer : Nat) :
    ∃ marker after, cursor.listMarker? outer = some (marker, after) ∧ isBlankRest after.rest = true := by
  obtain ⟨hrule, char, number, width, hmark, hhead, hblank⟩ := h
  have hpending : (cursor.advanceBy width).pending = 0 := by rw [pending_advanceBy, hp]
  have hrest := rest_advanceBy width cursor
  unfold listMarker?
  rw [hmark]
  simp only [hrule, Bool.and_false, Bool.false_eq_true, if_false]
  rw [← hrest] at hhead hblank
  generalize cursor.advanceBy width = ended at hpending hhead hblank
  obtain ⟨rest, taken, column, pending⟩ := ended
  obtain rfl : pending = 0 := hpending
  -- a space is taken after the mark, unless nothing is left at all
  have hafter : isBlankRest (takeSpaces 1 ⟨rest, taken, column, 0⟩).2.rest = true ∧
      ((takeSpaces 1 ⟨rest, taken, column, 0⟩).1 = 0 ∨
        (⟨rest, taken, column, 0⟩ : Cursor).atEnd = true) := by
    cases rest with
    | nil => exact ⟨rfl, .inr rfl⟩
    | cons c more =>
        have hc : c = ' ' ∨ c = '\t' := by simpa using hhead
        obtain ⟨hfound, hleft⟩ := takeSpaces_one hc more taken column
        rw [hleft]
        exact ⟨((Bool.and_eq_true _ _).mp hblank).2, .inl hfound⟩
  obtain ⟨hblankAfter, hatEnd⟩ := hafter
  refine ⟨⟨char, number, outer + width + 1⟩, _, ?_, hblankAfter⟩
  unfold finishMarker?
  simp only
  rw [if_pos hatEnd, if_pos hblankAfter]

end Cursor

namespace BlockState

/-- Whether an item is open that nothing was read in yet. -/
def InEmptyItem (state : BlockState) : Prop := state.frames ≠ [] ∧ state.freshItem = true

/-- A mark with nothing after it opens an item. -/
theorem inEmptyItem_takeFresh {tasks : Bool} {state : BlockState} {line : Line} {matched : Nat}
    {cursor : Cursor} (hm : (cursor.takeSpaces 4).1 ≠ 0)
    (h : IsBareMark (cursor.takeSpaces 4).2.rest) :
    (state.takeFresh tasks line matched cursor).InEmptyItem := by
  obtain ⟨marker, after, hmarker, hblank⟩ :=
    Cursor.listMarker_of_isBareMark (Cursor.pending_takeSpaces hm) h (4 - (cursor.takeSpaces 4).1)
  unfold takeFresh openContainers
  simp only
  rw [if_neg hm, hmarker]
  simp only
  rw [if_pos hblank]
  exact ⟨List.cons_ne_nil _ _, rfl⟩

instance (state : BlockState) : Decidable state.InEmptyItem :=
  decidable_of_iff (state.frames.isEmpty = false ∧ state.freshItem = true)
    ⟨fun ⟨frames, fresh⟩ => ⟨List.isEmpty_eq_false_iff.1 frames, fresh⟩,
    fun h => ⟨List.isEmpty_eq_false_iff.2 h.1, h.2⟩⟩

end BlockState

/-! ### Lines that end paragraphs -/

/-- Whether the characters are a run that opens fenced code, and what stands after the run is let in. -/
structure IsOpeningFence (c : Char) (run after : List Char) : Prop where
  mark : c = '`' ∨ c = '~'
  length : 3 ≤ run.length
  after : c = '~' ∨ '`' ∉ after

/-- A run does not grow by what comes after it if none of that could be part of it. -/
theorem span_append_of_none {p : Char → Bool} {tail : List Char} (rest : List Char)
    (h : ∀ d ∈ tail, p d = false) : (rest ++ tail).takeWhile p = rest.takeWhile p ∧
      (rest ++ tail).dropWhile p = rest.dropWhile p ++ tail := by
  induction rest with
  | nil =>
      cases tail with
      | nil => exact ⟨rfl, rfl⟩
      | cons d after => simp [h d (by simp)]
  | cons c more ih =>
      rw [List.cons_append]
      cases hc : p c with
      | true => simpa [hc] using ih
      | false => simp [hc]

/-- A line opens fenced code just if the run at its front does. -/
theorem isSome_openingFence_iff {c : Char} {more : List Char} : (openingFence? (c :: more)).isSome = true ↔
    IsOpeningFence c ((c :: more).takeWhile (· == c)) ((c :: more).dropWhile (· == c)) := by
  rw [← Text.drop_length_takeWhile]
  simp only [openingFence?]
  constructor
  · intro h
    split at h
    · next hfence => exact ⟨hfence.1, hfence.2.1, by simpa using hfence.2.2⟩
    · cases h
  · rintro ⟨mark, length, after⟩
    rw [if_pos ⟨mark, length, by simpa using after⟩]
    rfl

/-- The end of its line does not undo an opening fence. -/
theorem openingFence_append {rest tail : List Char} (ht : ∀ c ∈ tail, c = '\n' ∨ c = '\r')
    (h : (openingFence? rest).isSome = true) : (openingFence? (rest ++ tail)).isSome = true := by
  cases rest with
  | nil => cases h
  | cons c more =>
      obtain ⟨hmark, hlength, hafter⟩ := isSome_openingFence_iff.1 h
      have hends : ∀ d ∈ tail, (d == c) = false ∧ d ≠ '`' := by
        intro d hd
        rcases ht d hd with rfl | rfl <;> rcases hmark with rfl | rfl <;> decide
      obtain ⟨hrun, hleft⟩ := span_append_of_none (c :: more) fun d hd => (hends d hd).1
      rw [List.cons_append, isSome_openingFence_iff, ← List.cons_append, hrun, hleft]
      refine ⟨hmark, hlength, hafter.imp_right fun hnone hin => ?_⟩
      rcases List.mem_append.1 hin with hin | hin
      · exact hnone hin
      · exact (hends _ hin).2 rfl

/-- An item that interrupts a paragraph under the strictest conditions interrupts it under any. -/
theorem interruptsAsItem_mono {rest : List Char} (h : interruptsAsItem true true rest = true)
    (current nextIsBlank : Bool) : interruptsAsItem current nextIsBlank rest = true := by
  unfold interruptsAsItem at h ⊢
  cases hmark : listMark? rest with
  | none =>
      rw [hmark] at h
      cases h
  | some found =>
      rw [hmark] at h
      simp only [Bool.not_true, Bool.false_or, Bool.and_true, Bool.and_eq_true, Bool.not_eq_true'] at h
      obtain ⟨hspace, hkind, hblank⟩ := h
      simp only [hspace, hkind, hblank]
      cases current <;> rfl

namespace Cursor

/-- Whether there is something else than blanks on what is left of a line, indented by fewer than four
columns. -/
structure IsUnindented (cursor : Cursor) : Prop where
  indent : (cursor.takeSpaces 4).1 ≠ 0
  blank : isBlankRest cursor.rest = false
  text : (cursor.takeSpaces 4).2.atEnd = false

/-- Whether what is left of a line ends a paragraph, whatever containers it goes on with. -/
structure EndsParagraph (cursor : Cursor) : Prop extends cursor.IsUnindented where
  underline : underlineLevel? (cursor.takeSpaces 4).2.rest = none
  interrupts : BlockState.interrupts true ⟨0, [], [], []⟩ (cursor.takeSpaces 4).2.rest = true

instance (cursor : Cursor) : Decidable cursor.IsUnindented :=
  decidable_of_iff ((cursor.takeSpaces 4).1 ≠ 0 ∧ isBlankRest cursor.rest = false ∧
      (cursor.takeSpaces 4).2.atEnd = false)
    ⟨fun ⟨indent, blank, text⟩ => ⟨indent, blank, text⟩, fun h => ⟨h.indent, h.blank, h.text⟩⟩

instance (cursor : Cursor) : Decidable cursor.EndsParagraph :=
  decidable_of_iff (cursor.IsUnindented ∧ underlineLevel? (cursor.takeSpaces 4).2.rest = none ∧
      BlockState.interrupts true ⟨0, [], [], []⟩ (cursor.takeSpaces 4).2.rest = true)
    ⟨fun ⟨unindented, underline, interrupts⟩ => ⟨unindented, underline, interrupts⟩,
    fun h => ⟨h.toIsUnindented, h.underline, h.interrupts⟩⟩

end Cursor

namespace BlockState

variable {state state' : BlockState} {line line' : Line} {cursor : Cursor}

/-- What ends a paragraph whatever comes after it does so in every line. -/
theorem interrupts_of_endsParagraph (h : cursor.EndsParagraph) (hl : line.EndsTidily) (current : Bool) :
    interrupts current line (cursor.takeSpaces 4).2.rest = true := by
  have hinterrupts := h.interrupts
  rw [interrupts_eq] at hinterrupts ⊢
  simp only [Bool.or_eq_true] at hinterrupts ⊢
  rcases hinterrupts with (((((hempty | hrule) | hheading) | hfence) | hquote) | hitem) | hhtml
  · simp [hempty]
  · simp [hrule]
  · simp [hheading]
  · rw [Line.rawFrom_eq_append] at hfence ⊢
    have hnone : (⟨0, [], [], []⟩ : Line).rawFrom [] = [] := rfl
    rw [hnone, List.append_nil] at hfence
    simp [openingFence_append hl hfence]
  · simp [hquote]
  · simp [interruptsAsItem_mono hitem current line.nextIsBlank]
  · simp [hhtml]

end BlockState

end DefinitionLists.Markdown
