/-
Module: DefinitionLists.Proofs.Written.Rewriting
Purpose: Written definitions, and what the rewriting of lines makes of them.
Main exports: WrittenDefinition, WrittenDefinition.document, LeftAlone, LineState.takeAll_of_leftAlone,
  LineState.take_definitionLine, prenormalize_writeLines, prenormalize_document
-/
import DefinitionLists.Prenormalization
import DefinitionLists.Proofs.Written.Trees

namespace DefinitionLists

open Text (isBlank trim trimEnd trimStart)

/-- What is written of a definition: items with bullets, numbered items, or a word and items with
bullets below it. There is at least one item. -/
inductive WrittenDefinition where
  | bulleted (first : Word) (others : List Word)
  | numbered (first : Word) (others : List Word)
  | led (lead first : Word) (others : List Word)

/-- Words with numbers from `start` on. -/
def numberedFrom (start : Nat) : List Word → List (Marker × Word)
  | [] => []
  | word :: more => (.ordinal start, word) :: numberedFrom (start + 1) more

/-- A definition line. -/
def definitionLine (body : List Char) : List Char := ':' :: ' ' :: body

namespace WrittenDefinition

/-- The items of the definition. -/
def items : WrittenDefinition → List Word
  | bulleted first others => first :: others
  | numbered first others => first :: others
  | led _ first others => first :: others

/-- The text of the definition line after its colon. -/
def body : WrittenDefinition → List Char
  | bulleted first _ => itemText 0 (.bullet '-') first
  | numbered first _ => itemText 0 (.ordinal 1) first
  | led lead _ _ => lead.chars

/-- The lines below the definition line. -/
def itemLines : WrittenDefinition → List (List Char)
  | bulleted _ others => bulletTexts others
  | numbered _ others => itemTexts 2 (numberedFrom 2 others)
  | led _ first others => bulletTexts (first :: others)

/-- The document of a term and the definition: the term, the definition line, and the other items. -/
def document (closed : Bool) (term : Word) (definition : WrittenDefinition) : List Char :=
  writeLines closed (term.chars :: definitionLine definition.body :: definition.itemLines)

/-- The lines that the rewriting of lines makes of the definition line. -/
def rewrittenLine : WrittenDefinition → List (List Char)
  | bulleted first others =>
    [definitionLine (bulleted first others).body, itemText 2 (.bullet '-') first]
  | numbered first others =>
    [definitionLine (numbered first others).body, itemText 4 (.ordinal 1) first]
  | led lead first others => [[], definitionLine (led lead first others).body]

end WrittenDefinition

/-! ### Lines that are left alone -/

/-- Whether the rewriting of lines keeps the line as it is, outside of fences. -/
structure LeftAlone (line : List Char) : Prop where
  fence : isFenceLine line = false
  marker : definitionMarker? line = none
  plain : [':', ' '].isPrefixOf line = false

theorem LineState.takeAll_of_leftAlone {state : LineState} (hs : state.inFence = false)
    {written : List (List Char)} (h : ∀ line ∈ written, LeftAlone line) :
    state.takeAll written = written := by
  induction written generalizing state with
  | nil => rfl
  | cons line more ih =>
      obtain ⟨hfence, hmarker, hplain⟩ := h line (by simp)
      have hmore := @ih ⟨false, state.inDefinition && !(trim line).isEmpty, false⟩ rfl
        (fun other ho => h other (by simp [ho]))
      simp [takeAll, take, hfence, hs, hmarker, hplain, hmore]

theorem trimStart_spaces {c : Char} (h : isBlank c = false) (indent : Nat) (rest : List Char) :
    trimStart (List.replicate indent ' ' ++ c :: rest) = c :: rest := by
  induction indent with
  | zero => exact Text.trimStart_cons_of_not_isBlank h rest
  | succ indent ih => rw [List.replicate_succ, List.cons_append, Text.trimStart_cons_of_isBlank rfl, ih]

/-- A line that opens with neither a backtick nor a tilde is no fence. -/
theorem isFenceLine_of_ne {c : Char} (hblank : isBlank c = false) (htick : c ≠ '`') (htilde : c ≠ '~')
    (indent : Nat) (rest : List Char) :
    isFenceLine (List.replicate indent ' ' ++ c :: rest) = false := by
  have htrim : trim (List.replicate indent ' ' ++ c :: rest) = c :: trimEnd rest := by
    rw [trim, trimStart_spaces hblank]
    exact Text.trimEndWhile_cons hblank rest
  have htick' : ('`' == c) = false := by simpa using htick.symm
  have htilde' : ('~' == c) = false := by simpa using htilde.symm
  simp [isFenceLine, htrim, List.isPrefixOf, htick', htilde']

/-- A line that opens with no colon is left alone, unless it is a fence. -/
theorem leftAlone_of_ne {c : Char} (hblank : isBlank c = false) (hcolon : c ≠ ':') (htick : c ≠ '`')
    (htilde : c ≠ '~') (indent : Nat) (rest : List Char) :
    LeftAlone (List.replicate indent ' ' ++ c :: rest) := by
  have hindent : isIndentation c = false := by
    have hspace : c ≠ ' ' := by
      rintro rfl
      cases hblank
    have htab : c ≠ '\t' := by
      rintro rfl
      cases hblank
    simp [isIndentation, hspace, htab]
  have hspaces : ∀ d ∈ List.replicate indent ' ', isIndentation d = true := by
    intro d hd
    rw [List.eq_of_mem_replicate hd]
    rfl
  have hdrop : (List.replicate indent ' ' ++ c :: rest).dropWhile isIndentation = c :: rest := by
    rw [List.dropWhile_append_of_pos hspaces, List.dropWhile_cons_of_neg (by simp [hindent])]
  refine ⟨isFenceLine_of_ne hblank htick htilde indent rest, ?_, ?_⟩
  · unfold definitionMarker?
    rw [hdrop]
    split
    · next heq => exact absurd (List.cons.inj heq).1 hcolon
    · rfl
  · cases indent with
    | zero => simp [List.isPrefixOf, hcolon.symm]
    | succ indent => simp [List.replicate_succ, List.isPrefixOf]

theorem leftAlone_nil : LeftAlone [] := ⟨rfl, rfl, rfl⟩

theorem leftAlone_word (word : Word) : LeftAlone word.chars := by
  obtain ⟨c, rest, heq, hc, -⟩ := word.exists_cons
  rw [heq]
  exact leftAlone_of_ne (isBlank_of_opensText (opensText_of_isAlpha hc)) (ne_of_class hc (by decide))
    (ne_of_class hc (by decide)) (ne_of_class hc (by decide)) 0 rest

/-- An item opens with no blank, no colon and no character of a fence. -/
theorem exists_item_cons {marker : Marker} (h : marker.IsWritten) (word : Word) :
    ∃ c rest, marker.written ++ ' ' :: word.chars = c :: rest ∧ isBlank c = false ∧ c ≠ ':' ∧ c ≠ '`' ∧
      c ≠ '~' := by
  cases marker with
  | bullet c =>
      obtain rfl : c = '-' := h
      exact ⟨'-', _, rfl, by decide, by decide, by decide, by decide⟩
  | ordinal value =>
      obtain ⟨c, rest, heq, hc⟩ := Marker.exists_digit_cons value ('.' :: ' ' :: word.chars)
      refine ⟨c, rest, ?_, isBlank_of_opensText (opensText_of_isDigit hc), ne_of_class hc (by decide),
        ne_of_class hc (by decide), ne_of_class hc (by decide)⟩
      rw [Marker.written, List.append_assoc, List.singleton_append, heq]

theorem leftAlone_itemText (indent : Nat) {marker : Marker} (h : marker.IsWritten) (word : Word) :
    LeftAlone (itemText indent marker word) := by
  obtain ⟨c, rest, heq, hblank, hcolon, htick, htilde⟩ := exists_item_cons h word
  rw [itemText, heq]
  exact leftAlone_of_ne hblank hcolon htick htilde indent rest

theorem leftAlone_itemTexts (indent : Nat) {marked : List (Marker × Word)}
    (h : ∀ item ∈ marked, item.1.IsWritten) : ∀ line ∈ itemTexts indent marked, LeftAlone line := by
  intro line hline
  obtain ⟨item, hitem, rfl⟩ := List.mem_map.1 hline
  exact leftAlone_itemText indent (h item hitem) item.2

/-! ### Definition lines -/

theorem isFenceLine_definitionLine (body : List Char) : isFenceLine (definitionLine body) = false :=
  isFenceLine_of_ne (by decide) (by decide) (by decide) 0 (' ' :: body)

theorem isWritten_one : (Marker.ordinal 1).IsWritten := by
  show 1 < Marker.numberLimit
  decide

/-- The marker of an item on a definition line. -/
theorem definitionMarker_itemText {marker : Marker} (h : marker.IsWritten) (word : Word) :
    definitionMarker? (definitionLine (itemText 0 marker word)) = some marker := by
  obtain ⟨c, rest, heq, hspace, htab⟩ := Markdown.exists_written_cons h
  obtain ⟨length, hmatch⟩ := Marker.match_written h word.chars
  have hdrop : (' ' :: itemText 0 marker word).dropWhile isIndentation =
      marker.written ++ ' ' :: word.chars := by
    simp [itemText, heq, isIndentation, hspace, htab]
  have htake : (marker.written ++ ' ' :: word.chars).take
      ((marker.written ++ ' ' :: word.chars).length - word.chars.length) = marker.written ++ [' '] := by
    have hlength : (marker.written ++ ' ' :: word.chars).length - word.chars.length =
        (marker.written ++ [' ']).length := by
      simp only [List.length_append, List.length_cons, List.length_nil]
      omega
    have hsplit : marker.written ++ ' ' :: word.chars =
        (marker.written ++ [' ']) ++ word.chars := by
      simp
    rw [hlength, hsplit, List.take_left]
  have hline : (definitionLine (itemText 0 marker word)).dropWhile isIndentation =
      ':' :: ' ' :: itemText 0 marker word := rfl
  unfold definitionMarker?
  rw [hline]
  simp only [hdrop, hmatch, htake, List.getLast?_append, List.getLast?_singleton]
  rfl

/-- The word of a definition line is no marker. -/
theorem definitionMarker_word (word : Word) : definitionMarker? (definitionLine word.chars) = none := by
  obtain ⟨c, rest, heq, hc, -⟩ := word.exists_cons
  have hopens := opensText_of_isAlpha hc
  obtain ⟨hspace, htab⟩ := Markdown.ne_space_of_opensText hopens
  have hdrop : (' ' :: word.chars).dropWhile isIndentation = word.chars := by
    simp [heq, isIndentation, hspace, htab]
  have hmatch : Marker.match? word.chars = none := by
    rw [heq]
    exact Marker.match_of_opensText hopens (isDigit_of_isAlpha hc) rest
  have hline : (definitionLine word.chars).dropWhile isIndentation = ':' :: ' ' :: word.chars := rfl
  unfold definitionMarker?
  rw [hline]
  simp only [hdrop, hmatch]

/-- A definition line with an item gets the item repeated below it. Any other one gets a blank line
above it. -/
theorem LineState.take_definitionLine (definition : WrittenDefinition) :
    ∃ state, LineState.take {} (definitionLine definition.body) = (definition.rewrittenLine, state) ∧
      state.inFence = false := by
  have hfence := isFenceLine_definitionLine definition.body
  cases definition with
  | bulleted first others =>
      have hmarker := @definitionMarker_itemText (.bullet '-') rfl first
      refine ⟨⟨false, false, false⟩, ?_, rfl⟩
      rw [WrittenDefinition.body] at *
      simp only [take, hfence, hmarker, Bool.false_eq_true, if_false]
      rfl
  | numbered first others =>
      have hmarker := definitionMarker_itemText isWritten_one first
      refine ⟨⟨false, false, false⟩, ?_, rfl⟩
      rw [WrittenDefinition.body] at *
      simp only [take, hfence, hmarker, Bool.false_eq_true, if_false]
      rfl
  | led lead first others =>
      have hmarker := definitionMarker_word lead
      refine ⟨⟨false, true, true⟩, ?_, rfl⟩
      rw [WrittenDefinition.body] at *
      simp only [take, hfence, hmarker, Bool.false_eq_true, if_false]
      rfl

/-! ### Documents -/

theorem numberedFrom_isWritten {start : Nat} {words : List Word}
    (h : start + words.length ≤ Marker.numberLimit) : ∀ item ∈ numberedFrom start words,
      item.1.IsWritten ∧ ∃ value, item.1 = .ordinal value ∧ start ≤ value := by
  induction words generalizing start with
  | nil => simp [numberedFrom]
  | cons word more ih =>
      rw [List.length_cons] at h
      intro item hitem
      rcases List.mem_cons.1 hitem with rfl | hitem
      · refine ⟨?_, start, rfl, Nat.le_refl _⟩
        show start < Marker.numberLimit
        omega
      · obtain ⟨hwritten, value, heq, hle⟩ := @ih (start + 1) (by omega) item hitem
        exact ⟨hwritten, value, heq, by omega⟩

theorem snd_numberedFrom (start : Nat) (words : List Word) :
    (numberedFrom start words).map Prod.snd = words := by
  induction words generalizing start with
  | nil => rfl
  | cons word more ih => rw [numberedFrom, List.map_cons, ih]

namespace WrittenDefinition

/-- Whether the numbers of the definition's items have at most nine digits. -/
def IsShort (definition : WrittenDefinition) : Prop := definition.items.length < Marker.numberLimit

/-- The lines below a definition line are those of items. -/
theorem exists_itemTexts {definition : WrittenDefinition} (h : definition.IsShort) :
    ∃ marked, definition.itemLines = itemTexts 2 marked ∧ ∀ item ∈ marked, item.1.IsWritten := by
  cases definition with
  | bulleted first others =>
      exact ⟨_, rfl, fun item hitem => (Marker.isWritten_bullets others item hitem).1⟩
  | numbered first others =>
      have hlength : 2 + others.length ≤ Marker.numberLimit := by
        simp only [IsShort, items, List.length_cons] at h
        omega
      exact ⟨_, rfl, fun item hitem => (numberedFrom_isWritten hlength item hitem).1⟩
  | led lead first others =>
      exact ⟨_, rfl, fun item hitem => (Marker.isWritten_bullets (first :: others) item hitem).1⟩

theorem unbroken_body (definition : WrittenDefinition) : Unbroken definition.body := by
  cases definition with
  | bulleted first others =>
      have hbullet : (Marker.bullet '-').IsWritten := rfl
      exact Markdown.unbroken_itemText 0 hbullet first
  | numbered first others => exact Markdown.unbroken_itemText 0 isWritten_one first
  | led lead first others => exact Markdown.unbroken_word lead

end WrittenDefinition

theorem unbroken_definitionLine {body : List Char} (h : Unbroken body) :
    Unbroken (definitionLine body) := by
  intro c hc
  rcases List.mem_cons.1 hc with rfl | hc
  · decide
  · rcases List.mem_cons.1 hc with rfl | hc
    · decide
    · exact h c hc

/-- No line of a document ends within it. -/
theorem WrittenDefinition.unbroken_lines {definition : WrittenDefinition} (h : definition.IsShort)
    (term : Word) : ∀ line ∈ term.chars :: definitionLine definition.body :: definition.itemLines,
      Unbroken line := by
  obtain ⟨marked, hlines, hmarked⟩ := WrittenDefinition.exists_itemTexts h
  intro line hline
  rcases List.mem_cons.1 hline with rfl | hline
  · exact Markdown.unbroken_word term
  · rcases List.mem_cons.1 hline with rfl | hline
    · exact unbroken_definitionLine definition.unbroken_body
    · rw [hlines] at hline
      obtain ⟨item, hitem, rfl⟩ := List.mem_map.1 hline
      exact Markdown.unbroken_itemText 2 (hmarked item hitem) item.2

theorem LineState.takeAll_cons {state state' : LineState} {line : List Char} {lines : List (List Char)}
    (h : state.take line = (lines, state')) (more : List (List Char)) :
    state.takeAll (line :: more) = lines ++ state'.takeAll more := by
  rw [takeAll, h]

/-- An empty line is kept, in a fence and outside of one. -/
theorem LineState.take_nil (state : LineState) : ∃ state', state.take [] = ([[]], state') := by
  obtain ⟨hfence, hmarker, hplain⟩ := leftAlone_nil
  simp only [take, hfence, hmarker, hplain, Bool.false_eq_true, if_false]
  split <;> exact ⟨_, rfl⟩

/-- The lines that an empty line comes after are rewritten as they are without it. -/
theorem LineState.takeAll_append_nil (state : LineState) (written : List (List Char)) :
    state.takeAll (written ++ [[]]) = state.takeAll written ++ [[]] := by
  induction written generalizing state with
  | nil =>
      obtain ⟨state', htake⟩ := state.take_nil
      rw [List.nil_append, takeAll_cons htake, takeAll, takeAll]
      rfl
  | cons line more ih => simp only [List.cons_append, takeAll, ih, List.append_assoc]

/-- The line feed after the last line has no part in the rewriting. -/
theorem prenormalize_writeLines (closed : Bool) {written : List (List Char)} (hne : written ≠ [])
    (h : ∀ line ∈ written, Unbroken line) :
    prenormalize (writeLines closed written) = writeLines closed (LineState.takeAll {} written) := by
  rw [prenormalize, splitLines_writeLines closed hne h, writeLines]
  cases closed with
  | false => rw [if_neg (by decide), List.append_nil, List.append_nil]
  | true => rw [if_pos rfl, LineState.takeAll_append_nil]

/-- Only the definition line of a document is rewritten. -/
theorem prenormalize_document {definition : WrittenDefinition} (h : definition.IsShort) (closed : Bool)
    (term : Word) : prenormalize (definition.document closed term) =
      writeLines closed (term.chars :: (definition.rewrittenLine ++ definition.itemLines)) := by
  obtain ⟨marked, hlines, hmarked⟩ := WrittenDefinition.exists_itemTexts h
  obtain ⟨state, htake, hstate⟩ := LineState.take_definitionLine definition
  have hterm : LineState.take {} term.chars = ([term.chars], {}) := by
    obtain ⟨hfence, hmarker, hplain⟩ := leftAlone_word term
    simp [LineState.take, hfence, hmarker, hplain]
  have hrest : state.takeAll definition.itemLines = definition.itemLines := by
    rw [hlines]
    exact LineState.takeAll_of_leftAlone hstate (leftAlone_itemTexts 2 hmarked)
  rw [WrittenDefinition.document,
    prenormalize_writeLines closed (by simp) (WrittenDefinition.unbroken_lines h term),
    LineState.takeAll_cons hterm, LineState.takeAll_cons htake, hrest]
  rfl

end DefinitionLists
