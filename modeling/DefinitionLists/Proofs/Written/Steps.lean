/-
Module: DefinitionLists.Proofs.Written.Steps
Purpose: What single lines of words and items do to the blocks of a document: open a paragraph, go on
  with it, end it, and open an item.
Main exports: itemText, BlockState.between, BlockState.inParagraph, BlockState.inItem,
  takeLine_opening, takeLine_continuing, takeLine_blank, takeLine_interrupting, takeLine_nextItem
-/
import DefinitionLists.Proofs.Written.Inline

namespace DefinitionLists

/-- The line of an item that is indented by spaces. -/
def itemText (indent : Nat) (marker : Marker) (word : Word) : List Char :=
  List.replicate indent ' ' ++ (marker.written ++ ' ' :: word.chars)

/-- The lines of items that are all indented alike. -/
def itemTexts (indent : Nat) (marked : List (Marker × Word)) : List (List Char) :=
  marked.map fun item => itemText indent item.1 item.2

theorem itemTexts_nil (indent : Nat) : itemTexts indent [] = [] := rfl

theorem itemTexts_cons (indent : Nat) (item : Marker × Word) (more : List (Marker × Word)) :
    itemTexts indent (item :: more) = itemText indent item.1 item.2 :: itemTexts indent more :=
  rfl

namespace Markdown

/-! ### Cursors -/

namespace Cursor

variable {c : Char} {rest : List Char}

theorem takeSpaces_spaces (hspace : c ≠ ' ') (htab : c ≠ '\t') (wanted indent taken column : Nat) :
    takeSpaces wanted ⟨List.replicate indent ' ' ++ c :: rest, taken, column, 0⟩ =
      (wanted - indent, ⟨List.replicate (indent - wanted) ' ' ++ c :: rest,
        taken + min wanted indent, column + min wanted indent, 0⟩) := by
  have hfrom (wanted indent taken column : Nat) :
      takeSpacesFrom wanted (List.replicate indent ' ' ++ c :: rest) taken column =
        (wanted - indent, ⟨List.replicate (indent - wanted) ' ' ++ c :: rest,
          taken + min wanted indent, column + min wanted indent, 0⟩) := by
    induction indent generalizing wanted taken column with
    | zero => by_cases hw : wanted = 0 <;> simp [takeSpacesFrom, hw, hspace, htab]
    | succ indent ih =>
        rw [List.replicate_succ, List.cons_append, takeSpacesFrom]
        by_cases hw : wanted = 0
        · simp [hw, List.replicate_succ]
        · have hsub : indent + 1 - wanted = indent - (wanted - 1) := by omega
          have hmin : min wanted (indent + 1) = 1 + min (wanted - 1) indent := by omega
          have hleft : wanted - (indent + 1) = wanted - 1 - indent := by omega
          rw [if_neg hw, if_pos rfl, ih, hsub, hmin, hleft]
          simp only [Nat.add_assoc]
  unfold takeSpaces
  by_cases hw : wanted = 0
  · simp [hw]
  · rw [if_neg (by simpa using hw), Nat.sub_zero, hfrom]

theorem takeSpaces_text (hspace : c ≠ ' ') (htab : c ≠ '\t') (wanted taken column : Nat) :
    takeSpaces wanted ⟨c :: rest, taken, column, 0⟩ = (wanted, ⟨c :: rest, taken, column, 0⟩) := by
  have h := @takeSpaces_spaces c rest hspace htab wanted 0 taken column
  simpa using h

theorem advanceBy_append (front rest : List Char) (taken column : Nat) :
    advanceBy front.length ⟨front ++ rest, taken, column, 0⟩ =
      ⟨rest, taken + front.length, column + front.length, 0⟩ := by
  induction front generalizing taken column with
  | nil => rfl
  | cons c more ih =>
      rw [List.length_cons, advanceBy, List.cons_append]
      simp only [advance]
      rw [ih, Nat.add_assoc, Nat.add_assoc, Nat.add_comm 1]

theorem takeQuoteMark_of_ne (h : c ≠ '>') (taken column pending : Nat) :
    takeQuoteMark? ⟨c :: rest, taken, column, pending⟩ = none := by
  simp [takeQuoteMark?, takeChar?, h]

end Cursor

theorem ne_space_of_opensText {c : Char} (h : opensText c = true) : c ≠ ' ' ∧ c ≠ '\t' :=
  ⟨ne_of_class h (by decide), ne_of_class h (by decide)⟩

/-- The first character of a marker stands after spaces. -/
theorem exists_written_cons {marker : Marker} (h : marker.IsWritten) :
    ∃ c rest, marker.written = c :: rest ∧ c ≠ ' ' ∧ c ≠ '\t' := by
  cases marker with
  | bullet c =>
      obtain rfl : c = '-' := h
      exact ⟨_, _, rfl, by decide, by decide⟩
  | ordinal value =>
      obtain ⟨c, rest, heq, hc⟩ := Marker.exists_digit_cons value ['.']
      exact ⟨c, rest, heq, ne_of_class hc (by decide), ne_of_class hc (by decide)⟩

/-- A marker with a word after it makes no thematic break. -/
theorem isRule_written {marker : Marker} (h : marker.IsWritten) (word : Word) :
    (!isNumberDelimiter marker.delimiter && isRule (marker.written ++ ' ' :: word.chars)) = false := by
  cases marker with
  | bullet c =>
      obtain rfl : c = '-' := h
      obtain ⟨c, rest, heq, hc, -⟩ := word.exists_cons
      have hhyphen : c ≠ '-' := ne_of_class hc (by decide)
      obtain ⟨hspace, htab⟩ := ne_space_of_opensText (opensText_of_isAlpha hc)
      simp [Marker.written, Marker.delimiter, isRule, heq, hhyphen, hspace, htab]
  | ordinal value => rfl

/-- An item is opened by its marker, and its content stands one column after that. -/
theorem listMarker_written {marker : Marker} (h : marker.IsWritten) (word : Word)
    (outer taken column : Nat) :
    Cursor.listMarker? outer ⟨marker.written ++ ' ' :: word.chars, taken, column, 0⟩ =
      some (⟨marker.delimiter, marker.number, outer + marker.written.length + 1⟩,
        ⟨word.chars, taken + marker.written.length + 1, column + marker.written.length + 1, 0⟩) := by
  obtain ⟨c, rest, heq, hc, -⟩ := word.exists_cons
  have hopens := opensText_of_isAlpha hc
  obtain ⟨hspace, htab⟩ := ne_space_of_opensText hopens
  have hone := @Cursor.takeSpaces_spaces c rest hspace htab 1 1 (taken + marker.written.length)
    (column + marker.written.length)
  have hfour := @Cursor.takeSpaces_text c rest hspace htab 4 (taken + marker.written.length + 1)
    (column + marker.written.length + 1)
  have hblank := @isBlankRest_of_opensText c rest hopens
  have hrule := isRule_written h word
  simp only [List.replicate_one, List.singleton_append] at hone
  rw [heq] at hrule ⊢
  simp only [Cursor.listMarker?, listMark_written h, hrule, Cursor.advanceBy_append,
    Cursor.finishMarker?, hone]
  simp [hfour, hblank]

theorem underlineLevel_written {marker : Marker} (h : marker.IsWritten) (word : Word) :
    underlineLevel? (marker.written ++ ' ' :: word.chars) = none := by
  cases marker with
  | bullet c =>
      obtain rfl : c = '-' := h
      obtain ⟨c, rest, heq, hc, -⟩ := word.exists_cons
      have hblank := isInlineSpace_of_opensText (opensText_of_isAlpha hc)
      simp [Marker.written, underlineLevel?, heq, isBlankRest, hblank]
  | ordinal value =>
      obtain ⟨c, rest, heq, hc⟩ := Marker.exists_digit_cons value ('.' :: ' ' :: word.chars)
      rw [Marker.written, List.append_assoc, List.singleton_append, heq]
      exact underlineLevel_of_opensText (opensText_of_isDigit hc)

theorem isBlankRest_space_word (word : Word) : isBlankRest (' ' :: word.chars) = false := by
  obtain ⟨c, rest, heq, hc, -⟩ := word.exists_cons
  simp [isBlankRest, heq, isInlineSpace_of_opensText (opensText_of_isAlpha hc)]

theorem taskMark_of_opensText {c : Char} {rest : List Char} (h : opensText c = true) (ended : Bool)
    (taken column : Nat) : Cursor.taskMark? ended ⟨c :: rest, taken, column, 0⟩ = none := by
  obtain ⟨hspace, htab⟩ := ne_space_of_opensText h
  have hthree := @Cursor.takeSpaces_text c rest hspace htab 3 taken column
  unfold Cursor.taskMark?
  rw [hthree]
  simp only
  split
  · next heq => exact absurd (List.cons.inj heq).1 (ne_of_class h (by decide))
  · rfl

/-! ### States -/

namespace BlockState

/-- Nothing is open. -/
def between (done : List Block) (blank : Bool) : BlockState := { done, lastLineBlank := blank }

/-- A paragraph is open, outside of containers. -/
def inParagraph (done : List Block) (lines : List TextLine) : BlockState :=
  { done, leaf := some (.paragraph lines) }

/-- A tight list is open, outside of other containers, and nothing in it. -/
def inList (done : List Block) (char : Char) (number : Nat) (items : List Block) : BlockState :=
  { frames := [.list true char number items], done }

/-- An item of one line is open in such a list. -/
def inItem (done : List Block) (char : Char) (number : Nat) (items : List Block) (indent : Nat)
    (line : TextLine) : BlockState :=
  { frames := [.item indent none [], .list true char number items], done
    leaf := some (.paragraph [line]) }

theorem finishList_between (done : List Block) (blank : Bool) (stop : Nat) :
    (between done blank).finishList stop = between done false := by
  cases blank <;> rfl

theorem finishList_push_item (done : List Block) (char : Char) (number : Nat) (items : List Block)
    (indent stop : Nat) :
    ((inList done char number items).push (.item indent none [])).finishList stop =
      (inList done char number items).push (.item indent none []) :=
  rfl

theorem continueList_between (done : List Block) (blank : Bool) (marker : ListMarker) (stop : Nat) :
    (between done blank).continueList marker stop = inList done marker.char marker.number [] := by
  cases blank <;> rfl

theorem continueList_inList (done : List Block) (number : Nat) (items : List Block)
    (marker : ListMarker) (stop : Nat) :
    (inList done marker.char number items).continueList marker stop =
      inList done marker.char number items := by
  simp [inList, continueList, finishEmptyItem]

/-! ### Opening -/

section Opening

variable {line : Line} {c : Char} {rest : List Char}

/-- Text opens a paragraph. -/
theorem startLeaf_text (h : opensText c = true) (hl : line.endsInCarriageReturn = false)
    {state finished : BlockState} (hf : state.finishList line.start = finished)
    (taken column : Nat) : state.startLeaf line ⟨c :: rest, taken, column, 0⟩ =
      { finished with leaf := some (.paragraph
        [⟨[], [], line.start + taken, c :: rest, line.ending, line.stop⟩]) } := by
  obtain ⟨hspace, htab⟩ := ne_space_of_opensText h
  have hfour := @Cursor.takeSpaces_text c rest hspace htab 4 taken column
  have hraw : line.rawFrom (c :: rest) = c :: (rest ++ line.ending) := by
    simp [Line.rawFrom, hl]
  unfold startLeaf
  simp only [isBlankRest_of_opensText h, hf, hfour, htmlStart_of_opensText h, isRule_of_opensText h,
    headingLevel_of_opensText h, hraw, openingFence_of_opensText h]
  simp

/-- Text that opens with no number opens no containers. -/
theorem openContainers_text (h : opensText c = true) (hd : c.isDigit = false) (tasks : Bool)
    (bound : Nat) (state : BlockState) (taken column : Nat) :
    openContainers tasks line bound state ⟨c :: rest, taken, column, 0⟩ =
      state.startLeaf line ⟨c :: rest, taken, column, 0⟩ := by
  obtain ⟨hspace, htab⟩ := ne_space_of_opensText h
  have hfour := @Cursor.takeSpaces_text c rest hspace htab 4 taken column
  have hmark (outer : Nat) : Cursor.listMarker? outer ⟨c :: rest, taken, column, 0⟩ = none := by
    simp [Cursor.listMarker?, listMark_of_opensText h hd]
  have hquote : Cursor.takeQuoteMark? ⟨c :: rest, taken, column, 0⟩ = none :=
    Cursor.takeQuoteMark_of_ne (ne_of_class h (by decide)) taken column 0
  cases bound with
  | zero => rfl
  | succ bound =>
      unfold openContainers
      simp [hfour, hmark, hquote]

/-- The line of an item opens the item, in the list that is open or in a new one. -/
theorem openContainers_item {marker : Marker} (hm : marker.IsWritten) {word : Word} {indent : Nat}
    (hi : indent ≤ 3) (hl : line.endsInCarriageReturn = false) (tasks : Bool) (bound : Nat)
    {state : BlockState} {done items : List Block} {number : Nat}
    (hs : state.continueList ⟨marker.delimiter, marker.number, indent + marker.written.length + 1⟩
      line.start = inList done marker.delimiter number items) :
    ∃ content, openContainers tasks line (bound + 1) state ⟨itemText indent marker word, 0, 0, 0⟩ =
        inItem done marker.delimiter number items (indent + marker.written.length + 1) content ∧
      content.text = word.chars := by
  obtain ⟨c, rest, heq, hspace, htab⟩ := exists_written_cons hm
  obtain ⟨d, more, hword, hd, -⟩ := word.exists_cons
  have hopens := opensText_of_isAlpha hd
  have hfour := @Cursor.takeSpaces_spaces c (rest ++ ' ' :: word.chars) hspace htab 4 indent 0 0
  have hmarker := listMarker_written hm word indent indent indent
  rw [← List.cons_append, ← heq] at hfour
  -- fewer than four spaces stand before the marker, so the line is no indented code
  have htaken : 4 - (4 - indent) = indent := by omega
  have hleft : indent - 4 = 0 := by omega
  have hmissing : ¬ 4 - indent = 0 := by omega
  have hmin : 0 + min 4 indent = indent := by omega
  rw [hleft, hmin, List.replicate_zero, List.nil_append] at hfour
  refine ⟨⟨[], [], line.start + (indent + marker.written.length + 1), word.chars, line.ending,
    line.stop⟩, ?_, rfl⟩
  unfold openContainers itemText
  simp only [hfour, hmissing, if_false, htaken, hmarker, hs]
  rw [hword]
  simp only [isBlankRest_of_opensText hopens, taskMark_of_opensText hopens, ite_self]
  rw [openContainers_text hopens (isDigit_of_isAlpha hd),
    startLeaf_text hopens hl (finishList_push_item _ _ _ _ _ _)]
  rfl

end Opening

end BlockState

/-! ### Paragraphs -/

theorem trimEndWhile_of_forall {p : Char → Bool} {text : List Char} (h : ∀ c ∈ text, p c = false) :
    Text.trimEndWhile p text = text := by
  induction text with
  | nil => rfl
  | cons c rest ih =>
      rw [Text.trimEndWhile_cons (h c (by simp)), ih (fun d hd => h d (by simp [hd]))]

/-- The text of a paragraph of one word. -/
theorem ofLines_word {line : TextLine} {word : Word} (h : line.text = word.chars) :
    Symbol.ofLines [line] = Symbol.ofChars word.chars := by
  have hspace : ∀ c ∈ word.chars, isInlineSpace c = false :=
    fun c hc => isInlineSpace_of_opensText (opensText_of_isAlpha (word.letters c hc))
  rw [Symbol.ofLines, h, trimEndWhile_of_forall hspace]

/-- The lines of a paragraph, the last one first, from a byte offset to another. The first of them opens
with text. -/
inductive TextLine.Reach (start : Nat) : Nat → List TextLine → Prop where
  | first {line : TextLine} {stop : Nat} {c : Char} {rest : List Char} (text : line.text = c :: rest)
      (opens : opensText c = true) (starts : line.start = start) (stops : line.stop = stop) :
      Reach start stop [line]
  | next {line : TextLine} {stop stop' : Nat} {lines : List TextLine}
      (before : Reach start stop lines) (stops : line.stop = stop') : Reach start stop' (line :: lines)

theorem TextLine.Reach.ends {start stop : Nat} {lines : List TextLine} (h : Reach start stop lines) :
    ∃ first last c rest, lines.getLast? = some first ∧ lines.head? = some last ∧
      first.start = start ∧ last.stop = stop ∧ first.text = c :: rest ∧ opensText c = true := by
  induction h with
  | @first line stop c rest text opens starts stops =>
      exact ⟨line, line, c, rest, rfl, rfl, starts, stops, text, opens⟩
  | @next line stop stop' lines before stops ih =>
      obtain ⟨first, last, c, rest, hfirst, hlast, hstart, -, htext, hopens⟩ := ih
      refine ⟨first, line, c, rest, ?_, rfl, hstart, stops, htext, hopens⟩
      rw [List.getLast?_cons, hfirst]
      rfl

/-- A paragraph that opens with text begins with no definitions of labels. -/
theorem splitDefinitions_of_opensText {line : TextLine} {c : Char} {rest : List Char}
    (htext : line.text = c :: rest) (h : opensText c = true) (more : List TextLine) :
    splitDefinitions (line :: more) = ([], line :: more) := by
  obtain ⟨symbols, hsymbols⟩ : ∃ symbols, Symbol.ofLines (line :: more) = .char c :: symbols := by
    cases more <;>
      simp [Symbol.ofLines, htext, Text.trimEndWhile_cons (isInlineSpace_of_opensText h), Symbol.ofChars]
  have hnone : definition? (.char c :: symbols) = none := by
    unfold definition?
    split
    · next heq =>
        have hc := (List.cons.inj heq).1
        exact absurd (Symbol.char.inj hc) (ne_of_class h (by decide))
    · rfl
  simp [splitDefinitions, hsymbols, leadingDefinitions, hnone]

namespace BlockState

theorem addParagraph_of_reach {start stop : Nat} {lines : List TextLine}
    (h : TextLine.Reach start stop lines) {state : BlockState} (ht : state.nextTask = none) :
    state.addParagraph lines none =
      state.add (.paragraph ⟨start, stop⟩ none (Symbol.ofLines lines.reverse)) := by
  obtain ⟨first, last, c, rest, hfirst, hlast, rfl, rfl, htext, hopens⟩ := h.ends
  obtain ⟨more, hreverse⟩ : ∃ more, lines.reverse = first :: more := by
    rw [← List.head?_eq_some_iff, List.head?_reverse]
    exact hfirst
  have hend : (first :: more).getLast? = some last := by
    rw [← hreverse, List.getLast?_reverse, hlast]
  obtain ⟨frames, done, leaf, freshItem, lastLineBlank, nextTask, targets, inRawLine⟩ := state
  obtain rfl : nextTask = none := ht
  unfold addParagraph
  rw [hreverse, splitDefinitions_of_opensText htext hopens]
  simp only [List.head?_cons, hend, List.foldl_nil]

/-- A paragraph outside of containers ends. -/
theorem closeLeaf_inParagraph {start stop : Nat} {lines : List TextLine}
    (h : TextLine.Reach start stop lines) (done : List Block) :
    (inParagraph done lines).closeLeaf =
      between (.paragraph ⟨start, stop⟩ none (Symbol.ofLines lines.reverse) :: done) false := by
  unfold closeLeaf inParagraph
  simp only
  rw [addParagraph_of_reach h rfl]
  rfl

/-! ### Lines -/

section Lines

variable {line : Line} {done : List Block}

/-- A line of text opens a paragraph. -/
theorem takeLine_opening {c : Char} {rest : List Char} (htext : line.text = c :: rest)
    (hc : opensText c = true) (hd : c.isDigit = false) (hl : line.endsInCarriageReturn = false)
    (tasks blank : Bool) (done : List Block) :
    ∃ content, (between done blank).takeLine tasks line = inParagraph done [content] ∧
      content.text = line.text ∧ TextLine.Reach line.start line.stop [content] := by
  have hfresh : (between done blank).takeLine tasks line =
      openContainers tasks line (line.text.length + 1) (between done blank) ⟨line.text, 0, 0, 0⟩ := rfl
  have hopen := @openContainers_text line c rest hc hd tasks (line.text.length + 1)
    (between done blank) 0 0
  have hstart := @startLeaf_text line c rest hc hl _ _ (finishList_between done blank line.start) 0 0
  refine ⟨⟨[], [], line.start, line.text, line.ending, line.stop⟩, ?_, rfl, .first htext hc rfl rfl⟩
  rw [hfresh, htext] at *
  rw [hopen, hstart]
  rfl

/-- A line of text goes on with a paragraph if it is indented far enough, or is no item that may come
after a paragraph. -/
theorem takeLine_continuing {c : Char} {rest : List Char} {indent : Nat}
    (htext : line.text = List.replicate indent ' ' ++ c :: rest) (hi : indent ≤ 4)
    (hc : opensText c = true) (hl : line.endsInCarriageReturn = false)
    (hitem : indent = 4 ∨ ∀ nextIsBlank, interruptsAsItem true nextIsBlank (c :: rest) = false)
    (tasks : Bool) (lines : List TextLine) :
    ∃ added, (inParagraph done lines).takeLine tasks line = inParagraph done (added :: lines) ∧
      added.stop = line.stop := by
  obtain ⟨hspace, htab⟩ := ne_space_of_opensText hc
  have hfour := @Cursor.takeSpaces_spaces c rest hspace htab 4 indent 0 0
  have hleft : indent - 4 = 0 := by omega
  rw [hleft, List.replicate_zero, List.nil_append] at hfour
  have hraw : line.rawFrom (c :: rest) = c :: (rest ++ line.ending) := by
    simp [Line.rawFrom, hl]
  have hquote : c ≠ '>' := ne_of_class hc (by decide)
  -- with four spaces nothing interrupts the paragraph, with fewer only an item could
  have hnot : ¬ (4 - indent ≠ 0 ∧ interrupts true line (c :: rest) = true) := by
    rintro ⟨hmissing, hinterrupts⟩
    rcases hitem with rfl | hitem
    · exact hmissing rfl
    · simp [interrupts, isRule_of_opensText hc, headingLevel_of_opensText hc, hraw,
        openingFence_of_opensText hc, hquote, hitem, htmlStart_of_opensText hc] at hinterrupts
  have hafter : (inParagraph done lines).takeLine tasks line =
      (inParagraph done lines).takeAfterParagraph tasks lines line 0 ⟨line.text, 0, 0, 0⟩ := rfl
  have hskip : (Cursor.skipBlanks ⟨c :: rest, 0 + min 4 indent, 0 + min 4 indent, 0⟩).rest =
      c :: rest := by
    simp [Cursor.skipBlanks, hspace, htab]
  rw [hafter]
  unfold takeAfterParagraph
  rw [htext, hfour]
  simp only [underlineLevel_of_opensText hc, ite_self, Option.filter_none, Cursor.atEnd, hskip]
  have hcurrent : (0 == (inParagraph done lines).frames.length) = true := rfl
  rw [if_neg]
  · exact ⟨_, rfl, rfl⟩
  · rw [hcurrent]
    simpa using hnot

/-- A line that goes on with no paragraph ends it. -/
theorem takeFresh_inParagraph {start stop : Nat} {lines : List TextLine}
    (h : TextLine.Reach start stop lines) (tasks : Bool) (cursor : Cursor) :
    (inParagraph done lines).takeFresh tasks line 0 cursor =
      openContainers tasks line (line.text.length + 1)
        (between (.paragraph ⟨start, stop⟩ none (Symbol.ofLines lines.reverse) :: done) false)
        cursor := by
  unfold takeFresh
  simp only
  rw [closeLeaf_inParagraph h]
  rfl

/-- A blank line ends a paragraph. -/
theorem takeLine_blank (htext : line.text = []) {start stop : Nat} {lines : List TextLine}
    (h : TextLine.Reach start stop lines) (tasks : Bool) :
    (inParagraph done lines).takeLine tasks line =
      between (.paragraph ⟨start, stop⟩ none (Symbol.ofLines lines.reverse) :: done) true := by
  have hafter : (inParagraph done lines).takeLine tasks line =
      (inParagraph done lines).takeFresh tasks line 0 ⟨line.text, 0, 0, 0⟩ := by
    rw [htext]
    simp only [takeLine, inParagraph, Bool.false_eq_true, if_false, Frame.continueAll, List.reverse_nil,
      Cursor.ofLine, htext, takeAfterParagraph]
    rfl
  rw [hafter, takeFresh_inParagraph h, htext]
  rfl

/-- The line of an item opens a list where nothing is open. -/
theorem takeLine_firstItem {marker : Marker} (hm : marker.IsWritten) {word : Word} {indent : Nat}
    (hi : indent ≤ 3) (htext : line.text = itemText indent marker word)
    (hl : line.endsInCarriageReturn = false) (tasks blank : Bool) (done : List Block) :
    ∃ content, (between done blank).takeLine tasks line =
        inItem done marker.delimiter marker.number [] (indent + marker.written.length + 1) content ∧
      content.text = word.chars := by
  have hfresh : (between done blank).takeLine tasks line =
      openContainers tasks line (line.text.length + 1) (between done blank) ⟨line.text, 0, 0, 0⟩ := rfl
  rw [hfresh, htext]
  exact openContainers_item hm hi hl tasks _ (continueList_between done blank _ line.start)

/-- The line of an item goes on with no paragraph, unless the paragraph's own containers all go on and
the item has a number. -/
theorem takeAfterParagraph_item {marker : Marker} (hm : marker.IsWritten) {word : Word} {indent : Nat}
    (hi : indent ≤ 3) {state : BlockState} {matched : Nat}
    (hn : matched = state.frames.length → isNumberDelimiter marker.delimiter = false) (tasks : Bool)
    (lines : List TextLine) :
    state.takeAfterParagraph tasks lines line matched ⟨itemText indent marker word, 0, 0, 0⟩ =
      state.takeFresh tasks line matched ⟨itemText indent marker word, 0, 0, 0⟩ := by
  obtain ⟨c, rest, heq, hspace, htab⟩ := exists_written_cons hm
  have hfour := @Cursor.takeSpaces_spaces c (rest ++ ' ' :: word.chars) hspace htab 4 indent 0 0
  have hleft : indent - 4 = 0 := by omega
  have hmissing : 4 - indent ≠ 0 := by omega
  rw [hleft, List.replicate_zero, List.nil_append, ← List.cons_append, ← heq] at hfour
  have hdrop : (marker.written ++ ' ' :: word.chars).drop marker.written.length = ' ' :: word.chars :=
    List.drop_left
  have hitem (nextIsBlank : Bool) : interruptsAsItem (matched == state.frames.length) nextIsBlank
      (marker.written ++ ' ' :: word.chars) = true := by
    simp only [interruptsAsItem, listMark_written hm, hdrop, isBlankRest_space_word]
    by_cases hcurrent : matched = state.frames.length
    · simp [hn hcurrent]
    · simp [hcurrent]
  unfold takeAfterParagraph itemText
  simp only [hfour, underlineLevel_written hm, ite_self, Option.filter_none]
  rw [if_pos]
  refine .inr ⟨hmissing, ?_⟩
  simp [interrupts, hitem]

/-- The line of an item with a bullet ends a paragraph and opens a list. -/
theorem takeLine_interrupting {marker : Marker} (hm : marker.IsWritten)
    (hn : isNumberDelimiter marker.delimiter = false) {word : Word} {indent : Nat} (hi : indent ≤ 3)
    (htext : line.text = itemText indent marker word) (hl : line.endsInCarriageReturn = false)
    {start stop : Nat} {lines : List TextLine} (h : TextLine.Reach start stop lines) (tasks : Bool) :
    ∃ content, (inParagraph done lines).takeLine tasks line =
        inItem (.paragraph ⟨start, stop⟩ none (Symbol.ofLines lines.reverse) :: done) marker.delimiter
          marker.number [] (indent + marker.written.length + 1) content ∧
      content.text = word.chars := by
  have hafter : (inParagraph done lines).takeLine tasks line =
      (inParagraph done lines).takeAfterParagraph tasks lines line 0 ⟨line.text, 0, 0, 0⟩ := rfl
  rw [hafter, htext, takeAfterParagraph_item hm hi (fun _ => hn), takeFresh_inParagraph h]
  exact openContainers_item hm hi hl tasks _ (continueList_between _ false _ line.start)

/-- The line of an item goes on with the list of an item that stands further in, but not with the
item. -/
theorem continueAll_inItem {marker : Marker} (hm : marker.IsWritten) {word : Word} {indent inner : Nat}
    (htext : line.text = itemText indent marker word) (ho : indent < inner) (char : Char)
    (number : Nat) (items : List Block) (content : TextLine) :
    Frame.continueAll (Cursor.ofLine line) (inItem done char number items inner content).frames.reverse =
      (1, ⟨itemText indent marker word, 0, 0, 0⟩) := by
  obtain ⟨c, rest, heq, hspace, htab⟩ := exists_written_cons hm
  have hinner := @Cursor.takeSpaces_spaces c (rest ++ ' ' :: word.chars) hspace htab inner indent 0 0
  have hleft : indent - inner = 0 := by omega
  have hmissing : ¬ inner - indent = 0 := by omega
  rw [hleft, List.replicate_zero, List.nil_append, ← List.cons_append, ← heq] at hinner
  have hitem : Frame.continue? ⟨itemText indent marker word, 0, 0, 0⟩ (.item inner none []) = none := by
    simp [Frame.continue?, itemText, hinner, hmissing, Cursor.atEnd]
  have hframes : (inItem done char number items inner content).frames.reverse =
      [.list true char number items, .item inner none []] := rfl
  rw [hframes, Cursor.ofLine, htext, Frame.continueAll, Frame.continue?]
  simp only
  rw [Frame.continueAll, hitem]

/-- An item of one line ends with its paragraph. -/
theorem closeLeaf_inItem {content : TextLine} {word : Word} (h : content.text = word.chars)
    (done : List Block) (char : Char) (number : Nat) (items : List Block) (indent stop : Nat) :
    ∃ item, (inItem done char number items indent content).closeLeaf.frames.length = 2 ∧
      (inItem done char number items indent content).closeLeaf.pop stop =
        inList done char number (item :: items) ∧
      item.IsWordItem word := by
  obtain ⟨c, rest, heq, hc, -⟩ := word.exists_cons
  have hreach : TextLine.Reach content.start content.stop [content] :=
    .first (h.trans heq) (opensText_of_isAlpha hc) rfl rfl
  have hclosed : (inItem done char number items indent content).closeLeaf =
      { frames := [.item indent none [.paragraph ⟨content.start, content.stop⟩ none
          (Symbol.ofChars word.chars)], .list true char number items], done } := by
    unfold closeLeaf inItem
    simp only
    rw [addParagraph_of_reach hreach rfl, List.reverse_singleton, ofLines_word h]
    rfl
  rw [hclosed]
  exact ⟨.item none [.paragraph ⟨content.start, content.stop⟩ none (Symbol.ofChars word.chars)], rfl,
    rfl, _, rfl⟩

/-- The line of an item ends an item that stands further in, and opens the next one of the list. -/
theorem takeLine_nextItem {marker : Marker} (hm : marker.IsWritten) {word : Word} {indent : Nat}
    (hi : indent ≤ 3) (htext : line.text = itemText indent marker word)
    (hl : line.endsInCarriageReturn = false) (tasks : Bool) {number inner : Nat} {items : List Block}
    {content : TextLine} (ho : indent < inner) {first : Word} (hc : content.text = first.chars) :
    ∃ item content', (inItem done marker.delimiter number items inner content).takeLine tasks line =
        inItem done marker.delimiter number (item :: items) (indent + marker.written.length + 1)
          content' ∧
      item.IsWordItem first ∧ content'.text = word.chars := by
  have hmatched : 1 = (inItem done marker.delimiter number items inner content).frames.length →
      isNumberDelimiter marker.delimiter = false := by
    intro heq
    cases heq
  obtain ⟨item, hframes, hpop, hitem⟩ :=
    closeLeaf_inItem hc done marker.delimiter number items inner line.start
  obtain ⟨content', hopen, hcontent'⟩ := @openContainers_item line marker hm word indent hi hl tasks
    line.text.length _ _ _ _ (continueList_inList done number (item :: items)
      ⟨marker.delimiter, marker.number, indent + marker.written.length + 1⟩ line.start)
  refine ⟨item, content', ?_, hitem, hcontent'⟩
  have hafter : (inItem done marker.delimiter number items inner content).takeLine tasks line =
      (inItem done marker.delimiter number items inner content).takeAfterParagraph tasks [content] line 1
        ⟨itemText indent marker word, 0, 0, 0⟩ := by
    unfold takeLine
    rw [continueAll_inItem hm htext ho]
    rfl
  have hfresh : (inItem done marker.delimiter number items inner content).takeFresh tasks line 1
      ⟨itemText indent marker word, 0, 0, 0⟩ =
      openContainers tasks line (line.text.length + 1)
        ((inItem done marker.delimiter number items inner content).closeLeaf.pop line.start)
        ⟨itemText indent marker word, 0, 0, 0⟩ := by
    unfold takeFresh
    simp only
    rw [hframes]
    rfl
  rw [hafter, takeAfterParagraph_item hm hi hmatched, hfresh, hpop, hopen]

end Lines

end BlockState

end Markdown

end DefinitionLists
