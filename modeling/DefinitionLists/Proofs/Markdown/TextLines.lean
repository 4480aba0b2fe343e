/-
Module: DefinitionLists.Proofs.Markdown.TextLines
Purpose: Lines that open a paragraph or go on with one, whatever comes after them, and lines of items that
  open one.
Main exports: OpensParagraph, Cursor.AtText, Cursor.AtDeepText, Cursor.OpensItem,
  BlockState.startLeaf_atText, BlockState.openContainers_atText, BlockState.takeAfterParagraph_text
-/
import DefinitionLists.Proofs.Markdown.Interruptions
import DefinitionLists.Proofs.Written.Steps

namespace DefinitionLists.Markdown

/-! ### Text that opens a paragraph -/

theorem htmlStart_eq_none {rest : List Char} (h : htmlStart? false rest = none) (inParagraph : Bool) :
    htmlStart? inParagraph rest = none := by
  unfold htmlStart? at h ⊢
  split at h
  · cases h
  · cases inParagraph with
    | false => exact h
    | true =>
        simp only [Bool.not_false, Bool.true_and, ite_eq_right_iff, reduceCtorEq, imp_false,
          Bool.or_eq_true, not_or] at h
        simp [h.1]

/-- Whether text opens no other block than a paragraph, and underlines none, whatever comes after it. -/
structure OpensParagraph (rest : List Char) : Prop where
  start : rest.head?.any (fun c => !isInlineSpace c && c != '~' && c != '>') = true
  tick : ¬ ['`', '`'] <+: rest ∧ rest ≠ ['`']
  rule : isRule rest = false
  heading : headingLevel? rest = none
  underline : underlineLevel? rest = none
  item : interruptsAsItem false false rest = false
  html : (htmlStart? false rest).isNone = true

instance (rest : List Char) : Decidable (OpensParagraph rest) :=
  decidable_of_iff (rest.head?.any (fun c => !isInlineSpace c && c != '~' && c != '>') = true ∧
      (¬ ['`', '`'] <+: rest ∧ rest ≠ ['`']) ∧ isRule rest = false ∧ headingLevel? rest = none ∧
      underlineLevel? rest = none ∧ interruptsAsItem false false rest = false ∧
      (htmlStart? false rest).isNone = true)
    ⟨fun ⟨start, tick, rule, heading, underline, item, html⟩ =>
      ⟨start, tick, rule, heading, underline, item, html⟩,
    fun h => ⟨h.start, h.tick, h.rule, h.heading, h.underline, h.item, h.html⟩⟩

namespace OpensParagraph

variable {rest : List Char} (h : OpensParagraph rest)

include h

theorem exists_cons : ∃ c more, rest = c :: more ∧ isInlineSpace c = false ∧ c ≠ '~' ∧ c ≠ '>' := by
  have hstart := h.start
  cases rest with
  | nil => cases hstart
  | cons c more =>
      simp only [List.head?_cons, Option.any_some, Bool.and_eq_true, Bool.not_eq_true', bne_iff_ne]
        at hstart
      exact ⟨c, more, rfl, hstart.1.1, hstart.1.2, hstart.2⟩

theorem isBlankRest : Markdown.isBlankRest rest = false := by
  obtain ⟨c, more, rfl, hspace, -⟩ := h.exists_cons
  simp [Markdown.isBlankRest, hspace]

theorem isEmpty : rest.isEmpty = false := by
  obtain ⟨c, more, rfl, -⟩ := h.exists_cons
  rfl

theorem head_ne : (rest.head? == some '>') = false := by
  obtain ⟨c, more, rfl, -, -, hquote⟩ := h.exists_cons
  simpa using hquote

/-- Whatever comes after it, the text opens no fenced code. -/
theorem openingFence (tail : List Char) : openingFence? (rest ++ tail) = none := by
  obtain ⟨htwo, hone⟩ := h.tick
  obtain ⟨c, more, rfl, -, htilde, -⟩ := h.exists_cons
  by_cases hc : c = '`'
  · subst hc
    cases more with
    | nil => exact absurd rfl hone
    | cons d more =>
        have hd : d ≠ '`' := by
          rintro rfl
          exact htwo ⟨more, rfl⟩
        simp [openingFence?, hd]
  · simp [openingFence?, hc, htilde]

theorem interruptsAsItem (current nextIsBlank : Bool) :
    Markdown.interruptsAsItem current nextIsBlank rest = false := by
  have hitem := h.item
  unfold Markdown.interruptsAsItem at hitem ⊢
  cases hmark : listMark? rest with
  | none => rfl
  | some found =>
      rw [hmark] at hitem
      simp only [Bool.not_false, Bool.true_or, Bool.and_true] at hitem
      simp only [hitem, Bool.false_and]

theorem htmlStart (inParagraph : Bool) : htmlStart? inParagraph rest = none :=
  htmlStart_eq_none (Option.isNone_iff_eq_none.1 h.html) inParagraph

end OpensParagraph

/-! ### Lines of text -/

namespace Cursor

theorem suffix_takeSpaces (wanted : Nat) (cursor : Cursor) :
    (cursor.takeSpaces wanted).2.rest <:+ cursor.rest := by
  have hfrom (wanted : Nat) (rest : List Char) (taken column : Nat) :
      (takeSpacesFrom wanted rest taken column).2.rest <:+ rest := by
    fun_induction takeSpacesFrom wanted rest taken column with
    | case1 => exact List.suffix_refl _
    | case2 => exact List.suffix_refl _
    | case3 wanted taken column rest _ ih => exact ih.trans (List.suffix_cons _ _)
    | case4 => exact List.suffix_cons _ _
    | case5 wanted taken column rest _ _ _ _ ih => exact ih.trans (List.suffix_cons _ _)
    | case6 => exact List.suffix_refl _
  unfold takeSpaces
  split
  · exact List.suffix_refl _
  · exact hfrom _ _ _ _

/-- Text without the mark of an item at its front opens none. -/
theorem listMarker_eq_none {cursor : Cursor} (hp : cursor.pending = 0)
    (h : interruptsAsItem false false cursor.rest = false) (outer : Nat) :
    cursor.listMarker? outer = none := by
  unfold interruptsAsItem at h
  unfold listMarker?
  cases hmark : listMark? cursor.rest with
  | none => rfl
  | some found =>
      obtain ⟨char, number, width⟩ := found
      have hpending := pending_advanceBy width cursor
      rw [hmark] at h
      simp only [Bool.not_false, Bool.true_or, Bool.and_true, ← rest_advanceBy width cursor] at h
      rw [hp] at hpending
      simp only
      split
      · rfl
      · generalize cursor.advanceBy width = ended at h hpending ⊢
        obtain ⟨rest, taken, column, pending⟩ := ended
        obtain rfl : pending = 0 := hpending
        cases rest with
        | nil => cases h
        | cons c more =>
            simp only [List.head?_cons, Option.all_some, Bool.or_eq_false_iff, beq_eq_false_iff_ne] at h
            unfold finishMarker?
            simp [takeSpaces_text h.1 h.2, atEnd]

/-- Whether text stands at the front of what is left of a line, indented by fewer than four columns. -/
structure AtText (cursor : Cursor) : Prop where
  indent : (cursor.takeSpaces 4).1 ≠ 0
  opens : OpensParagraph (cursor.takeSpaces 4).2.rest

/-- The same for text that opens with something else than a bracket. -/
structure AtPlainText (cursor : Cursor) : Prop extends cursor.AtText where
  plain : (cursor.takeSpaces 4).2.rest.head? ≠ some '['

/-- Whether text stands at the front of what is left of a line, indented by four columns or more. -/
structure AtDeepText (cursor : Cursor) : Prop where
  indent : (cursor.takeSpaces 4).1 = 0
  opens : (cursor.takeSpaces 4).2.skipBlanks.atEnd = false

instance (cursor : Cursor) : Decidable cursor.AtText :=
  decidable_of_iff ((cursor.takeSpaces 4).1 ≠ 0 ∧
      OpensParagraph (cursor.takeSpaces 4).2.rest)
    ⟨fun h => ⟨h.1, h.2⟩, fun h => ⟨h.indent, h.opens⟩⟩

instance (cursor : Cursor) : Decidable cursor.AtPlainText :=
  decidable_of_iff (cursor.AtText ∧ (cursor.takeSpaces 4).2.rest.head? ≠ some '[')
    ⟨fun h => ⟨h.1, h.2⟩, fun h => ⟨h.toAtText, h.plain⟩⟩

instance (cursor : Cursor) : Decidable cursor.AtDeepText :=
  decidable_of_iff ((cursor.takeSpaces 4).1 = 0 ∧ (cursor.takeSpaces 4).2.skipBlanks.atEnd = false)
    ⟨fun h => ⟨h.1, h.2⟩, fun h => ⟨h.indent, h.opens⟩⟩

namespace AtText

variable {cursor : Cursor} (h : cursor.AtText)

include h

theorem isBlankRest : isBlankRest cursor.rest = false := by
  obtain ⟨c, rest, hrest, hspace, -⟩ := h.opens.exists_cons
  have hsuffix := cursor.suffix_takeSpaces 4
  rw [hrest] at hsuffix
  rw [Markdown.isBlankRest, List.all_eq_false]
  exact ⟨c, hsuffix.subset (by simp), by simp [hspace]⟩

theorem atEnd_takeSpaces : (cursor.takeSpaces 4).2.atEnd = false :=
  h.opens.isEmpty

/-- There is something besides blanks on the line. -/
theorem atEnd_skipBlanks : (cursor.takeSpaces 4).2.skipBlanks.atEnd = false := by
  obtain ⟨c, rest, hrest, hinline, -⟩ := h.opens.exists_cons
  have hspace : c ≠ ' ' ∧ c ≠ '\t' := by
    simp only [isInlineSpace, Bool.or_eq_false_iff, beq_eq_false_iff_ne] at hinline
    exact ⟨hinline.1.1.1, hinline.1.1.2⟩
  have hskip : (cursor.takeSpaces 4).2.skipBlanks.rest = c :: rest := by
    simp [skipBlanks, hrest, hspace]
  rw [Cursor.atEnd, hskip]
  rfl

theorem isUnindented : cursor.IsUnindented :=
  ⟨h.indent, h.isBlankRest, h.atEnd_takeSpaces⟩

end AtText

end Cursor

namespace BlockState

variable {state : BlockState} {line : Line} {cursor : Cursor}

/-- Text opens a paragraph. -/
theorem startLeaf_atText (h : cursor.AtText) (state : BlockState) (line : Line) :
    ∃ first : TextLine, first.text = (cursor.takeSpaces 4).2.rest ∧ state.startLeaf line cursor =
      { state.finishList line.start with leaf := some (.paragraph [first]) } := by
  have hindent := h.indent
  have hblank := h.isBlankRest
  have hraw := line.rawFrom_eq_append (cursor.takeSpaces 4).2.rest
  refine ⟨⟨[], [], line.start + (cursor.takeSpaces 4).2.taken, (cursor.takeSpaces 4).2.rest,
    line.ending, line.stop⟩, rfl, ?_⟩
  unfold startLeaf
  simp only [hblank, hindent, h.opens.htmlStart, h.opens.rule, h.opens.heading, hraw,
    h.opens.openingFence]
  simp

/-- Text opens no containers. -/
theorem openContainers_atText (h : cursor.AtText) (tasks : Bool) (line : Line) (bound : Nat)
    (state : BlockState) :
    openContainers tasks line bound state cursor = state.startLeaf line cursor := by
  have hindent := h.indent
  have hmark := Cursor.listMarker_eq_none (Cursor.pending_takeSpaces hindent) h.opens.item
  have hquote : (cursor.takeSpaces 4).2.takeQuoteMark? = none := by
    have hhead := h.opens.head_ne
    simp only [beq_eq_false_iff_ne] at hhead
    simp [Cursor.takeQuoteMark?, Cursor.takeChar?, hhead]
  cases bound with
  | zero => rfl
  | succ bound =>
      unfold openContainers
      simp [hindent, hmark, hquote]

/-- Text interrupts no paragraph, and underlines none. -/
theorem interrupts_atText (h : cursor.AtText) (current : Bool) (line : Line) :
    interrupts current line (cursor.takeSpaces 4).2.rest = false ∧
      underlineLevel? (cursor.takeSpaces 4).2.rest = none := by
  have hraw := line.rawFrom_eq_append (cursor.takeSpaces 4).2.rest
  have hopens := h.opens
  refine ⟨?_, hopens.underline⟩
  rw [interrupts_eq, hopens.isEmpty, hopens.interruptsAsItem, hopens.rule, hopens.heading, hraw,
    hopens.openingFence, hopens.htmlStart, hopens.head_ne]
  rfl

/-- Text goes on with a paragraph, and is not looked at if it is indented by four columns. -/
theorem takeAfterParagraph_text (ht : cursor.AtText ∨ cursor.AtDeepText) (tasks : Bool)
    (state : BlockState) (lines : List TextLine) (line : Line) (matched : Nat) :
    ∃ added, state.takeAfterParagraph tasks lines line matched cursor =
      { state with leaf := some (.paragraph (added :: lines)) } := by
  have hatEnd : (cursor.takeSpaces 4).2.skipBlanks.atEnd = false := by
    rcases ht with ht | ht
    · exact ht.atEnd_skipBlanks
    · exact ht.opens
  have hinterrupts (current : Bool) : ¬ ((cursor.takeSpaces 4).1 ≠ 0 ∧
      interrupts current line (cursor.takeSpaces 4).2.rest = true) := by
    rintro ⟨hindent, hinterrupts⟩
    rcases ht with ht | ht
    · rw [(interrupts_atText ht current line).1] at hinterrupts
      cases hinterrupts
    · exact hindent ht.indent
  have hunderline (current : Bool) : (if (cursor.takeSpaces 4).1 ≠ 0 ∧ current = true then
      underlineLevel? (cursor.takeSpaces 4).2.rest else none) = none := by
    split
    · next hindent =>
        rcases ht with ht | ht
        · exact (interrupts_atText ht current line).2
        · exact absurd ht.indent hindent.1
    · rfl
  unfold takeAfterParagraph
  simp only [hunderline, Option.filter_none]
  rw [if_neg]
  · exact ⟨_, rfl⟩
  · rintro (htext | hinterrupted)
    · rw [hatEnd] at htext
      cases htext
    · exact hinterrupts _ hinterrupted

end BlockState

/-! ### Items -/

/-- Whether a line is an item with text that interrupts paragraphs, and its content is indented by four
columns or more. -/
structure Cursor.OpensItem (cursor : Cursor) : Prop where
  ends : cursor.EndsParagraph
  item : ((cursor.takeSpaces 4).2.listMarker? (4 - (cursor.takeSpaces 4).1)).any (fun (marker, after) =>
    decide (4 ≤ marker.indent ∧ after.AtText) && (after.taskMark? true).isNone) = true

instance (cursor : Cursor) : Decidable cursor.OpensItem :=
  decidable_of_iff (cursor.EndsParagraph ∧
      ((cursor.takeSpaces 4).2.listMarker? (4 - (cursor.takeSpaces 4).1)).any (fun (marker, after) =>
        decide (4 ≤ marker.indent ∧ after.AtText) && (after.taskMark? true).isNone) = true)
    ⟨fun h => ⟨h.1, h.2⟩, fun h => ⟨h.ends, h.item⟩⟩

theorem Cursor.taskMark_eq_none {cursor : Cursor} (h : cursor.taskMark? true = none) (ended : Bool) :
    cursor.taskMark? ended = none := by
  unfold taskMark? at h ⊢
  simp only at h ⊢
  split
  · next state rest heq =>
      rw [heq] at h
      simp only [ite_eq_right_iff, reduceCtorEq, imp_false, Bool.and_eq_true, not_and,
        Bool.not_eq_true] at h ⊢
      intro hmark
      have hspaced := h hmark
      cases rest with
      | nil => cases hspaced
      | cons c more => exact hspaced
  · rfl

end DefinitionLists.Markdown
