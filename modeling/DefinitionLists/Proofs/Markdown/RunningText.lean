/-
Module: DefinitionLists.Proofs.Markdown.RunningText
Purpose: Lines of text outside of containers open a paragraph or go on with one, and a blank line
  between two of them makes no other difference.
Main exports: BlockState.InText, BlockState.IsClear, BlockState.InText.alike,
  BlockState.InText.takeLine, BlockState.IsClear.takeLine, BlockState.IsClear.takeBlankLine,
  BlockState.IsClear.takeBlankLine_takeLine, BlockState.IsClear.takeLine_repetition
-/
import DefinitionLists.Proofs.Markdown.Alike
import DefinitionLists.Proofs.Markdown.TextLines

namespace DefinitionLists.Markdown

/-! ### Paragraphs -/

theorem opensPlainly_single {line : TextLine} {c : Char} {rest : List Char} (h : line.text = c :: rest)
    (hc : isInlineSpace c = false) (hb : c ≠ '[') : opensPlainly [line] = true := by
  rw [opensPlainly, List.getLast?_singleton, Option.any_some, h, Text.trimEndWhile_cons hc]
  simpa using hb

theorem Cursor.AtPlainText.opensPlainly {cursor : Cursor} (h : cursor.AtPlainText) {first : TextLine}
    (hf : first.text = (cursor.takeSpaces 4).2.rest) : opensPlainly [first] = true := by
  obtain ⟨c, rest, hrest, hspace, -⟩ := h.opens.exists_cons
  have hbracket := h.plain
  rw [hrest, List.head?_cons, ne_eq, Option.some_inj] at hbracket
  exact opensPlainly_single (hf.trans hrest) hspace hbracket

theorem LinesAlike.opensPlainly {lines lines' : List TextLine} (h : LinesAlike lines lines')
    (hp : Markdown.opensPlainly lines = true) : Markdown.opensPlainly lines' = true := by
  rcases h with ⟨-, hplain⟩ | hsame
  · exact hplain
  · induction hsame with
    | nil => cases hp
    | @cons line line' more more' hline hmore ih =>
        cases hmore with
        | nil =>
            rw [Markdown.opensPlainly, List.getLast?_singleton, Option.any_some] at hp ⊢
            rwa [← hline.text]
        | cons hnext hrest =>
            rw [Markdown.opensPlainly, List.getLast?_cons_cons] at hp ⊢
            exact ih hp

/-! ### Outside of containers -/

/-- Whether the open block is a paragraph that does not open with a bracket, or indented code. -/
def OpenLeaf.isClear : OpenLeaf → Bool
  | .paragraph lines => opensPlainly lines
  | .indented _ => true
  | .fenced .. | .html .. => false

namespace BlockState

/-- Whether a paragraph outside of containers is open, and nothing else. It opens with something else
than a bracket. -/
structure InText (state : BlockState) : Prop where
  frames : state.frames = []
  leaf : ∃ lines, state.leaf = some (.paragraph lines) ∧ opensPlainly lines = true
  raw : state.inRawLine = false

/-- Whether neither containers nor fenced code nor HTML are open, nor a paragraph that opens with a
bracket. -/
structure IsClear (state : BlockState) : Prop where
  frames : state.frames = []
  leaf : state.leaf.all OpenLeaf.isClear = true
  raw : state.inRawLine = false

instance (state : BlockState) : Decidable state.IsClear :=
  decidable_of_iff (state.frames.isEmpty = true ∧ state.leaf.all OpenLeaf.isClear = true ∧
      state.inRawLine = false)
    ⟨fun ⟨frames, leaf, raw⟩ => ⟨List.isEmpty_iff.1 frames, leaf, raw⟩,
    fun h => ⟨List.isEmpty_iff.2 h.frames, h.leaf, h.raw⟩⟩

variable {state state' : BlockState} {line : Line} {cursor : Cursor}

theorem finishList_of_frames (h : state.frames = []) (stop : Nat) :
    state.finishList stop = { state with freshItem := false, lastLineBlank := false } := by
  obtain ⟨frames, done, leaf, fresh, blank, task, targets, raw⟩ := state
  obtain rfl : frames = [] := h
  cases blank <;> rfl

theorem takeFresh_of_frames (h : state.frames = []) (tasks : Bool) (line : Line) (matched : Nat)
    (cursor : Cursor) : state.takeFresh tasks line matched cursor =
      openContainers tasks line (line.text.length + 1) state.closeLeaf cursor := by
  have hclosed := frames_closeLeaf_eq_nil.2 h
  unfold takeFresh
  simp only [hclosed, List.length_nil, Nat.zero_sub]
  rfl

/-- Nothing is in the way of text where nothing is open. -/
theorem takeFresh_atText (h : state.frames = []) (hr : state.inRawLine = false) (ht : cursor.AtPlainText)
    (tasks : Bool) (line : Line) (matched : Nat) :
    (state.takeFresh tasks line matched cursor).InText ∧
      (state.takeFresh tasks line matched cursor).codes = state.closeLeaf.codes := by
  have hclosed := frames_closeLeaf_eq_nil.2 h
  obtain ⟨first, hfirst, hstart⟩ := startLeaf_atText ht.toAtText state.closeLeaf line
  rw [takeFresh_of_frames h, openContainers_atText ht.toAtText, hstart, finishList_of_frames hclosed]
  exact ⟨⟨hclosed, ⟨_, rfl, ht.opensPlainly hfirst⟩, (inRawLine_closeLeaf state).trans hr⟩, rfl⟩

/-- States in which nothing but a paragraph is open are alike if the code in them is. -/
theorem InText.alike (h : state.InText) (h' : state'.InText) (hc : state.codes = state'.codes) :
    state.Alike state' := by
  obtain ⟨lines, hleaf, hplain⟩ := h.leaf
  obtain ⟨lines', hleaf', hplain'⟩ := h'.leaf
  refine ⟨?_, hc, ?_, fun hne => absurd h.frames hne, fun hne => absurd h.frames hne, ?_⟩
  · rw [h.frames, h'.frames]
    exact .nil
  · rw [hleaf, hleaf']
    exact .some (.paragraph (.inl ⟨hplain, hplain'⟩))
  · rw [h.raw, h'.raw]

/-- The code that is done does not depend on the paragraph that is open. -/
theorem codes_closeLeaf_of_paragraph {lines : List TextLine} (h : state.leaf = some (.paragraph lines)) :
    state.closeLeaf.codes = state.codes := by
  unfold closeLeaf
  rw [h]
  exact codes_addParagraph _ _ _

theorem takeLine_of_frames (h : state.frames = []) (hr : state.inRawLine = false) (tasks : Bool)
    (line : Line) {lines : List TextLine} (hl : state.leaf = some (.paragraph lines)) :
    state.takeLine tasks line = state.takeAfterParagraph tasks lines line 0 (Cursor.ofLine line) := by
  unfold takeLine
  rw [hr, h, hl]
  rfl

/-- Text goes on with a paragraph. -/
theorem InText.takeLine (h : state.InText)
    (ht : (Cursor.ofLine line).AtText ∨ (Cursor.ofLine line).AtDeepText) (tasks : Bool) :
    (state.takeLine tasks line).InText ∧ (state.takeLine tasks line).codes = state.codes := by
  obtain ⟨lines, hleaf, hplain⟩ := h.leaf
  obtain ⟨added, htake⟩ := takeAfterParagraph_text ht tasks state lines line 0
  rw [takeLine_of_frames h.frames h.raw tasks line hleaf, htake]
  exact ⟨⟨h.frames, ⟨_, rfl, opensPlainly_cons hplain _⟩, h.raw⟩, rfl⟩

/-- Text goes on with a paragraph that is open, and opens one otherwise. -/
theorem IsClear.takeLine (h : state.IsClear) (ht : (Cursor.ofLine line).AtPlainText) (tasks : Bool) :
    (state.takeLine tasks line).InText ∧
      (state.takeLine tasks line).codes = state.closeLeaf.codes := by
  have hfresh := takeFresh_atText h.frames h.raw ht tasks line 0
  have hclear := h.leaf
  cases hleaf : state.leaf with
  | none =>
      have htake : state.takeLine tasks line = state.takeFresh tasks line 0 (Cursor.ofLine line) := by
        unfold BlockState.takeLine
        rw [h.raw, h.frames, hleaf]
        rfl
      rw [htake]
      exact hfresh
  | some leaf =>
      rw [hleaf] at hclear
      cases leaf with
      | paragraph lines =>
          have htext : state.InText := ⟨h.frames, ⟨lines, hleaf, hclear⟩, h.raw⟩
          rw [codes_closeLeaf_of_paragraph hleaf]
          exact htext.takeLine (.inl ht.toAtText) tasks
      | fenced | html => cases hclear
      | indented lines =>
          have hatEnd := ht.toAtText.atEnd_takeSpaces
          have htake : state.takeLine tasks line = state.takeFresh tasks line 0 (Cursor.ofLine line) := by
            unfold BlockState.takeLine
            rw [h.raw, h.frames, hleaf]
            simp only [Bool.false_eq_true, if_false, List.reverse_nil, Frame.continueAll, hatEnd]
            rw [if_pos]
            exact .inr ⟨Nat.pos_of_ne_zero ht.indent, rfl⟩
          rw [htake]
          exact hfresh

theorem takeBlank_of_frames (h : state.frames = []) :
    state.takeBlank = { state with lastLineBlank := true } := by
  obtain ⟨frames, done, leaf, fresh, blank, task, targets, raw⟩ := state
  obtain rfl : frames = [] := h
  rfl

theorem closeLeaf_of_leaf (h : state.leaf = none) : state.closeLeaf = state := by
  obtain ⟨frames, done, leaf, fresh, blank, task, targets, raw⟩ := state
  obtain rfl : leaf = none := h
  rfl

/-- Where a blank line goes on with nothing, it closes what is open. -/
theorem IsClear.takeFresh_blank (h : state.IsClear) (tasks : Bool) (line : Line) :
    (state.takeFresh tasks line 0 ⟨[], 0, 0, 0⟩).IsClear ∧
      (state.takeFresh tasks line 0 ⟨[], 0, 0, 0⟩).closeLeaf.codes = state.closeLeaf.codes := by
  have hstart : state.takeFresh tasks line 0 ⟨[], 0, 0, 0⟩ = state.closeLeaf.takeBlank := by
    rw [takeFresh_of_frames h.frames]
    rfl
  have hframes := frames_closeLeaf_eq_nil.2 h.frames
  have hraw := (inRawLine_closeLeaf state).trans h.raw
  have hleaf := leaf_closeLeaf state
  rw [hstart, takeBlank_of_frames hframes]
  generalize state.closeLeaf = closed at hframes hraw hleaf
  refine ⟨⟨hframes, ?_, hraw⟩, ?_⟩
  · rw [hleaf]
    rfl
  · rw [@closeLeaf_of_leaf { closed with lastLineBlank := true } hleaf]
    rfl

/-- A blank line leaves nothing open but code that is indented. -/
theorem IsClear.takeBlankLine (h : state.IsClear) (htext : line.text = [])
    (hl : line.endsInCarriageReturn = false) (tasks : Bool) :
    (state.takeLine tasks line).IsClear ∧
      (state.takeLine tasks line).closeLeaf.codes = state.closeLeaf.codes := by
  have hcursor : Cursor.ofLine line = ⟨[], 0, 0, 0⟩ := by rw [Cursor.ofLine, htext]
  have hfresh := h.takeFresh_blank tasks line
  have hclear := h.leaf
  cases hleaf : state.leaf with
  | none =>
      have htake : state.takeLine tasks line = state.takeFresh tasks line 0 ⟨[], 0, 0, 0⟩ := by
        unfold BlockState.takeLine
        rw [h.raw, h.frames, hleaf, hcursor]
        rfl
      rw [htake]
      exact hfresh
  | some leaf =>
      rw [hleaf] at hclear
      cases leaf with
      | paragraph lines =>
          have htake : state.takeLine tasks line = state.takeFresh tasks line 0 ⟨[], 0, 0, 0⟩ := by
            rw [takeLine_of_frames h.frames h.raw tasks line hleaf, hcursor]
            simp only [BlockState.takeAfterParagraph, h.frames]
            rfl
          rw [htake]
          exact hfresh
      | fenced | html => cases hclear
      | indented lines =>
          have htake : state.takeLine tasks line = { state with
              leaf := some (.indented ((rawLine line 0 [], true) :: lines))
              lastLineBlank := true
              inRawLine := line.endsInCarriageReturn } := by
            unfold BlockState.takeLine
            rw [h.raw, h.frames, hleaf, hcursor]
            rfl
          rw [htake]
          refine ⟨⟨h.frames, rfl, hl⟩, ?_⟩
          unfold closeLeaf
          rw [hleaf]
          simp only
          rw [codes_add, codes_add]
          rfl

/-- Whether nothing is in the way of text is the same for states that are alike. -/
theorem IsClear.of_alike (h : state.IsClear) (ha : state.Alike state') : state'.IsClear := by
  have hframes := Frame.length_of_framesAlike ha.frames
  rw [h.frames, List.length_nil] at hframes
  refine ⟨List.length_eq_zero_iff.1 hframes.symm, ?_, ha.raw.symm.trans h.raw⟩
  have hclear := h.leaf
  have hleaf := ha.leaf
  generalize state.leaf = opened at hclear hleaf
  generalize state'.leaf = opened' at hleaf
  cases hleaf with
  | none => rfl
  | some hleaf =>
      cases hleaf with
      | paragraph hlines => exact hlines.opensPlainly hclear
      | fenced | html => cases hclear
      | indented => rfl

/-- Where text comes next, a blank line before it leaves the states alike. -/
theorem IsClear.takeBlankLine_takeLine (h : state.IsClear) (ha : state.Alike state')
    {blank line line' : Line} (hb : blank.text = []) (he : blank.endsInCarriageReturn = false)
    (ht : (Cursor.ofLine line).AtPlainText) (ht' : (Cursor.ofLine line').AtPlainText) (tasks : Bool) :
    (state.takeLine tasks line).Alike ((state'.takeLine tasks blank).takeLine tasks line') := by
  obtain ⟨hclear, hblank⟩ := (h.of_alike ha).takeBlankLine hb he tasks
  obtain ⟨htext, hcodes⟩ := h.takeLine ht tasks
  obtain ⟨htext', hcodes'⟩ := hclear.takeLine ht' tasks
  exact htext.alike htext' (by rw [hcodes, hcodes', hblank, ha.closeLeaf.codes])

/-- Where text comes next, more text after it leaves the states alike. -/
theorem IsClear.takeLine_repetition (h : state.IsClear) (ha : state.Alike state')
    {line line' repetition : Line} (ht : (Cursor.ofLine line).AtPlainText)
    (ht' : (Cursor.ofLine line').AtPlainText)
    (hr : (Cursor.ofLine repetition).AtText ∨ (Cursor.ofLine repetition).AtDeepText) (tasks : Bool) :
    (state.takeLine tasks line).Alike ((state'.takeLine tasks line').takeLine tasks repetition) := by
  obtain ⟨htext, hcodes⟩ := h.takeLine ht tasks
  obtain ⟨htext', hcodes'⟩ := (h.of_alike ha).takeLine ht' tasks
  obtain ⟨hrepeated, hrepetition⟩ := htext'.takeLine hr tasks
  exact htext.alike hrepeated (by rw [hcodes, hrepetition, hcodes', ha.closeLeaf.codes])

end BlockState

end DefinitionLists.Markdown
