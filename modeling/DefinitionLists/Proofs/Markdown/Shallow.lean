/-
Module: DefinitionLists.Proofs.Markdown.Shallow
Purpose: Lines that are not indented are read alike whether an item is open outside of other containers
  or nothing is, but for the paragraph that goes on or ends there.
Main exports: BlockState.IsShallow, BlockState.ShallowAlike, BlockState.IsShallow.takeLine_text,
  BlockState.IsShallow.takeLine_bullet, BlockState.ShallowAlike.takeBlankLine,
  BlockState.ShallowAlike.takeLine
-/
import DefinitionLists.Proofs.Markdown.RunningText

namespace DefinitionLists.Markdown

/-! ### Indentation -/

/-- Columns that are not there are missing, too, if more are wanted. -/
theorem Cursor.takeSpaces_of_le {cursor : Cursor} {wanted more : Nat} (hle : wanted ≤ more)
    (hm : (cursor.takeSpaces wanted).1 ≠ 0) :
    cursor.takeSpaces more =
      ((cursor.takeSpaces wanted).1 + (more - wanted), (cursor.takeSpaces wanted).2) := by
  have hfrom (wanted : Nat) (rest : List Char) (taken column more : Nat) (hle : wanted ≤ more)
      (hm : (takeSpacesFrom wanted rest taken column).1 ≠ 0) :
      takeSpacesFrom more rest taken column =
        ((takeSpacesFrom wanted rest taken column).1 + (more - wanted),
          (takeSpacesFrom wanted rest taken column).2) := by
    fun_induction takeSpacesFrom wanted rest taken column generalizing more with
    | case1 wanted taken column =>
        rw [takeSpacesFrom, Nat.add_sub_of_le hle]
    | case2 => exact absurd rfl hm
    | case3 wanted taken column rest hwanted ih =>
        have hmore : more ≠ 0 := by omega
        rw [takeSpacesFrom, if_neg hmore, if_pos rfl, ih (more - 1) (by omega) hm]
        simp only [Prod.mk.injEq, and_true]
        omega
    | case4 => exact absurd rfl hm
    | case5 wanted taken column rest hwanted width hwidth _ ih =>
        have hmore : more ≠ 0 := by omega
        have hfits : ¬ more < 4 - column % 4 := fun hlt => hwidth (Nat.lt_of_le_of_lt hle hlt)
        have hspace : ¬ ('\t' : Char) = ' ' := by decide
        rw [takeSpacesFrom, if_neg hmore, if_neg hspace, if_pos rfl]
        simp only
        rw [if_neg hfits, ih (more - (4 - column % 4)) (by omega) hm]
        simp only [Prod.mk.injEq, and_true]
        omega
    | case6 wanted taken column c rest hwanted hspace htab =>
        have hmore : more ≠ 0 := by omega
        rw [takeSpacesFrom, if_neg hmore, if_neg hspace, if_neg htab, Nat.add_sub_of_le hle]
  unfold takeSpaces at hm ⊢
  split at hm
  · exact absurd rfl hm
  · next hpending =>
      rw [if_neg hpending, if_neg (fun hle' => hpending (Nat.le_trans hle hle')),
        hfrom _ _ _ _ (more - cursor.pending) (by omega) hm]
      simp only [Prod.mk.injEq, and_true]
      omega

/-! ### Outer items -/

namespace Frame

/-- Whether there are no containers, or only an item of a list that takes lines from four columns of
indentation on. -/
def areShallow : List Frame → Bool
  | [] => true
  | [.item indent _ _, .list _ _ _ _] => 4 ≤ indent
  | _ => false

theorem areShallow_cases {frames : List Frame} (h : areShallow frames = true) :
    frames = [] ∨ ∃ indent task done tight char number items, 4 ≤ indent ∧
      frames = [.item indent task done, .list tight char number items] := by
  unfold areShallow at h
  split at h
  · exact .inl rfl
  · exact .inr ⟨_, _, _, _, _, _, _, of_decide_eq_true h, rfl⟩
  · cases h

theorem areShallow_add (block : Block) (frame : Frame) (outer : List Frame) :
    areShallow (frame.add block :: outer) = areShallow (frame :: outer) := by
  cases frame with
  | quote | list => rfl
  | item =>
      cases outer with
      | nil => rfl
      | cons next more => cases next <;> cases more <;> rfl

variable {frames : List Frame} (h : areShallow frames = true)

include h

/-- A line that is not indented goes on with the list only. -/
theorem continueAll_of_indent {cursor : Cursor} (hm : (cursor.takeSpaces 4).1 ≠ 0)
    (hn : (cursor.takeSpaces 4).2.atEnd = false) :
    continueAll cursor frames.reverse = (frames.length - 1, cursor) := by
  rcases areShallow_cases h with rfl | ⟨indent, task, done, tight, char, number, items, hle, rfl⟩
  · rfl
  · have htake := Cursor.takeSpaces_of_le hle hm
    have hitem : continue? cursor (.item indent task done) = none := by
      simp [continue?, htake, hm, hn]
    rw [List.reverse_cons, List.reverse_singleton, List.singleton_append, continueAll, continue?]
    simp only
    rw [continueAll, hitem]
    rfl

/-- An empty line goes on with everything. -/
theorem continueAll_of_atEnd (taken column : Nat) :
    continueAll ⟨[], taken, column, 0⟩ frames.reverse = (frames.length, ⟨[], taken, column, 0⟩) := by
  rcases areShallow_cases h with rfl | ⟨indent, task, done, tight, char, number, items, hle, rfl⟩
  · rfl
  · have hindent : ¬ indent = 0 := by omega
    simp [continueAll, continue?, Cursor.takeSpaces, Cursor.takeSpacesFrom, hindent, Cursor.atEnd]

end Frame

/-- Whether the open block is a paragraph. -/
def OpenLeaf.isParagraph : OpenLeaf → Bool
  | .paragraph _ => true
  | _ => false

namespace BlockState

/-- Whether at most one item of a list outside of other containers is open, which takes lines from four
columns of indentation on, and nothing but a paragraph in it. -/
structure IsShallow (state : BlockState) : Prop where
  frames : Frame.areShallow state.frames = true
  leaf : state.leaf.all OpenLeaf.isParagraph = true
  fresh : ¬ state.InEmptyItem
  raw : state.inRawLine = false

instance (state : BlockState) : Decidable state.IsShallow :=
  decidable_of_iff (Frame.areShallow state.frames = true ∧
      state.leaf.all OpenLeaf.isParagraph = true ∧ ¬ state.InEmptyItem ∧ state.inRawLine = false)
    ⟨fun ⟨frames, leaf, fresh, raw⟩ => ⟨frames, leaf, fresh, raw⟩,
    fun h => ⟨h.frames, h.leaf, h.fresh, h.raw⟩⟩

/-- Whether both states are shallow, and the same code was read. A paragraph is open in both or in
none of them. -/
structure ShallowAlike (state state' : BlockState) : Prop where
  left : state.IsShallow
  right : state'.IsShallow
  leaf : state.leaf.isSome = state'.leaf.isSome
  codes : state.codes = state'.codes

/-- Whether at most a list outside of other containers is open, and nothing in it. -/
structure AtEdge (state : BlockState) : Prop where
  frames : state.frames = [] ∨
    ∃ tight char number items, state.frames = [.list tight char number items]
  leaf : state.leaf = none
  raw : state.inRawLine = false

variable {state state' : BlockState} {line line' : Line} {cursor : Cursor}

@[simp] theorem areShallow_add (state : BlockState) (block : Block) :
    Frame.areShallow (state.add block).frames = Frame.areShallow state.frames := by
  unfold add
  split
  · next heq => rw [heq]
  · next frame outer heq => rw [heq, Frame.areShallow_add]

namespace IsShallow

theorem leaf_cases (h : state.IsShallow) :
    state.leaf = none ∨ ∃ lines, state.leaf = some (.paragraph lines) := by
  have hall := h.leaf
  cases hleaf : state.leaf with
  | none => exact .inl rfl
  | some leaf =>
      rw [hleaf] at hall
      cases leaf with
      | paragraph lines => exact .inr ⟨lines, rfl⟩
      | fenced | indented | html => cases hall

/-- What is open is a paragraph, which is no code. -/
theorem closeLeaf (h : state.IsShallow) :
    state.closeLeaf.IsShallow ∧ state.closeLeaf.codes = state.codes := by
  rcases h.leaf_cases with hleaf | ⟨lines, hleaf⟩
  · rw [closeLeaf_of_leaf hleaf]
    exact ⟨h, rfl⟩
  · have hnone := leaf_closeLeaf state
    have hclosed : Frame.areShallow state.closeLeaf.frames = true ∧
        state.closeLeaf.freshItem = state.freshItem := by
      unfold BlockState.closeLeaf addParagraph
      rw [hleaf]
      simp only
      split
      · exact ⟨(areShallow_add _ _).trans h.frames, freshItem_add _ _⟩
      · exact ⟨h.frames, rfl⟩
    refine ⟨⟨hclosed.1, by rw [hnone]; rfl, ?_, (inRawLine_closeLeaf state).trans h.raw⟩,
      codes_closeLeaf_of_paragraph hleaf⟩
    rintro ⟨hne, hfresh⟩
    exact h.fresh ⟨fun hnil => hne (frames_closeLeaf_eq_nil.2 hnil), hclosed.2 ▸ hfresh⟩

/-- The item ends where a line goes on with the list only. -/
theorem takeFresh (h : state.IsShallow) (tasks : Bool) (line : Line) (cursor : Cursor) :
    ∃ ended : BlockState, state.takeFresh tasks line (state.frames.length - 1) cursor =
        openContainers tasks line (line.text.length + 1) ended cursor ∧
      ended.AtEdge ∧ ended.codes = state.codes := by
  obtain ⟨hclosed, hcodes⟩ := h.closeLeaf
  have hleaf := leaf_closeLeaf state
  have hlength := length_frames_closeLeaf state
  rcases Frame.areShallow_cases hclosed.frames with hnil | ⟨_, _, _, _, _, _, _, -, hitem⟩
  · refine ⟨state.closeLeaf, ?_, ⟨.inl hnil, hleaf, hclosed.raw⟩, hcodes⟩
    unfold BlockState.takeFresh
    simp only [← hlength, hnil]
    rfl
  · refine ⟨state.closeLeaf.pop line.start, ?_, ?_, (codes_pop _ _).trans hcodes⟩
    · unfold BlockState.takeFresh
      simp only [← hlength, hitem]
      rfl
    · have hraw := hclosed.raw
      generalize state.closeLeaf = closed at hitem hleaf hraw
      obtain ⟨frames, done, leaf, fresh, blank, task, targets, raw⟩ := closed
      obtain rfl : frames = _ := hitem
      exact ⟨.inr ⟨_, _, _, _, rfl⟩, hleaf, hraw⟩

end IsShallow

/-! ### Where the item has ended -/

namespace AtEdge

/-- The list ends where another block follows. -/
theorem finishList (h : state.AtEdge) (stop : Nat) :
    (state.finishList stop).frames = [] ∧ (state.finishList stop).leaf = none ∧
      (state.finishList stop).inRawLine = false ∧ (state.finishList stop).codes = state.codes := by
  rcases h.frames with hnil | ⟨tight, char, number, items, hlist⟩
  · rw [finishList_of_frames hnil]
    exact ⟨hnil, h.leaf, h.raw, rfl⟩
  · have hfinish : state.finishList stop =
        { state.pop stop with freshItem := false, lastLineBlank := false } := by
      obtain ⟨frames, done, leaf, fresh, blank, task, targets, raw⟩ := state
      obtain rfl : frames = _ := hlist
      cases blank <;> rfl
    have hframes : (state.pop stop).frames = [] := by
      rw [frames_eq_nil_iff, kinds_pop, kinds, hlist]
      rfl
    rw [hfinish]
    exact ⟨hframes, (leaf_pop _ _).trans h.leaf, (inRawLine_pop _ _).trans h.raw,
      codes_pop _ _⟩

/-- An item goes on with the list if its mark is of the same kind, and starts a list otherwise. -/
theorem continueList (h : state.AtEdge) (marker : ListMarker) (stop : Nat) :
    ∃ tight number items,
      (state.continueList marker stop).frames = [.list tight marker.char number items] ∧
      (state.continueList marker stop).leaf = none ∧
      (state.continueList marker stop).inRawLine = false ∧
      (state.continueList marker stop).codes = state.codes := by
  obtain ⟨hframes, hleaf, hraw, hcodes⟩ := h.finishList stop
  have hpushed : ∀ finished : BlockState, finished.frames = [] →
      ({ finished.push (.list true marker.char marker.number []) with
        lastLineBlank := false } : BlockState).codes = finished.codes := by
    intro finished hnil
    simp [codes, push, hnil, Frame.codes, Block.codesIn]
  rcases h.frames with hnil | ⟨tight, char, number, items, hlist⟩
  · have hstart : state.continueList marker stop =
        { (state.finishList stop).push (.list true marker.char marker.number []) with
          lastLineBlank := false } := by
      obtain ⟨frames, done, leaf, fresh, blank, task, targets, raw⟩ := state
      obtain rfl : frames = [] := hnil
      cases blank <;> rfl
    rw [hstart]
    exact ⟨true, marker.number, [], by rw [push, hframes], hleaf, hraw,
      (hpushed _ hframes).trans hcodes⟩
  · by_cases hchar : char = marker.char
    · have hgo : state.continueList marker stop = { state with
          frames := [.list (tight && !state.lastLineBlank) char number items], freshItem := false
          lastLineBlank := false } := by
        obtain ⟨frames, done, leaf, fresh, blank, task, targets, raw⟩ := state
        obtain rfl : frames = _ := hlist
        unfold BlockState.continueList finishEmptyItem
        simp only
        rw [if_pos hchar]
        cases blank <;> simp
      rw [hgo]
      refine ⟨_, number, items, by rw [hchar], h.leaf, h.raw, ?_⟩
      rw [BlockState.codes, BlockState.codes, hlist]
      rfl
    · have hstart : state.continueList marker stop =
          { (state.finishList stop).push (.list true marker.char marker.number []) with
            lastLineBlank := false } := by
        obtain ⟨frames, done, leaf, fresh, blank, task, targets, raw⟩ := state
        obtain rfl : frames = _ := hlist
        unfold BlockState.continueList finishEmptyItem
        simp only
        rw [if_neg hchar]
        rfl
      rw [hstart]
      exact ⟨true, marker.number, [], by rw [push, hframes], hleaf, hraw,
        (hpushed _ hframes).trans hcodes⟩

/-- Whether a list is open there makes no difference to what is opened next. -/
theorem opens (h : state.AtEdge) (h' : state'.AtEdge) (hc : state.codes = state'.codes) :
    state.Opens state' := by
  refine ⟨fun stop stop' => ?_, fun marker stop stop' => ?_⟩
  · obtain ⟨hframes, hleaf, hraw, hcodes⟩ := h.finishList stop
    obtain ⟨hframes', hleaf', hraw', hcodes'⟩ := h'.finishList stop'
    refine ⟨?_, by rw [hcodes, hc, hcodes'], ?_, fun hne => absurd hframes hne,
      fun hne => absurd hframes hne, hraw.trans hraw'.symm⟩
    · rw [hframes, hframes']
      exact .nil
    · rw [hleaf, hleaf']
      exact .none
  · obtain ⟨tight, number, items, hframes, hleaf, hraw, hcodes⟩ := h.continueList marker stop
    obtain ⟨tight', number', items', hframes', hleaf', hraw', hcodes'⟩ := h'.continueList marker stop'
    refine ⟨?_, by rw [hcodes, hc, hcodes'], ?_, fun _ => by simp, fun _ => by simp,
      hraw.trans hraw'.symm⟩
    · rw [hframes, hframes']
      exact .cons (.list _ _ _ _ _ _ _) (fun hne => absurd rfl hne) .nil
    · rw [hleaf, hleaf']
      exact .none

end AtEdge

end BlockState

/-! ### Lines after the item -/

namespace BlockState

variable {state state' : BlockState} {line line' : Line} {cursor : Cursor}

theorem takeLine_of_none (hr : state.inRawLine = false) (hl : state.leaf = none) (tasks : Bool)
    {matched : Nat}
    (hm : Frame.continueAll (Cursor.ofLine line) state.frames.reverse = (matched, cursor)) :
    state.takeLine tasks line = state.takeFresh tasks line matched cursor := by
  unfold takeLine
  rw [hr, hl, hm]
  rfl

theorem takeLine_of_paragraph (hr : state.inRawLine = false) {lines : List TextLine}
    (hl : state.leaf = some (.paragraph lines)) (tasks : Bool) {matched : Nat}
    (hm : Frame.continueAll (Cursor.ofLine line) state.frames.reverse = (matched, cursor)) :
    state.takeLine tasks line = state.takeAfterParagraph tasks lines line matched cursor := by
  unfold takeLine
  rw [hr, hl, hm]
  rfl

namespace IsShallow

/-- A line that ends paragraphs leaves nothing open but the list, and is read there. -/
theorem takeLine_ending (h : state.IsShallow) (he : (Cursor.ofLine line).EndsParagraph)
    (hl : line.EndsTidily) (tasks : Bool) : state.takeLine tasks line =
      state.takeFresh tasks line (state.frames.length - 1) (Cursor.ofLine line) := by
  have hmatched := Frame.continueAll_of_indent h.frames he.indent he.text
  rcases h.leaf_cases with hleaf | ⟨lines, hleaf⟩
  · exact takeLine_of_none h.raw hleaf tasks hmatched
  · rw [takeLine_of_paragraph h.raw hleaf tasks hmatched]
    have hunderline (current : Bool) :
        (if ((Cursor.ofLine line).takeSpaces 4).1 ≠ 0 ∧ current = true then
          underlineLevel? ((Cursor.ofLine line).takeSpaces 4).2.rest else none) = none := by
      split
      · exact he.underline
      · rfl
    unfold takeAfterParagraph
    simp only [hunderline, Option.filter_none]
    rw [if_pos (.inr ⟨he.indent, interrupts_of_endsParagraph he hl _⟩)]

/-- Where nothing is open in the item, any line that is not indented is read after the item. -/
theorem takeLine_closed (h : state.IsShallow) (hl : state.leaf = none)
    (hu : (Cursor.ofLine line).IsUnindented) (tasks : Bool) : state.takeLine tasks line =
      state.takeFresh tasks line (state.frames.length - 1) (Cursor.ofLine line) :=
  takeLine_of_none h.raw hl tasks (Frame.continueAll_of_indent h.frames hu.indent hu.text)

/-- The end of the item and of the list leaves the states alike. -/
theorem alike_takeFresh (h : state.IsShallow) (h' : state'.IsShallow) (hc : state.codes = state'.codes)
    (hl : line.Same line') (hb : isBlankRest cursor.rest = false) (tasks : Bool) :
    (state.takeFresh tasks line (state.frames.length - 1) cursor).Alike
      (state'.takeFresh tasks line' (state'.frames.length - 1) cursor) := by
  obtain ⟨ended, hended, hedge, hcodes⟩ := h.takeFresh tasks line cursor
  obtain ⟨ended', hended', hedge', hcodes'⟩ := h'.takeFresh tasks line' cursor
  rw [hended, hended', hl.text]
  exact Alike.openContainers hl tasks (hedge.opens hedge' (by rw [hcodes, hc, hcodes'])) _ cursor
    (by simp [hb])

/-- Text after an item opens a paragraph outside of it if nothing is open in the item. -/
theorem takeLine_text_closed (h : state.IsShallow) (hl : state.leaf = none)
    (ht : (Cursor.ofLine line).AtText) (tasks : Bool) :
    (state.takeLine tasks line).frames = [] ∧
      (∃ first : TextLine, first.text = ((Cursor.ofLine line).takeSpaces 4).2.rest ∧
        (state.takeLine tasks line).leaf = some (.paragraph [first])) ∧
      (state.takeLine tasks line).inRawLine = false ∧
      (state.takeLine tasks line).codes = state.codes := by
  obtain ⟨ended, hended, hedge, hcodes⟩ := h.takeFresh tasks line (Cursor.ofLine line)
  obtain ⟨first, hfirst, hstart⟩ := startLeaf_atText ht ended line
  obtain ⟨hframes, -, hraw, hfinished⟩ := hedge.finishList line.start
  rw [h.takeLine_closed hl ht.isUnindented, hended, openContainers_atText ht, hstart]
  exact ⟨hframes, ⟨first, hfirst, rfl⟩, hraw, hfinished.trans hcodes⟩

theorem inText_takeLine (h : state.IsShallow) (hl : state.leaf = none)
    (ht : (Cursor.ofLine line).AtPlainText) (tasks : Bool) : (state.takeLine tasks line).InText := by
  obtain ⟨hframes, ⟨first, hfirst, hleaf⟩, hraw, -⟩ := h.takeLine_text_closed hl ht.toAtText tasks
  exact ⟨hframes, ⟨_, hleaf, ht.opensPlainly hfirst⟩, hraw⟩

/-- Text goes on with a paragraph, whether it is in an item or not, and opens one otherwise. -/
theorem takeLine_text (h : state.IsShallow) (ht : (Cursor.ofLine line).AtText) (tasks : Bool) :
    (state.takeLine tasks line).IsShallow ∧ (state.takeLine tasks line).leaf.isSome = true ∧
      (state.takeLine tasks line).codes = state.codes := by
  rcases h.leaf_cases with hleaf | ⟨lines, hleaf⟩
  · obtain ⟨hframes, ⟨first, -, hfirst⟩, hraw, hcodes⟩ := h.takeLine_text_closed hleaf ht tasks
    refine ⟨⟨?_, ?_, fun hitem => hitem.1 hframes, hraw⟩, ?_, hcodes⟩
    · rw [hframes]
      rfl
    · rw [hfirst]
      rfl
    · rw [hfirst]
      rfl
  · obtain ⟨added, htake⟩ := takeAfterParagraph_text (.inl ht) tasks state lines line
      (state.frames.length - 1)
    rw [takeLine_of_paragraph h.raw hleaf tasks
      (Frame.continueAll_of_indent h.frames ht.indent ht.atEnd_takeSpaces), htake]
    exact ⟨⟨h.frames, rfl, h.fresh, h.raw⟩, rfl, rfl⟩

/-- An empty line leaves nothing open in the item. -/
theorem takeBlankLine (h : state.IsShallow) (ht : line.text = []) (tasks : Bool) :
    (state.takeLine tasks line).IsShallow ∧ (state.takeLine tasks line).leaf = none ∧
      (state.takeLine tasks line).codes = state.codes := by
  have hcursor : Cursor.ofLine line = ⟨[], 0, 0, 0⟩ := by rw [Cursor.ofLine, ht]
  have hmatched := Frame.continueAll_of_atEnd h.frames 0 0
  rw [← hcursor] at hmatched
  obtain ⟨hclosed, hcodes⟩ := h.closeLeaf
  have hnone := leaf_closeLeaf state
  have hlength := length_frames_closeLeaf state
  have hfresh : state.takeFresh tasks line state.frames.length (Cursor.ofLine line) =
      state.closeLeaf.takeBlank := by
    unfold BlockState.takeFresh
    simp only [hlength, Nat.sub_self, hcursor]
    rfl
  have htake : state.takeLine tasks line = state.closeLeaf.takeBlank := by
    rw [← hfresh]
    rcases h.leaf_cases with hleaf | ⟨lines, hleaf⟩
    · exact takeLine_of_none h.raw hleaf tasks hmatched
    · rw [takeLine_of_paragraph h.raw hleaf tasks hmatched]
      have hunderline (current : Bool) : (if (Cursor.takeSpaces 4 ⟨[], 0, 0, 0⟩).1 ≠ 0 ∧ current = true
          then underlineLevel? (Cursor.takeSpaces 4 ⟨[], 0, 0, 0⟩).2.rest else none) = none := by
        cases current <;> rfl
      unfold takeAfterParagraph
      rw [hcursor]
      simp only [hunderline, Option.filter_none]
      rfl
  rw [htake, ← hcodes]
  have hfreshItem := hclosed.fresh
  have hraw := hclosed.raw
  rcases Frame.areShallow_cases hclosed.frames with
    hnil | ⟨indent, task, done, tight, char, number, items, hle, hitem⟩
  · rw [takeBlank_of_frames hnil]
    exact ⟨⟨hclosed.frames, hclosed.leaf, fun hempty => hempty.1 hnil, hraw⟩, hnone, rfl⟩
  · have hshallow := hclosed.frames
    generalize state.closeLeaf = closed at hitem hnone hfreshItem hraw hshallow ⊢
    obtain ⟨frames, done', leaf, fresh, blank, nextTask, targets, raw⟩ := closed
    obtain rfl : frames = _ := hitem
    obtain rfl : leaf = none := hnone
    obtain rfl : fresh = false := Bool.eq_false_iff.2 fun hfresh => hfreshItem ⟨by simp, hfresh⟩
    exact ⟨⟨hshallow, rfl, hfreshItem, hraw⟩, rfl, rfl⟩

end IsShallow

/-! ### Items -/

/-- An item that interrupts a paragraph is opened in a list outside of other containers. -/
theorem IsShallow.takeLine_item (h : state.IsShallow) (ho : (Cursor.ofLine line).OpensItem)
    (hl : line.EndsTidily) (tasks : Bool) :
    (state.takeLine tasks line).IsShallow ∧ (state.takeLine tasks line).leaf.isSome = true ∧
      (state.takeLine tasks line).codes = state.codes := by
  obtain ⟨ended, hended, hedge, hcodes⟩ := h.takeFresh tasks line (Cursor.ofLine line)
  have hitem := ho.item
  have hindent := ho.ends.indent
  rw [h.takeLine_ending ho.ends hl, hended, ← hcodes, openContainers]
  simp only [hindent, if_false]
  split
  · next marker after hmarker =>
      rw [hmarker, Option.any_some, Bool.and_eq_true, decide_eq_true_eq, Option.isNone_iff_eq_none]
        at hitem
      obtain ⟨⟨hle, ht⟩, htask⟩ := hitem
      obtain ⟨tight, number, items, hframes, hleaf, hraw, hcontinued⟩ :=
        hedge.continueList marker line.start
      have hfresh : (ended.continueList marker line.start).freshItem = false := by simp
      have hblank : (ended.continueList marker line.start).lastLineBlank = false := by simp
      rw [← hcontinued]
      simp only [ht.isBlankRest, Cursor.taskMark_eq_none htask, ite_self]
      generalize ended.continueList marker line.start = listed at hframes hleaf hraw hfresh hblank ⊢
      obtain ⟨first, -, hstart⟩ := startLeaf_atText ht (listed.push (.item marker.indent none [])) line
      obtain ⟨frames, done, leaf, fresh, blank, nextTask, targets, raw⟩ := listed
      obtain rfl : frames = _ := hframes
      obtain rfl : fresh = false := hfresh
      obtain rfl : blank = false := hblank
      simp only [Bool.false_eq_true, if_false]
      rw [openContainers_atText ht, hstart]
      refine ⟨⟨decide_eq_true hle, rfl, ?_, hraw⟩, rfl, ?_⟩
      · rintro ⟨-, hfresh⟩
        cases hfresh
      · simp [codes, push, finishList, finishEmptyItem, Frame.codes, Block.codesIn]
  · next hnone =>
      rw [hnone] at hitem
      cases hitem

/-! ### Two shallow states -/

namespace ShallowAlike

/-- States that are alike and shallow have a paragraph open in both or in none. -/
theorem of_alike (h : state.IsShallow) (ha : state.Alike state') : state.ShallowAlike state' := by
  have hframes := ha.frames
  have hleaf := ha.leaf
  refine ⟨h, ⟨?_, ?_, ?_, ha.raw.symm.trans h.raw⟩, ?_, ha.codes⟩
  · rcases Frame.areShallow_cases h.frames with hnil | ⟨_, _, _, _, _, _, _, hle, hitem⟩
    · rw [hnil] at hframes
      generalize state'.frames = frames' at hframes
      cases hframes
      rfl
    · rw [hitem] at hframes
      generalize state'.frames = frames' at hframes
      cases hframes with
      | cons hinner _ hmore =>
          cases hinner
          cases hmore with
          | cons houter _ hnone =>
              cases houter
              cases hnone
              exact decide_eq_true hle
  · have hall := h.leaf
    generalize state.leaf = leaf at hleaf hall
    generalize state'.leaf = leaf' at hleaf
    cases hleaf with
    | none => rfl
    | some hopened =>
        cases hopened with
        | paragraph => rfl
        | fenced | indented | html => cases hall
  · rintro ⟨hne, hfresh⟩
    have hlength := Frame.length_of_framesAlike hframes
    have hne' : state.frames ≠ [] := by
      rwa [← List.length_pos_iff, hlength, List.length_pos_iff]
    exact h.fresh ⟨hne', (ha.fresh hne').trans hfresh⟩
  · generalize state.leaf = leaf at hleaf
    generalize state'.leaf = leaf' at hleaf
    cases hleaf <;> rfl

/-- Where no paragraph is open in one of the states, nothing is open in either. -/
theorem leaf_eq_none (h : state.ShallowAlike state') (hl : state.leaf.isSome = false) :
    state.leaf = none ∧ state'.leaf = none := by
  have hl' := h.leaf.symm.trans hl
  rw [Option.isSome_eq_false_iff, Option.isNone_iff_eq_none] at hl hl'
  exact ⟨hl, hl'⟩

theorem takeBlankLine (h : state.ShallowAlike state') (ht : line.text = []) (ht' : line'.text = [])
    (tasks : Bool) : (state.takeLine tasks line).ShallowAlike (state'.takeLine tasks line') ∧
      (state.takeLine tasks line).leaf = none := by
  obtain ⟨hshallow, hleaf, hcodes⟩ := h.left.takeBlankLine ht tasks
  obtain ⟨hshallow', hleaf', hcodes'⟩ := h.right.takeBlankLine ht' tasks
  exact ⟨⟨hshallow, hshallow', by rw [hleaf, hleaf'], by rw [hcodes, hcodes', h.codes]⟩, hleaf⟩

theorem takeLine_text (h : state.ShallowAlike state') (ht : (Cursor.ofLine line).AtText)
    (ht' : (Cursor.ofLine line').AtText) (tasks : Bool) :
    (state.takeLine tasks line).ShallowAlike (state'.takeLine tasks line') ∧
      (state.takeLine tasks line).leaf.isSome = true := by
  obtain ⟨hshallow, hleaf, hcodes⟩ := h.left.takeLine_text ht tasks
  obtain ⟨hshallow', hleaf', hcodes'⟩ := h.right.takeLine_text ht' tasks
  exact ⟨⟨hshallow, hshallow', by rw [hleaf, hleaf'], by rw [hcodes, hcodes', h.codes]⟩, hleaf⟩

/-- The items end at a line that ends paragraphs, and where no paragraph is open at any line that is not
indented. -/
theorem takeLine (h : state.ShallowAlike state') (hs : line.Same line') (hl : line.EndsTidily)
    (hl' : line'.EndsTidily) (he : (Cursor.ofLine line).EndsParagraph ∨
      (state.leaf.isSome = false ∧ (Cursor.ofLine line).IsUnindented)) (tasks : Bool) :
    (state.takeLine tasks line).Alike (state'.takeLine tasks line') := by
  have hcursor := hs.cursor
  rcases he with he | ⟨hclosed, hunindented⟩
  · rw [h.left.takeLine_ending he hl, h.right.takeLine_ending (hcursor ▸ he) hl', ← hcursor]
    exact h.left.alike_takeFresh h.right h.codes hs he.blank tasks
  · obtain ⟨hnone, hnone'⟩ := h.leaf_eq_none hclosed
    rw [h.left.takeLine_closed hnone hunindented,
      h.right.takeLine_closed hnone' (hcursor ▸ hunindented), ← hcursor]
    exact h.left.alike_takeFresh h.right h.codes hs hunindented.blank tasks

end ShallowAlike

end BlockState

end DefinitionLists.Markdown
