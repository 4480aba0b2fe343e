/-
Module: DefinitionLists.Proofs.Markdown.Alike
Purpose: Two documents are read in step while the same containers and the same kind of block are open in
  both. What was read before has no part in it, the code apart.
Main exports: Frame.Alike, OpenLeaf.Alike, BlockState.Alike, BlockState.Opens,
  BlockState.Alike.openContainers, BlockState.Alike.takeLine
-/
import Mathlib.Data.List.Forall2
import Mathlib.Data.Option.Basic
import DefinitionLists.Proofs.Markdown.Codes
import DefinitionLists.Proofs.Markdown.Containers
import DefinitionLists.Proofs.Markdown.Interruptions

namespace DefinitionLists.Markdown

open Text (trimEndWhile)

/-! ### Blank lines before blocks -/

namespace BlockState

@[simp] theorem lastLineBlank_finishList (state : BlockState) (stop : Nat) :
    (state.finishList stop).lastLineBlank = false := by
  unfold finishList
  simp only
  split <;> split
  · rfl
  · next hblank => exact Bool.eq_false_iff.2 hblank
  · rfl
  · next hblank => exact Bool.eq_false_iff.2 hblank

@[simp] theorem lastLineBlank_continueList (state : BlockState) (marker : ListMarker) (stop : Nat) :
    (state.continueList marker stop).lastLineBlank = false := by
  unfold continueList
  simp only
  split
  · split
    · split
      · rfl
      · next hblank => exact Bool.eq_false_iff.2 hblank
    · rfl
  · rfl

end BlockState

/-! ### What is open -/

/-- Whether lines of paragraphs hold the same, wherever they stand. -/
structure TextLine.Same (line line' : TextLine) : Prop where
  margin : line.margin = line'.margin
  lead : line.lead = line'.lead
  text : line.text = line'.text
  ending : line.ending = line'.ending

/-- Whether containers are of the same kind and take the same lines. -/
inductive Frame.Alike : Frame → Frame → Prop
  | quote (start start' : Nat) (done done' : List Block) : Alike (.quote start done) (.quote start' done')
  | list (tight tight' : Bool) (char : Char) (number number' : Nat) (done done' : List Block) :
      Alike (.list tight char number done) (.list tight' char number' done')
  | item (indent : Nat) (task task' : Option Bool) (done done' : List Block) :
      Alike (.item indent task done) (.item indent task' done')

/-- Whether open containers, given from the innermost one, take the same lines. Whether the outermost one
is tight counts for nothing, for no item is around it. -/
inductive FramesAlike : List Frame → List Frame → Prop
  | nil : FramesAlike [] []
  | cons {frame frame' : Frame} {outer outer' : List Frame} (h : frame.Alike frame')
      (tight : outer ≠ [] → frame.isTightList = frame'.isTightList) (more : FramesAlike outer outer') :
      FramesAlike (frame :: outer) (frame' :: outer')

/-- Whether a paragraph, given the last line first, opens with something else than a bracket. There are
no definitions of labels in it then. -/
def opensPlainly (lines : List TextLine) : Bool :=
  lines.getLast?.any fun first => (trimEndWhile isInlineSpace first.text).head? != some '['

/-- Whether the lines of two paragraphs, given the last one first, are the same as far as definitions of
labels go. -/
def LinesAlike (lines lines' : List TextLine) : Prop :=
  (opensPlainly lines = true ∧ opensPlainly lines' = true) ∨ List.Forall₂ TextLine.Same lines lines'

/-- Whether blocks that are open take the same lines, and become the same code if they are code. -/
inductive OpenLeaf.Alike : OpenLeaf → OpenLeaf → Prop
  | paragraph {lines lines' : List TextLine} (h : LinesAlike lines lines') :
      Alike (.paragraph lines) (.paragraph lines')
  | fenced (fence : Fence) (indent : Nat) (info : List Char) (lines : List (List Char)) :
      Alike (.fenced fence indent info lines) (.fenced fence indent info lines)
  | indented (lines : List (List Char × Bool)) : Alike (.indented lines) (.indented lines)
  | html (ending : HtmlEnd) (lines lines' : List (List Char)) :
      Alike (.html ending lines) (.html ending lines')

/-- Whether the code that was read and all that is open agree. What is known of items and blank lines
counts for nothing outside of containers. -/
structure BlockState.Alike (state state' : BlockState) : Prop where
  frames : FramesAlike state.frames state'.frames
  codes : state.codes = state'.codes
  leaf : Option.Rel OpenLeaf.Alike state.leaf state'.leaf
  fresh : state.frames ≠ [] → state.freshItem = state'.freshItem
  blank : state.frames ≠ [] → state.lastLineBlank = state'.lastLineBlank
  raw : state.inRawLine = state'.inRawLine

/-- Whether states are alike when a block was opened that is no item of an open list, and when an item
was. An empty line opens nothing. -/
structure BlockState.Opens (state state' : BlockState) : Prop where
  block : ∀ stop stop', (state.finishList stop).Alike (state'.finishList stop')
  item : ∀ marker stop stop', (state.continueList marker stop).Alike (state'.continueList marker stop')

/-! ### Paragraphs -/

theorem TextLine.Same.refl (line : TextLine) : line.Same line := ⟨rfl, rfl, rfl, rfl⟩

theorem TextLine.Same.symm {line line' : TextLine} (h : line.Same line') : line'.Same line :=
  ⟨h.margin.symm, h.lead.symm, h.text.symm, h.ending.symm⟩

theorem LinesAlike.refl (lines : List TextLine) : LinesAlike lines lines :=
  .inr (List.forall₂_same.2 fun line _ => .refl line)

theorem LinesAlike.symm {lines lines' : List TextLine} (h : LinesAlike lines lines') :
    LinesAlike lines' lines :=
  h.imp And.symm fun hsame => List.Forall₂.flip (hsame.imp fun _ _ => TextLine.Same.symm)

theorem OpenLeaf.Alike.refl (leaf : OpenLeaf) : leaf.Alike leaf := by
  cases leaf with
  | paragraph lines => exact .paragraph (.refl lines)
  | fenced | indented | html => constructor

theorem OpenLeaf.Alike.symm {leaf leaf' : OpenLeaf} (h : leaf.Alike leaf') : leaf'.Alike leaf := by
  cases h with
  | paragraph hlines => exact .paragraph hlines.symm
  | fenced | indented | html => constructor

/-- A paragraph that opens with something else than a bracket defines no label. -/
theorem leadingDefinitions_of_head {symbols : List Symbol} (h : symbols.head? ≠ some (.char '['))
    (bound : Nat) : leadingDefinitions bound symbols = ([], symbols) := by
  cases bound with
  | zero => rfl
  | succ bound =>
      have hnone : definition? symbols = none := by
        unfold definition?
        split
        · exact absurd rfl h
        · rfl
      rw [leadingDefinitions, hnone]

theorem head_ofLines (first : TextLine) (more : List TextLine)
    (h : (trimEndWhile isInlineSpace first.text).head? ≠ some '[') :
    (Symbol.ofLines (first :: more)).head? ≠ some (.char '[') := by
  cases more with
  | nil => simpa [Symbol.ofLines, Symbol.ofChars] using h
  | cons next more =>
      simp only [Symbol.ofLines, Symbol.ofChars]
      cases htext : trimEndWhile isInlineSpace first.text with
      | nil => simp
      | cons c rest => simpa [htext] using h

/-- A paragraph that opens plainly has text. -/
theorem splitDefinitions_of_opensPlainly {lines : List TextLine} (h : opensPlainly lines = true) :
    (splitDefinitions lines.reverse).2.isEmpty = false := by
  unfold opensPlainly at h
  rw [← List.head?_reverse] at h
  cases hreverse : lines.reverse with
  | nil => simp [hreverse] at h
  | cons first more =>
      rw [hreverse] at h
      have hhead := head_ofLines first more (by simpa using h)
      simp [splitDefinitions, leadingDefinitions_of_head hhead]

theorem Symbol.ofLines_same {lines lines' : List TextLine} (h : List.Forall₂ TextLine.Same lines lines') :
    Symbol.ofLines lines = Symbol.ofLines lines' := by
  induction h with
  | nil => rfl
  | @cons line line' more more' hline hmore ih =>
      cases hmore with
      | nil => simp only [Symbol.ofLines, hline.text]
      | @cons next next' rest rest' hnext hrest =>
          simp only [Symbol.ofLines, hline.text, hline.ending, hnext.margin, hnext.lead] at ih ⊢
          rw [ih]

/-- Whether a paragraph has text besides definitions of labels is the same for lines that are alike. -/
theorem LinesAlike.splitDefinitions {lines lines' : List TextLine} (h : LinesAlike lines lines') :
    (Markdown.splitDefinitions lines.reverse).2.isEmpty =
      (Markdown.splitDefinitions lines'.reverse).2.isEmpty := by
  rcases h with ⟨hplain, hplain'⟩ | hsame
  · rw [splitDefinitions_of_opensPlainly hplain, splitDefinitions_of_opensPlainly hplain']
  · have hreverse := List.rel_reverse hsame
    have hsymbols := Symbol.ofLines_same hreverse
    have hlength := hreverse.length_eq
    have hempty {first second : List TextLine} (hs : List.Forall₂ TextLine.Same first second) :
        first.isEmpty = second.isEmpty := by
      cases hs <;> rfl
    simp only [Markdown.splitDefinitions, hsymbols, hlength]
    split
    · exact hempty hreverse
    · exact hempty (List.forall₂_drop _ hreverse)

/-- A line that comes after the first one does not change how a paragraph opens. -/
theorem opensPlainly_cons {lines : List TextLine} (h : opensPlainly lines = true) (line : TextLine) :
    opensPlainly (line :: lines) = true := by
  cases lines with
  | nil => cases h
  | cons next more => rwa [opensPlainly, List.getLast?_cons_cons]

/-- Alike paragraphs stay alike with one more line. -/
theorem LinesAlike.cons {lines lines' : List TextLine} (h : LinesAlike lines lines')
    {line line' : TextLine} (hl : line.Same line') : LinesAlike (line :: lines) (line' :: lines') := by
  rcases h with ⟨hplain, hplain'⟩ | hsame
  · exact .inl ⟨opensPlainly_cons hplain line, opensPlainly_cons hplain' line'⟩
  · exact .inr (.cons hl hsame)

/-! ### Containers -/

namespace Frame

theorem Alike.refl (frame : Frame) : frame.Alike frame := by
  cases frame <;> constructor

theorem Alike.symm {frame frame' : Frame} (h : frame.Alike frame') : frame'.Alike frame := by
  cases h <;> constructor

theorem Alike.add {frame frame' : Frame} (h : frame.Alike frame') (block block' : Block) :
    (frame.add block).Alike (frame'.add block') := by
  cases h <;> constructor

theorem Alike.add_left {frame frame' : Frame} (h : frame.Alike frame') (block : Block) :
    (frame.add block).Alike frame' := by
  cases h <;> constructor

theorem Alike.loosen {frame frame' : Frame} (h : frame.Alike frame') :
    frame.loosen.Alike frame'.loosen := by
  cases h <;> constructor

@[simp] theorem isTightList_add (block : Block) (frame : Frame) :
    (frame.add block).isTightList = frame.isTightList := by
  cases frame <;> rfl

@[simp] theorem isTightList_loosen (frame : Frame) : frame.loosen.isTightList = false := by
  cases frame <;> rfl

theorem forall₂_of_framesAlike {frames frames' : List Frame} (h : FramesAlike frames frames') :
    List.Forall₂ Alike frames frames' := by
  induction h with
  | nil => exact .nil
  | cons hframe _ _ ih => exact .cons hframe ih

theorem length_of_framesAlike {frames frames' : List Frame} (h : FramesAlike frames frames') :
    frames.length = frames'.length :=
  (forall₂_of_framesAlike h).length_eq

/-- Alike containers go on with the same lines. -/
theorem continueAll_of_alike {frames frames' : List Frame} (h : List.Forall₂ Alike frames frames')
    (cursor : Cursor) : continueAll cursor frames = continueAll cursor frames' := by
  induction h generalizing cursor with
  | nil => rfl
  | @cons frame frame' more more' hframe hmore ih =>
      have hcontinue : frame.continue? cursor = frame'.continue? cursor := by
        cases hframe <;> rfl
      simp only [continueAll, hcontinue, ih]

end Frame

theorem FramesAlike.refl (frames : List Frame) : FramesAlike frames frames := by
  induction frames with
  | nil => exact .nil
  | cons frame more ih => exact .cons (.refl frame) (fun _ => rfl) ih

theorem FramesAlike.symm {frames frames' : List Frame} (h : FramesAlike frames frames') :
    FramesAlike frames' frames := by
  induction h with
  | nil => exact .nil
  | cons hframe htight hmore ih =>
      refine .cons hframe.symm (fun hne => (htight ?_).symm) ih
      rintro rfl
      cases hmore
      exact hne rfl

namespace BlockState

namespace Alike

variable {state state' : BlockState}

theorem refl (state : BlockState) : state.Alike state := by
  refine ⟨.refl state.frames, rfl, ?_, fun _ => rfl, fun _ => rfl, rfl⟩
  cases state.leaf with
  | none => exact .none
  | some leaf => exact .some (.refl leaf)

theorem symm (h : state.Alike state') : state'.Alike state := by
  have hframes : state'.frames ≠ [] → state.frames ≠ [] := by
    intro hne hnil
    have hlength := Frame.length_of_framesAlike h.frames
    rw [hnil] at hlength
    exact hne (List.length_eq_zero_iff.1 hlength.symm)
  have hleaf : Option.Rel OpenLeaf.Alike state'.leaf state.leaf := by
    have hleaf := h.leaf
    generalize state.leaf = leaf, state'.leaf = leaf' at hleaf ⊢
    cases hleaf with
    | none => exact .none
    | some hsame => exact .some hsame.symm
  exact ⟨h.frames.symm, h.codes.symm, hleaf, fun hne => (h.fresh (hframes hne)).symm,
    fun hne => (h.blank (hframes hne)).symm, h.raw.symm⟩

/-- A block that is added goes to containers of the same kind, as the same code. -/
theorem add (h : state.Alike state') {block block' : Block} (hb : block.codes = block'.codes) :
    (state.add block).Alike (state'.add block') := by
  have hcodes : (state.add block).codes = (state'.add block').codes := by
    rw [codes_add, codes_add, h.codes, hb]
  obtain ⟨frames, done, leaf, fresh, blank, task, targets, raw⟩ := state
  obtain ⟨frames', done', leaf', fresh', blank', task', targets', raw'⟩ := state'
  cases h.frames with
  | nil => exact ⟨.nil, hcodes, h.leaf, h.fresh, h.blank, h.raw⟩
  | cons hframe htight hmore =>
      exact ⟨.cons (hframe.add block block') (by simpa using htight) hmore, hcodes, h.leaf,
        fun _ => h.fresh (by simp),
        fun _ => h.blank (by simp), h.raw⟩

theorem pop (h : state.Alike state') (stop stop' : Nat) : (state.pop stop).Alike (state'.pop stop') := by
  have hcodes : (state.pop stop).codes = (state'.pop stop').codes := by
    rw [codes_pop, codes_pop, h.codes]
  obtain ⟨frames, done, leaf, fresh, blank, task, targets, raw⟩ := state
  obtain ⟨frames', done', leaf', fresh', blank', task', targets', raw'⟩ := state'
  cases h.frames with
  | nil => exact ⟨.nil, hcodes, h.leaf, h.fresh, h.blank, h.raw⟩
  | @cons frame frame' _ _ hframe htight hmore =>
      have hblank : blank = blank' := h.blank (by simp)
      cases hmore with
      | nil =>
          have hnone {fresh fresh' : Bool} : ([] : List Frame) ≠ [] → fresh = fresh' :=
            fun hne => absurd rfl hne
          exact ⟨.nil, hcodes, h.leaf, hnone, fun _ => hblank, h.raw⟩
      | cons houter htightOuter hmore =>
          have hfresh : (fresh && !frame.isTightList) = (fresh' && !frame'.isTightList) :=
            congrArg₂ (fun fresh tight => fresh && !tight) (h.fresh (by simp)) (htight (by simp))
          exact ⟨.cons (houter.add _ _) (by simpa using htightOuter) hmore, hcodes, h.leaf,
            fun _ => hfresh, fun _ => hblank, h.raw⟩

theorem popMany (h : state.Alike state') (stop stop' count : Nat) :
    (BlockState.popMany stop count state).Alike (BlockState.popMany stop' count state') := by
  induction count generalizing state state' with
  | zero => exact h
  | succ count ih => exact ih (h.pop stop stop')

theorem push (h : state.Alike state') {frame frame' : Frame} (hf : frame.Alike frame')
    (ht : frame.isTightList = frame'.isTightList) (hn : frame.codes = []) (hn' : frame'.codes = [])
    (hfresh : state.freshItem = state'.freshItem) (hblank : state.lastLineBlank = state'.lastLineBlank) :
    (state.push frame).Alike (state'.push frame') := by
  have hcodes {state : BlockState} {frame : Frame} (hn : frame.codes = []) :
      (state.push frame).codes = state.codes := by
    show Block.codesIn state.done.reverse ++
      (frame.codes :: state.frames.map Frame.codes).reverse.flatten = state.codes
    simp [BlockState.codes, hn]
  exact ⟨.cons hf (fun _ => ht) h.frames, by rw [hcodes hn, hcodes hn', h.codes], h.leaf, fun _ => hfresh,
    fun _ => hblank, h.raw⟩

theorem finishEmptyItem (h : state.Alike state') (stop stop' : Nat) :
    (state.finishEmptyItem stop).Alike (state'.finishEmptyItem stop') := by
  have hpop := h.pop stop stop'
  obtain ⟨frames, done, leaf, fresh, blank, task, targets, raw⟩ := state
  obtain ⟨frames', done', leaf', fresh', blank', task', targets', raw'⟩ := state'
  cases h.frames with
  | nil => exact ⟨.nil, h.codes, h.leaf, fun _ => rfl, h.blank, h.raw⟩
  | cons hframe hmore =>
      obtain rfl : fresh = fresh' := h.fresh (by simp)
      obtain rfl : blank = blank' := h.blank (by simp)
      cases hframe with
      | quote => exact ⟨h.frames, h.codes, h.leaf, fun _ => rfl, fun _ => rfl, h.raw⟩
      | list => exact ⟨h.frames, h.codes, h.leaf, fun _ => rfl, fun _ => rfl, h.raw⟩
      | item =>
          unfold BlockState.finishEmptyItem
          simp only
          cases fresh && blank with
          | false => exact ⟨h.frames, h.codes, h.leaf, fun _ => rfl, fun _ => rfl, h.raw⟩
          | true => exact ⟨hpop.frames, hpop.codes, hpop.leaf, fun _ => rfl, hpop.blank, hpop.raw⟩

/-- A blank line before the block is known of in both states, unless no container is open: then it
counts for nothing. -/
theorem loosen (h : state.Alike state') : BlockState.Alike
    (if state.lastLineBlank then
      { state with
        frames := match state.frames with
          | frame :: outer :: more => frame :: outer.loosen :: more
          | frames => frames
        lastLineBlank := false }
    else state)
    (if state'.lastLineBlank then
      { state' with
        frames := match state'.frames with
          | frame :: outer :: more => frame :: outer.loosen :: more
          | frames => frames
        lastLineBlank := false }
    else state') := by
  obtain ⟨frames, done, leaf, fresh, blank, task, targets, raw⟩ := state
  obtain ⟨frames', done', leaf', fresh', blank', task', targets', raw'⟩ := state'
  cases h.frames with
  | nil =>
      have hnone {fresh blank : Bool} : ([] : List Frame) ≠ [] → fresh = blank :=
        fun hne => absurd rfl hne
      -- without containers nothing becomes loose, whether a blank line came or not
      cases blank <;> cases blank' <;> exact ⟨.nil, h.codes, h.leaf, hnone, hnone, h.raw⟩
  | cons hframe htight hmore =>
      obtain rfl : blank = blank' := h.blank (by simp)
      have hfresh : fresh = fresh' := h.fresh (by simp)
      cases blank with
      | false => exact h
      | true =>
          cases hmore with
          | nil => exact ⟨h.frames, h.codes, h.leaf, fun _ => hfresh, fun _ => rfl, h.raw⟩
          | @cons outer outer' _ _ houter _ hmore =>
              have hcodes (frame : Frame) : frame.loosen.codes = frame.codes := by
                cases frame <;> rfl
              refine ⟨.cons hframe (fun _ => htight (by simp)) (.cons houter.loosen (by simp) hmore), ?_,
                h.leaf, fun _ => hfresh, fun _ => rfl, h.raw⟩
              have hold := h.codes
              simp only [BlockState.codes, List.map_cons] at hold
              simp only [BlockState.codes, if_true, List.map_cons, hcodes]
              exact hold

theorem finishList (h : state.Alike state') (stop stop' : Nat) :
    (state.finishList stop).Alike (state'.finishList stop') := by
  have hfinished := h.finishEmptyItem stop stop'
  unfold BlockState.finishList
  simp only
  generalize state.finishEmptyItem stop = finished at hfinished ⊢
  generalize state'.finishEmptyItem stop' = finished' at hfinished ⊢
  apply loosen
  have hpop := hfinished.pop stop stop'
  obtain ⟨frames, done, leaf, fresh, blank, task, targets, raw⟩ := finished
  obtain ⟨frames', done', leaf', fresh', blank', task', targets', raw'⟩ := finished'
  cases hfinished.frames with
  | nil => exact hfinished
  | cons hframe hmore =>
      cases hframe with
      | quote => exact hfinished
      | list => exact hpop
      | item => exact hfinished

/-- The innermost containers are of the same kind, so that the item goes on with a list in both states
or starts one in both. -/
theorem continueList (h : state.Alike state') (marker : ListMarker) (stop stop' : Nat) :
    (state.continueList marker stop).Alike (state'.continueList marker stop') := by
  have hfinished := h.finishEmptyItem stop stop'
  unfold BlockState.continueList
  simp only
  generalize state.finishEmptyItem stop = finished at hfinished ⊢
  generalize state'.finishEmptyItem stop' = finished' at hfinished ⊢
  have hpushed := (hfinished.finishList stop stop').push
    (.list true true marker.char marker.number marker.number [] []) rfl rfl rfl (by simp) (by simp)
  have hstart : BlockState.Alike
      { (finished.finishList stop).push (.list true marker.char marker.number []) with
        lastLineBlank := false }
      { (finished'.finishList stop').push (.list true marker.char marker.number []) with
        lastLineBlank := false } :=
    ⟨hpushed.frames, hpushed.codes, hpushed.leaf, hpushed.fresh, fun _ => rfl, hpushed.raw⟩
  obtain ⟨frames, done, leaf, fresh, blank, task, targets, raw⟩ := finished
  obtain ⟨frames', done', leaf', fresh', blank', task', targets', raw'⟩ := finished'
  cases hfinished.frames with
  | nil => exact hstart
  | cons hframe htight hmore =>
      obtain rfl : blank = blank' := hfinished.blank (by simp)
      -- only a list can go on
      cases hframe with
      | quote => exact hstart
      | item => exact hstart
      | list tight tight' char number number' done done' =>
          have hlist : Frame.Alike (.list false char number done) (.list false char number' done') :=
            .list _ _ _ _ _ _ _
          simp only
          split
          · cases blank with
            | false => exact hfinished
            | true =>
                exact ⟨.cons hlist (fun _ => rfl) hmore, hfinished.codes, hfinished.leaf,
                  fun _ => hfinished.fresh (by simp), fun _ => rfl, hfinished.raw⟩
          · exact hstart

theorem takeBlank (h : state.Alike state') : state.takeBlank.Alike state'.takeBlank := by
  obtain ⟨frames, done, leaf, fresh, blank, task, targets, raw⟩ := state
  obtain ⟨frames', done', leaf', fresh', blank', task', targets', raw'⟩ := state'
  cases h.frames with
  | nil => exact ⟨.nil, h.codes, h.leaf, h.fresh, fun _ => rfl, h.raw⟩
  | cons hframe htight hmore =>
      obtain rfl : fresh = fresh' := h.fresh (by simp)
      cases hframe with
      | quote => exact h
      | list => exact ⟨h.frames, h.codes, h.leaf, fun _ => rfl, fun _ => rfl, h.raw⟩
      | item =>
          exact ⟨.cons (.item _ _ _ _ _) (fun _ => rfl) hmore, h.codes, h.leaf, fun _ => rfl,
            fun _ => rfl, h.raw⟩

theorem opens (h : state.Alike state') : state.Opens state' :=
  ⟨h.finishList, h.continueList⟩

/-- A block that holds no code may be missing on one side. -/
theorem add_left (h : state.Alike state') {block : Block} (hb : block.codes = []) :
    (state.add block).Alike state' := by
  have hcodes : (state.add block).codes = state'.codes := by
    rw [codes_add, hb, List.append_nil, h.codes]
  obtain ⟨frames, done, leaf, fresh, blank, task, targets, raw⟩ := state
  obtain ⟨frames', done', leaf', fresh', blank', task', targets', raw'⟩ := state'
  cases h.frames with
  | nil => exact ⟨.nil, hcodes, h.leaf, h.fresh, h.blank, h.raw⟩
  | cons hframe htight hmore =>
      exact ⟨.cons (hframe.add_left block) (by simpa using htight) hmore, hcodes, h.leaf,
        fun _ => h.fresh (by simp), fun _ => h.blank (by simp), h.raw⟩

/-- Paragraphs are no code, so that it does not matter which are done. -/
theorem addParagraph_left (h : state.Alike state') (lines : List TextLine) (heading : Option Nat) :
    (state.addParagraph lines heading).Alike state' := by
  unfold BlockState.addParagraph
  simp only
  split
  · apply add_left
    · exact ⟨h.frames, h.codes, h.leaf, h.fresh, h.blank, h.raw⟩
    · cases heading <;> rfl
  · exact ⟨h.frames, h.codes, h.leaf, h.fresh, h.blank, h.raw⟩

theorem addParagraph_right (h : state.Alike state') (lines : List TextLine) (heading : Option Nat) :
    state.Alike (state'.addParagraph lines heading) :=
  (h.symm.addParagraph_left lines heading).symm

theorem closeLeaf (h : state.Alike state') : state.closeLeaf.Alike state'.closeLeaf := by
  have hclosed : BlockState.Alike { state with leaf := none } { state' with leaf := none } :=
    ⟨h.frames, h.codes, .none, h.fresh, h.blank, h.raw⟩
  obtain ⟨frames, done, leaf, fresh, blank, task, targets, raw⟩ := state
  obtain ⟨frames', done', leaf', fresh', blank', task', targets', raw'⟩ := state'
  cases h.leaf with
  | none => exact hclosed
  | some hleaf =>
      cases hleaf with
      | paragraph => exact (hclosed.addParagraph_left _ none).addParagraph_right _ none
      | fenced => exact hclosed.add rfl
      | indented => exact hclosed.add rfl
      | html => exact hclosed.add rfl

/-! ### Lines -/

section Lines

variable {line line' : Line} (hl : line.Same line')

include hl

/-- The rest of the line opens the same kind of block in both states, and code of the same text. -/
theorem startLeaf (ho : state.Opens state') (cursor : Cursor)
    (hb : isBlankRest cursor.rest = true → state.takeBlank.Alike state'.takeBlank) :
    (state.startLeaf line cursor).Alike (state'.startLeaf line' cursor) := by
  have hfinished := ho.block line.start line'.start
  unfold BlockState.startLeaf
  simp only [hl.rawLine_eq, hl.raw, hl.endsInCarriageReturn]
  split
  · next hblank => exact hb hblank
  · split
    · exact ⟨hfinished.frames, hfinished.codes, .some (.indented _), hfinished.fresh, fun _ => rfl, rfl⟩
    · split
      · next ending _ =>
          have hopened : BlockState.Alike
              { state.finishList line.start with
                leaf := some (.html ending [rawLine line' (4 - (cursor.takeSpaces 4).1)
                  (cursor.takeSpaces 4).2.rest])
                inRawLine := line'.endsInCarriageReturn }
              { state'.finishList line'.start with
                leaf := some (.html ending [rawLine line' (4 - (cursor.takeSpaces 4).1)
                  (cursor.takeSpaces 4).2.rest])
                inRawLine := line'.endsInCarriageReturn } :=
            ⟨hfinished.frames, hfinished.codes, .some (.html _ _ _), hfinished.fresh, hfinished.blank,
              rfl⟩
          split
          · split
            · exact hopened.closeLeaf
            · exact hopened
          · exact hopened
      · split
        · exact hfinished.add rfl
        · split
          · exact hfinished.add rfl
          · split
            · exact ⟨hfinished.frames, hfinished.codes, .some (.fenced _ _ _ _), hfinished.fresh,
                hfinished.blank, rfl⟩
            · have hsame : TextLine.Same
                  ⟨[], [], line.start + (cursor.takeSpaces 4).2.taken, (cursor.takeSpaces 4).2.rest,
                    line.ending, line.stop⟩
                  ⟨[], [], line'.start + (cursor.takeSpaces 4).2.taken, (cursor.takeSpaces 4).2.rest,
                    line'.ending, line'.stop⟩ := ⟨rfl, rfl, rfl, hl.ending⟩
              exact ⟨hfinished.frames, hfinished.codes,
                .some (.paragraph (.inr (.cons hsame .nil))), hfinished.fresh, hfinished.blank,
                hfinished.raw⟩

/-- The marks at the front of the line open the same containers in both states. -/
theorem openContainers (tasks : Bool) (ho : state.Opens state') (bound : Nat) (cursor : Cursor)
    (hb : isBlankRest cursor.rest = true → state.takeBlank.Alike state'.takeBlank) :
    (BlockState.openContainers tasks line bound state cursor).Alike
      (BlockState.openContainers tasks line' bound state' cursor) := by
  induction bound generalizing state state' cursor with
  | zero => exact startLeaf hl ho cursor hb
  | succ bound ih =>
      unfold BlockState.openContainers
      simp only [hl.ending]
      split
      · exact startLeaf hl ho cursor hb
      · split
        · next marker after _ =>
            have hitem (task : Option Bool) := (ho.item marker line.start line'.start).push
              (.item marker.indent task task [] []) rfl rfl rfl (by simp) (by simp)
            split
            · exact ⟨(hitem none).frames, (hitem none).codes, (hitem none).leaf, fun _ => rfl,
                (hitem none).blank, (hitem none).raw⟩
            · split
              · next checked rest _ =>
                  split
                  · have hchecked := hitem (some checked)
                    exact ⟨hchecked.frames, hchecked.codes, hchecked.leaf, fun _ => rfl,
                      hchecked.blank, hchecked.raw⟩
                  · have hopened : BlockState.Alike
                        { (state.continueList marker line.start).push (.item marker.indent none []) with
                          nextTask := some checked }
                        { (state'.continueList marker line'.start).push (.item marker.indent none []) with
                          nextTask := some checked } :=
                      ⟨(hitem none).frames, (hitem none).codes, (hitem none).leaf,
                        (hitem none).fresh, (hitem none).blank, (hitem none).raw⟩
                    exact ih hopened.opens rest fun _ => hopened.takeBlank
              · exact ih (hitem none).opens after fun _ => (hitem none).takeBlank
        · split
          · have hquote := (ho.block line.start line'.start).push
              (.quote (line.start + (cursor.takeSpaces 4).2.taken)
                (line'.start + (cursor.takeSpaces 4).2.taken) [] []) rfl rfl rfl (by simp) (by simp)
            exact ih hquote.opens _ fun _ => hquote.takeBlank
          · exact startLeaf hl ho cursor hb

theorem takeFresh (tasks : Bool) (h : state.Alike state') (matched : Nat) (cursor : Cursor) :
    (state.takeFresh tasks line matched cursor).Alike
      (state'.takeFresh tasks line' matched cursor) := by
  have hclosed := h.closeLeaf
  unfold BlockState.takeFresh
  simp only [hl.text, Frame.length_of_framesAlike hclosed.frames]
  have hpopped := hclosed.popMany line.start line'.start (state'.closeLeaf.frames.length - matched)
  exact openContainers hl tasks hpopped.opens _ cursor fun _ => hpopped.takeBlank

/-- What comes after a line matters only if it ends a paragraph or goes on with it accordingly. Where
text comes after the one line and nothing after the other, the one opens an empty item then. -/
theorem takeAfterParagraph (tasks : Bool) (h : state.Alike state') {lines lines' : List TextLine}
    (hs : LinesAlike lines lines') (matched : Nat) (cursor : Cursor)
    (hn : line.nextIsBlank = line'.nextIsBlank ∨ (line.nextIsBlank = false ∧
      ¬ (state.takeAfterParagraph tasks lines line matched cursor).InEmptyItem)) :
    (state.takeAfterParagraph tasks lines line matched cursor).Alike
      (state'.takeAfterParagraph tasks lines' line' matched cursor) := by
  unfold BlockState.takeAfterParagraph at hn ⊢
  simp only [hs.splitDefinitions, hl.text, Frame.length_of_framesAlike h.frames] at hn ⊢
  split
  · have hclosed : BlockState.Alike { state with leaf := none } { state' with leaf := none } :=
      ⟨h.frames, h.codes, .none, h.fresh, h.blank, h.raw⟩
    exact (hclosed.addParagraph_left _ _).addParagraph_right _ _
  · next hunderline =>
      simp only [hunderline] at hn
      -- what ends the paragraph depends on the line after it only for an item that holds nothing yet
      have hinterrupts : ((cursor.takeSpaces 4).1 ≠ 0 ∧
          interrupts (matched == state'.frames.length) line (cursor.takeSpaces 4).2.rest = true) ↔
          ((cursor.takeSpaces 4).1 ≠ 0 ∧
            interrupts (matched == state'.frames.length) line' (cursor.takeSpaces 4).2.rest = true) := by
        refine and_congr_right fun hmissing => ?_
        rcases interrupts_of_same hl (matched == state'.frames.length) (cursor.takeSpaces 4).2.rest
          (hn.imp_right And.left) with heq | ⟨hnext, hinterrupts, hbare⟩
        · rw [heq]
        · have hitem := (hn.resolve_left hnext).2
          rw [if_pos (.inr ⟨hmissing, hinterrupts⟩)] at hitem
          exact absurd (inEmptyItem_takeFresh hmissing hbare) hitem
      simp only [hinterrupts]
      split
      · exact h.takeFresh hl tasks matched cursor
      · exact ⟨h.frames, h.codes, .some (.paragraph (hs.cons ⟨rfl, rfl, rfl, hl.ending⟩)), h.fresh,
          h.blank, h.raw⟩

/-- A line leaves the states alike if the same comes after it, or if what comes after it makes no
difference. -/
theorem takeLine (tasks : Bool) (h : state.Alike state')
    (hn : line.nextIsBlank = line'.nextIsBlank ∨
      (line.nextIsBlank = false ∧ ¬ (state.takeLine tasks line).InEmptyItem)) :
    (state.takeLine tasks line).Alike (state'.takeLine tasks line') := by
  have hmatched := Frame.continueAll_of_alike
    (List.rel_reverse (Frame.forall₂_of_framesAlike h.frames)) (Cursor.ofLine line')
  have hfresh := h.takeFresh hl tasks
  have hclosed := h.closeLeaf
  have hlength := Frame.length_of_framesAlike h.frames
  unfold BlockState.takeLine at hn ⊢
  rw [hl.cursor, hmatched] at hn ⊢
  rw [h.raw] at hn ⊢
  rw [hl.endsInCarriageReturn] at hn ⊢
  split
  · exact ⟨h.frames, h.codes, h.leaf, h.fresh, h.blank, rfl⟩
  · next hraw =>
    rw [if_neg hraw] at hn
    simp only [hl.rawLine_eq, hlength]
    generalize Frame.continueAll (Cursor.ofLine line') state'.frames.reverse = found at hn ⊢
    obtain ⟨matched, cursor⟩ := found
    -- both states are taken apart, so that the same kind of block is open in both
    obtain ⟨frames, done, leaf, fresh, blank, task, targets, raw⟩ := state
    obtain ⟨frames', done', leaf', fresh', blank', task', targets', raw'⟩ := state'
    cases h.leaf with
    | none => exact hfresh matched cursor
    | some hleaf =>
        cases hleaf with
        | paragraph hlines => exact h.takeAfterParagraph hl tasks hlines matched cursor hn
        | fenced fence indent info lines =>
            simp only
            split
            · exact hfresh matched cursor
            · split
              · exact hclosed
              · exact ⟨h.frames, h.codes, .some (.fenced _ _ _ _), h.fresh, h.blank, rfl⟩
        | indented lines =>
            simp only
            split
            · exact hfresh matched cursor
            · exact ⟨h.frames, h.codes, .some (.indented _), h.fresh, fun _ => rfl, rfl⟩
        | html ending lines lines' =>
            have hopened : BlockState.Alike
                ⟨frames, done, some (.html ending (rawLine line' cursor.pending cursor.rest :: lines)),
                  fresh, blank, task, targets, line'.endsInCarriageReturn⟩
                ⟨frames', done', some (.html ending (rawLine line' cursor.pending cursor.rest :: lines')),
                  fresh', blank', task', targets', line'.endsInCarriageReturn⟩ :=
              ⟨h.frames, h.codes, .some (.html _ _ _), h.fresh, h.blank, rfl⟩
            simp only
            split
            · exact hfresh matched cursor
            · split
              · split
                · exact hopened.closeLeaf
                · exact hopened
              · exact hopened

end Lines

end Alike

end BlockState

end DefinitionLists.Markdown
