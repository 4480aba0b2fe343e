/-
Module: DefinitionLists.Proofs.Markdown.Positions
Purpose: The positions of a document's blocks lie in the document, however deep the blocks are, and
  those of paragraphs split no character.
Main exports: TextLine.StandIn, Block.StandsIn, BlockState.Placed, BlockState.Placed.move,
  BlockState.Placed.carried, standsIn_of_mem_ofText
-/
import DefinitionLists.Proofs.Markdown.Moves

namespace DefinitionLists.Markdown

open Text (byteLength IsCut)

/-- Whether the lines of a paragraph, the last one first, stand in a document up to an offset, one
after the other. -/
structure TextLine.StandIn (document : List Char) (offset : Nat) (lines : List TextLine) : Prop where
  cut : ∀ line ∈ lines, IsCut document line.start ∧ IsCut document line.stop
  ordered : ∀ line ∈ lines, line.start ≤ line.stop ∧ line.stop ≤ offset
  pairwise : lines.Pairwise (fun later earlier => earlier.stop ≤ later.start)

namespace TextLine.StandIn

variable {document : List Char} {offset : Nat} {lines : List TextLine}

theorem mono {offset' : Nat} (h : StandIn document offset lines) (ho : offset ≤ offset') :
    StandIn document offset' lines := by
  refine ⟨h.cut, fun line hl => ?_, h.pairwise⟩
  obtain ⟨hstart, hstop⟩ := h.ordered line hl
  exact ⟨hstart, Nat.le_trans hstop ho⟩

theorem nil : StandIn document offset [] := ⟨by simp, by simp, .nil⟩

/-- The next line of a paragraph starts where the lines before it end, or later. -/
theorem cons {line : TextLine} {stop : Nat} (h : StandIn document offset lines)
    (heq : line.stop = stop) (ho : offset ≤ line.start) (hl : line.start ≤ stop)
    (hstart : IsCut document line.start) (hstop : IsCut document stop) :
    StandIn document stop (line :: lines) := by
  subst heq
  have hmore := h.mono (Nat.le_trans ho hl)
  refine ⟨?_, ?_, ?_⟩
  · intro other hother
    rcases List.mem_cons.1 hother with rfl | hother
    · exact ⟨hstart, hstop⟩
    · exact h.cut other hother
  · intro other hother
    rcases List.mem_cons.1 hother with rfl | hother
    · exact ⟨hl, Nat.le_refl _⟩
    · exact hmore.ordered other hother
  · rw [List.pairwise_cons]
    refine ⟨fun other hother => ?_, h.pairwise⟩
    exact Nat.le_trans (h.ordered other hother).2 ho

/-- The lines from one of a paragraph to a later one have a span in the document. -/
theorem fits {text : List TextLine} {first last : TextLine}
    (h : StandIn document offset lines) (ht : text <:+ lines.reverse)
    (hf : text.head? = some first) (hl : text.getLast? = some last) :
    (⟨first.start, last.stop⟩ : Span).Fits document := by
  have hmem {line : TextLine} (hline : line ∈ text) : line ∈ lines :=
    List.mem_reverse.1 (ht.subset hline)
  have hfirst : first ∈ lines := hmem (List.mem_of_mem_head? hf)
  have hlast : last ∈ lines := hmem (List.mem_of_getLast? hl)
  refine ⟨(h.cut first hfirst).1, (h.cut last hlast).2, ?_⟩
  have hpairwise : text.Pairwise (fun earlier later => earlier.stop ≤ later.start) :=
    (List.pairwise_reverse.2 h.pairwise).sublist ht.sublist
  obtain ⟨more, rfl⟩ := List.head?_eq_some_iff.1 hf
  rw [List.pairwise_cons] at hpairwise
  rcases List.mem_cons.1 (List.mem_of_getLast? hl) with rfl | hmore
  · exact (h.ordered last hlast).1
  · have hnext := hpairwise.1 last hmore
    have hfirst' := (h.ordered first hfirst).1
    have hlast' := (h.ordered last hlast).1
    show first.start ≤ last.stop
    omega

end TextLine.StandIn

/-! ### Blocks -/

mutual

/-- Whether all positions in a block lie in a document. Those of paragraphs split no character. -/
def Block.StandsIn (document : List Char) : Block → Prop
  | .paragraph span _ _ => span.Fits document
  | .quote span blocks =>
    span.LiesWithin (byteLength document) ∧ Block.AllStandIn document blocks
  | .list _ _ items => Block.AllStandIn document items
  | .item _ blocks => Block.AllStandIn document blocks
  | .heading .. | .code .. | .html _ | .rule => True

/-- Whether all positions in the blocks lie in a document. -/
def Block.AllStandIn (document : List Char) : List Block → Prop
  | [] => True
  | block :: more => block.StandsIn document ∧ Block.AllStandIn document more

end

theorem Block.allStandIn_iff {document : List Char} {blocks : List Block} :
    Block.AllStandIn document blocks ↔ ∀ block ∈ blocks, block.StandsIn document := by
  induction blocks with
  | nil => simp [AllStandIn]
  | cons block more ih => simp [AllStandIn, ih]

theorem Block.allStandIn_reverse {document : List Char} {blocks : List Block}
    (h : Block.AllStandIn document blocks) : Block.AllStandIn document blocks.reverse := by
  rw [allStandIn_iff] at h ⊢
  intro block hblock
  exact h block (List.mem_reverse.1 hblock)

theorem Block.standsIn_of_isFlat {document : List Char} {block : Block} (h : block.isFlat = true) :
    block.StandsIn document := by
  cases block with
  | heading | code | html | rule => trivial
  | paragraph | quote | list | item => cases h

/-- Whether all positions that are known of an open container lie in a document. -/
def Frame.StandsIn (document : List Char) : Frame → Prop
  | .quote start done => start ≤ byteLength document ∧ Block.AllStandIn document done
  | .list _ _ _ done | .item _ _ done => Block.AllStandIn document done

namespace Frame.StandsIn

variable {document : List Char} {frame : Frame}

theorem add (h : frame.StandsIn document) {block : Block} (hb : block.StandsIn document) :
    (frame.add block).StandsIn document := by
  cases frame with
  | quote start done => exact ⟨h.1, hb, h.2⟩
  | list tight char number done => exact ⟨hb, h⟩
  | item indent task done => exact ⟨hb, h⟩

theorem close (h : frame.StandsIn document) {stop : Nat} (hs : stop ≤ byteLength document) :
    (frame.close stop).StandsIn document := by
  cases frame with
  | quote start done => exact ⟨⟨h.1, hs⟩, Block.allStandIn_reverse h.2⟩
  | list tight char number done => exact Block.allStandIn_reverse h
  | item indent task done => exact Block.allStandIn_reverse h

/-- The positions in containers that hold the same blocks are the same. -/
theorem forall_of_sameContent {frames frames' : List Frame}
    (hs : List.Forall₂ Frame.SameContent frames frames')
    (h : ∀ frame ∈ frames, frame.StandsIn document) : ∀ frame ∈ frames', frame.StandsIn document := by
  induction hs with
  | nil => exact h
  | cons hsame _ ih =>
      rw [List.forall_mem_cons] at h ⊢
      refine ⟨?_, ih h.2⟩
      cases hsame <;> exact h.1

end Frame.StandsIn

/-! ### While a document is read -/

namespace BlockState

/-- Whether the lines of the open paragraph have their places in the part of a document before an
offset, and all positions that are known of its blocks, open or done, lie in the document. -/
structure Placed (document : List Char) (offset : Nat) (state : BlockState) : Prop where
  leaf : ∀ lines, state.leaf = some (.paragraph lines) → TextLine.StandIn document offset lines
  done : ∀ block ∈ state.done, block.StandsIn document
  frames : ∀ frame ∈ state.frames, frame.StandsIn document

namespace Placed

variable {document : List Char} {offset : Nat} {state : BlockState}

theorem mono {offset' : Nat} (h : state.Placed document offset) (ho : offset ≤ offset') :
    state.Placed document offset' :=
  ⟨fun lines hl => (h.leaf lines hl).mono ho, h.done, h.frames⟩

/-- A state in which no paragraph is open. -/
theorem of_leaf {state' : BlockState} (h : state.Placed document offset)
    (hl : ∀ lines, state'.leaf ≠ some (.paragraph lines)) (hd : state'.done = state.done)
    (hf : state'.frames = state.frames) : state'.Placed document offset :=
  ⟨fun lines hlines => absurd hlines (hl lines), hd ▸ h.done, hf ▸ h.frames⟩

/-- A state with other open containers. -/
theorem of_frames {state' : BlockState} (h : state.Placed document offset)
    (hl : state'.leaf = state.leaf) (hd : state'.done = state.done)
    (hf : ∀ frame ∈ state'.frames, frame.StandsIn document) : state'.Placed document offset :=
  ⟨fun lines hlines => h.leaf lines (hl ▸ hlines), hd ▸ h.done, hf⟩

theorem add (h : state.Placed document offset) {block : Block} (hb : block.StandsIn document) :
    (state.add block).Placed document offset := by
  unfold BlockState.add
  split
  · exact ⟨h.leaf, List.forall_mem_cons.2 ⟨hb, h.done⟩, h.frames⟩
  · next frame outer heq =>
      have hframes := h.frames
      rw [heq, List.forall_mem_cons] at hframes
      refine h.of_frames rfl rfl ?_
      exact List.forall_mem_cons.2 ⟨hframes.1.add hb, hframes.2⟩

theorem pop (h : state.Placed document offset) {stop : Nat} (hs : stop ≤ byteLength document) :
    (state.pop stop).Placed document offset := by
  unfold BlockState.pop
  split
  · exact h
  · next frame outer heq =>
      have hframes := h.frames
      rw [heq, List.forall_mem_cons] at hframes
      apply Placed.add
      · exact h.of_frames rfl rfl hframes.2
      · exact hframes.1.close hs

theorem push (h : state.Placed document offset) {frame : Frame} (hf : frame.StandsIn document) :
    (state.push frame).Placed document offset :=
  h.of_frames rfl rfl (List.forall_mem_cons.2 ⟨hf, h.frames⟩)

/-- A move at a line that lies in the document keeps what is placed in place, and places what is new. -/
theorem move {line : Line} {next : BlockState} (hl : line.LiesWithin (byteLength document))
    (hm : Move line state next) (h : state.Placed document offset) : next.Placed document offset := by
  have hstart : line.start ≤ byteLength document := Nat.le_trans (Nat.le_add_right _ _) hl
  cases hm with
  | note hframes hdone hleaf =>
      refine ⟨fun lines hlines => ?_, hdone ▸ h.done,
        Frame.StandsIn.forall_of_sameContent hframes h.frames⟩
      rcases hleaf with hleaf | hleaf
      · exact h.leaf lines (hleaf ▸ hlines)
      · exact absurd ⟨lines, hlines⟩ hleaf
  | block hflat => exact h.add (Block.standsIn_of_isFlat hflat)
  | paragraph hleaf htext hfirst hlast =>
      refine Placed.add ?_ ((h.leaf _ hleaf).fits htext hfirst hlast)
      exact h.of_leaf (by simp) rfl rfl
  | close _ => exact h.pop hstart
  | list => exact h.push trivial
  | item _ => exact h.push trivial
  | @quote cursor hfits =>
      have hmark : line.start + cursor.taken ≤ byteLength document :=
        Nat.le_trans (Nat.add_le_add_left hfits.taken_le _) hl
      exact h.push ⟨hmark, trivial⟩

/-- A line of a paragraph is placed after the lines before it. -/
theorem addsLine {line : Line} {next : BlockState} (hl : line.StandsIn document)
    (ha : AddsLine line state next) (h : state.Placed document line.start) :
    next.Placed document line.stop := by
  cases ha with
  | intro hbefore hfits _ =>
      obtain ⟨hcut, hle⟩ := hfits.isCut hl
      refine ⟨fun lines hlines => ?_, h.done, h.frames⟩
      cases hlines
      rcases hbefore with rfl | hleaf
      · exact TextLine.StandIn.nil.cons rfl (Nat.zero_le _) hle hcut hl.isCut_stop
      · exact (h.leaf _ hleaf).cons rfl (Nat.le_add_right _ _) hle hcut hl.isCut_stop

theorem carried (document : List Char) :
    Carried document (fun offset state => state.Placed document offset) where
  start := ⟨by simp, by simp, by simp⟩
  later ho h := h.mono ho
  move := move
  text := addsLine

end Placed

end BlockState

/-- The positions of a document's blocks lie in its text, however deep they are. -/
theorem standsIn_of_mem_ofText (tasks : Bool) (text : List Char) :
    ∀ block ∈ (Document.ofText tasks text).blocks, block.StandsIn text := by
  obtain ⟨state, hplaced, hblocks⟩ := (BlockState.Placed.carried text).ofText tasks
  intro block hblock
  rw [hblocks, List.mem_reverse] at hblock
  exact hplaced.done block hblock

/-- A document's paragraphs outside of containers have their positions in its text. -/
theorem fits_of_mem_ofText {tasks : Bool} {text : List Char} {span : Span} {task : Option Bool}
    {content : List Symbol}
    (h : Block.paragraph span task content ∈ (Document.ofText tasks text).blocks) :
    span.Fits text :=
  standsIn_of_mem_ofText tasks text _ h

end DefinitionLists.Markdown
