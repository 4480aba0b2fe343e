/-
Module: DefinitionLists.Proofs.Markdown.LineStarts
Purpose: A paragraph outside of containers starts at the front of a line of its document, apart from
  blanks.
Main exports: Text.OpensLine, BlockState.LinesOpen, BlockState.LinesOpen.move,
  BlockState.LinesOpen.carried, opensLine_of_mem_ofText
-/
import DefinitionLists.Proofs.Markdown.Moves

namespace DefinitionLists

namespace Text

/-- Whether only blanks stand between the front of a line and a byte offset. -/
def OpensLine (text : List Char) (offset : Nat) : Prop :=
  ∃ done blanks rest, text = done ++ (blanks ++ rest) ∧ EndsLine done ∧
    (∀ c ∈ blanks, isBlank c = true) ∧ byteLength (done ++ blanks) = offset

end Text

namespace Markdown

open Text (OpensLine)

/-- What is left of a line after blanks at its front opens the line. -/
theorem Cursor.Indents.opensLine {document : List Char} {line : Line} {cursor : Cursor}
    (hl : line.StandsIn document) (h : cursor.Indents line.text) :
    OpensLine document (line.start + cursor.taken) := by
  obtain ⟨before, hdocument, hstart, hends⟩ := hl.place
  obtain ⟨front, htext, htaken, hfront⟩ := h
  refine ⟨before, front, cursor.rest ++ (line.ending ++ line.following), ?_, hends, hfront, ?_⟩
  · rw [hdocument, htext, List.append_assoc]
  · rw [Text.byteLength_append, hstart, htaken]

/-- Whether each paragraph among the blocks starts at the front of a line. -/
def BlocksOpen (document : List Char) (blocks : List Block) : Prop :=
  ∀ span task content, Block.paragraph span task content ∈ blocks → OpensLine document span.start

theorem BlocksOpen.cons {document : List Char} {blocks : List Block} {block : Block}
    (h : BlocksOpen document blocks)
    (hb : ∀ span task content, block = .paragraph span task content → OpensLine document span.start) :
    BlocksOpen document (block :: blocks) := by
  intro span task content hm
  rcases List.mem_cons.1 hm with heq | hm
  · exact hb span task content heq.symm
  · exact h span task content hm

namespace BlockState

/-- Whether the paragraphs outside of containers start at the front of a line, the open one and those
that are done. Each line of the open one does. -/
structure LinesOpen (document : List Char) (state : BlockState) : Prop where
  leaf : state.frames = [] → ∀ lines, state.leaf = some (.paragraph lines) →
    ∀ line ∈ lines, OpensLine document line.start
  done : BlocksOpen document state.done

namespace LinesOpen

variable {document : List Char} {line : Line} {state next : BlockState}

/-- A state in which no paragraph is open. -/
theorem of_not_inParagraph (hn : ¬state.InParagraph) (hd : BlocksOpen document state.done) :
    state.LinesOpen document :=
  ⟨fun _ lines hlines => absurd ⟨lines, hlines⟩ hn, hd⟩

theorem add (h : state.LinesOpen document) {block : Block}
    (hb : state.frames = [] → ∀ span task content, block = .paragraph span task content →
      OpensLine document span.start) : (state.add block).LinesOpen document := by
  unfold BlockState.add
  split
  · next hframes => exact ⟨h.leaf, h.done.cons (hb hframes)⟩
  · exact ⟨fun hnil => (List.cons_ne_nil _ _ hnil).elim, h.done⟩

/-- Between paragraphs a container that is done is no paragraph. -/
theorem pop (h : state.LinesOpen document) (hn : ¬state.InParagraph) (stop : Nat) :
    (state.pop stop).LinesOpen document := by
  unfold BlockState.pop
  split
  · exact h
  · next frame outer hframes =>
      have houter : ({ state with frames := outer, freshItem := state.freshItem &&
          !frame.isTightList } : BlockState).LinesOpen document := of_not_inParagraph hn h.done
      refine houter.add fun _ span task content hclose => ?_
      cases frame <;> cases hclose

theorem push (h : state.LinesOpen document) (frame : Frame) :
    (state.push frame).LinesOpen document :=
  ⟨fun hnil => (List.cons_ne_nil _ _ hnil).elim, h.done⟩

/-- A move keeps paragraphs at the front of lines. -/
theorem move (hm : Move line state next) (h : state.LinesOpen document) : next.LinesOpen document := by
  cases hm with
  | note hframes hdone hleaf =>
      have hblocks : BlocksOpen document next.done := hdone ▸ h.done
      rcases hleaf with hleaf | hleaf
      · refine ⟨fun hnil lines hlines => h.leaf ?_ lines (hleaf ▸ hlines), hblocks⟩
        rw [hnil] at hframes
        exact List.forall₂_nil_right_iff.1 hframes
      · exact of_not_inParagraph hleaf hblocks
  | block hflat =>
      refine h.add fun _ span task content hparagraph => ?_
      rw [hparagraph] at hflat
      cases hflat
  | paragraph hleaf htext hfirst _ =>
      have hclosed : ({ state with leaf := none } : BlockState).LinesOpen document :=
        of_not_inParagraph (not_inParagraph_of_leaf rfl) h.done
      refine hclosed.add fun hnil span task content hparagraph => ?_
      cases hparagraph
      have hmem := htext.subset (List.mem_of_mem_head? hfirst)
      exact h.leaf hnil _ hleaf _ (List.mem_reverse.1 hmem)
  | close hn => exact h.pop hn line.start
  | list | item | quote => exact h.push _

/-- Outside of containers only blanks stand before a line of a paragraph. -/
theorem addsLine (hl : line.StandsIn document) (ha : AddsLine line state next)
    (h : state.LinesOpen document) : next.LinesOpen document := by
  cases ha with
  | intro hbefore _ hfront =>
      refine ⟨fun hnil lines hlines => ?_, h.done⟩
      cases hlines
      have hopens := (hfront.resolve_right (not_not_intro hnil)).opensLine hl
      rcases hbefore with rfl | hleaf
      · exact List.forall_mem_singleton.2 hopens
      · exact List.forall_mem_cons.2 ⟨hopens, h.leaf hnil _ hleaf⟩

theorem carried (document : List Char) : Carried document (fun _ state => state.LinesOpen document) where
  start := ⟨by simp, by simp [BlocksOpen]⟩
  later _ h := h
  move _ := move
  text := addsLine

end LinesOpen

end BlockState

/-- A document's paragraphs outside of containers start at the front of its lines. -/
theorem opensLine_of_mem_ofText (tasks : Bool) (text : List Char) :
    BlocksOpen text (Document.ofText tasks text).blocks := by
  obtain ⟨state, hopen, hblocks⟩ := (BlockState.LinesOpen.carried text).ofText tasks
  intro span task content hm
  rw [hblocks, List.mem_reverse] at hm
  exact hopen.done span task content hm

end Markdown

end DefinitionLists
