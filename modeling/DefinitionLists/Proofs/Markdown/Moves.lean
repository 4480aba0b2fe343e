/-
Module: DefinitionLists.Proofs.Markdown.Moves
Purpose: What a line of a document can do to the blocks that are open and done: it makes moves, and
  then it may be the next line of a paragraph. What the moves and such a line carry on holds at the
  end of every document.
Main exports: BlockState.Move, BlockState.Moves, BlockState.AddsLine, BlockState.Takes,
  BlockState.takes_takeLine, BlockState.Carried, BlockState.Carried.ofText
-/
import Mathlib.Logic.Relation
import DefinitionLists.Proofs.Markdown.Containers

namespace DefinitionLists.Markdown

open Text (byteLength)

/-- Whether the block is neither a paragraph nor a block that was a container. -/
def Block.isFlat : Block → Bool
  | .heading .. | .code .. | .html _ | .rule => true
  | .paragraph .. | .quote .. | .list .. | .item .. => false

/-- The definitions of labels take lines away from the front of a paragraph only. -/
theorem splitDefinitions_suffix (lines : List TextLine) : (splitDefinitions lines).2 <:+ lines := by
  unfold splitDefinitions
  simp only
  split
  · exact List.suffix_refl _
  · exact List.drop_suffix _ _

namespace BlockState

/-! ### Moves -/

/-- Whether a paragraph is open. -/
def InParagraph (state : BlockState) : Prop := ∃ lines, state.leaf = some (.paragraph lines)

theorem not_inParagraph_of_leaf {state : BlockState} (h : state.leaf = none) :
    ¬state.InParagraph := by
  rintro ⟨lines, hlines⟩
  rw [h] at hlines
  cases hlines

/-- What happens to the blocks of a document, open and done, at one of its lines. -/
inductive Move (line : Line) (state : BlockState) : BlockState → Prop
  /-- No block is done. What changes is known of the containers, or the open block is no longer, and
  does not become, a paragraph. -/
  | note {next : BlockState} (frames : List.Forall₂ Frame.SameContent state.frames next.frames)
    (done : next.done = state.done) (leaf : next.leaf = state.leaf ∨ ¬next.InParagraph) :
    Move line state next
  | block {block : Block} (flat : block.isFlat = true) : Move line state (state.add block)
  /-- The open paragraph is done, without some of its first lines. -/
  | paragraph {lines text : List TextLine} {first last : TextLine} {task : Option Bool}
    {content : List Symbol} (leaf : state.leaf = some (.paragraph lines))
    (text_suffix : text <:+ lines.reverse) (first_eq : text.head? = some first)
    (last_eq : text.getLast? = some last) :
    Move line state
      ({ state with leaf := none }.add (.paragraph ⟨first.start, last.stop⟩ task content))
  | close (leaf : ¬state.InParagraph) : Move line state (state.pop line.start)
  | list {char : Char} {number : Nat} : Move line state (state.push (.list true char number []))
  | item {indent : Nat} {task : Option Bool} (kinds : state.kinds.head? = some .list) :
    Move line state (state.push (.item indent task []))
  | quote {cursor : Cursor} (fits : cursor.Fits line.text) :
    Move line state (state.push (.quote (line.start + cursor.taken) []))

/-- Whether the next state is reached by moves. -/
abbrev Moves (line : Line) : BlockState → BlockState → Prop := Relation.ReflTransGen (Move line)

variable {line : Line} {state next : BlockState}

/-- What every move carries on, a run of moves carries on. -/
theorem Moves.carry {holds : BlockState → Prop} (h : Moves line state next)
    (hmove : ∀ {state next : BlockState}, Move line state next → holds state → holds next)
    (hs : holds state) : holds next := by
  induction h with
  | refl => exact hs
  | tail _ hlast ih => exact hmove hlast ih

/-- No move opens a paragraph. -/
theorem Move.not_inParagraph (h : Move line state next) (hn : ¬state.InParagraph) :
    ¬next.InParagraph := by
  cases h with
  | note _ _ hleaf =>
      rcases hleaf with hleaf | hleaf
      · rwa [InParagraph, hleaf]
      · exact hleaf
  | block => rwa [InParagraph, leaf_add]
  | paragraph => exact not_inParagraph_of_leaf (leaf_add _ _)
  | close => rwa [InParagraph, leaf_pop]
  | list | item | quote => exact hn

theorem Moves.not_inParagraph (h : Moves line state next) (hn : ¬state.InParagraph) :
    ¬next.InParagraph :=
  h.carry Move.not_inParagraph hn

/-- Only what is known besides the blocks changes. -/
theorem moves_of_eq (hf : next.frames = state.frames) (hd : next.done = state.done)
    (hl : next.leaf = state.leaf) : Moves line state next := by
  refine .single (.note ?_ hd (.inl hl))
  rw [hf]
  exact Frame.forall₂_sameContent_self _

/-- The open block is replaced by one that is no paragraph. -/
theorem moves_of_leaf (hf : next.frames = state.frames) (hd : next.done = state.done)
    (hl : ¬next.InParagraph) : Moves line state next := by
  refine .single (.note ?_ hd (.inr hl))
  rw [hf]
  exact Frame.forall₂_sameContent_self _

/-! ### Containers -/

section Containers

variable (line)

/-- Containers close one after another, from the innermost one on. -/
theorem moves_popMany (count : Nat) (hn : ¬state.InParagraph) :
    Moves line state (popMany line.start count state) := by
  induction count generalizing state with
  | zero => exact .refl
  | succ count ih =>
      have hclose : Move line state (state.pop line.start) := .close hn
      exact .head hclose (ih (hclose.not_inParagraph hn))

theorem moves_finishEmptyItem (hn : ¬state.InParagraph) :
    Moves line state (state.finishEmptyItem line.start) := by
  unfold finishEmptyItem
  split
  · split
    · exact .head (.close hn) (moves_of_eq rfl rfl rfl)
    · exact moves_of_eq rfl rfl rfl
  · exact moves_of_eq rfl rfl rfl

theorem moves_finishList (hn : ¬state.InParagraph) :
    Moves line state (state.finishList line.start) := by
  have hfinished := moves_finishEmptyItem line hn
  have hn' := hfinished.not_inParagraph hn
  unfold finishList
  simp only
  split
  · split
    · exact (hfinished.tail (.close hn')).tail (.note (sameContent_loosened _) rfl (.inl rfl))
    · exact hfinished.tail (.close hn')
  · split
    · exact hfinished.tail (.note (sameContent_loosened _) rfl (.inl rfl))
    · exact hfinished

/-- An item goes on with the open list if its mark is of the same kind, and starts a list otherwise. -/
theorem moves_continueList (marker : ListMarker) (hn : ¬state.InParagraph) :
    Moves line state (state.continueList marker line.start) := by
  have hfinished := moves_finishEmptyItem line hn
  have hstarted : Moves line state { ((state.finishEmptyItem line.start).finishList line.start).push
      (.list true marker.char marker.number []) with lastLineBlank := false } :=
    ((hfinished.trans (moves_finishList line (hfinished.not_inParagraph hn))).tail .list).trans
      (moves_of_eq rfl rfl rfl)
  unfold continueList
  simp only
  split
  · next tight char number done outer hframes =>
      split
      · split
        · refine hfinished.tail (.note ?_ rfl (.inl rfl))
          rw [hframes]
          exact .cons .list (Frame.forall₂_sameContent_self outer)
        · exact hfinished.trans (moves_of_eq hframes.symm rfl rfl)
      · exact hstarted
  · exact hstarted

/-- Going on with a list, or starting one, and opening an item in it. -/
theorem moves_openItem (marker : ListMarker) (task : Option Bool) (hn : ¬state.InParagraph) :
    Moves line state
      ((state.continueList marker line.start).push (.item marker.indent task [])) :=
  (moves_continueList line marker hn).tail (.item (head?_kinds_continueList state marker line.start))

theorem moves_takeBlank : Moves line state state.takeBlank := by
  unfold takeBlank
  split
  · exact .refl
  · next indent task done outer hframes =>
      refine .single (.note ?_ rfl (.inl rfl))
      rw [hframes]
      exact .cons .item (Frame.forall₂_sameContent_self outer)
  · exact moves_of_eq rfl rfl rfl

/-! ### Open blocks -/

/-- The lines of the open paragraph make up a paragraph or a heading, or only define labels. -/
theorem moves_addParagraph {lines : List TextLine} (hl : state.leaf = some (.paragraph lines))
    (heading : Option Nat) :
    Moves line state ({ state with leaf := none }.addParagraph lines heading) := by
  unfold addParagraph
  simp only
  split
  · next first last hfirst hlast =>
      generalize (splitDefinitions lines.reverse).1.foldl _ state.targets = targets
      have hnoted : Moves line state { state with targets, nextTask := none } :=
        moves_of_eq rfl rfl rfl
      cases heading with
      | none =>
          refine hnoted.tail ?_
          exact .paragraph hl (splitDefinitions_suffix lines.reverse) hfirst hlast
      | some level =>
          have hclosed : Moves line { state with targets, nextTask := none }
              { state with targets, nextTask := none, leaf := none } :=
            moves_of_leaf rfl rfl (not_inParagraph_of_leaf rfl)
          exact (hnoted.trans hclosed).tail (.block rfl)
  · exact moves_of_leaf rfl rfl (not_inParagraph_of_leaf rfl)

/-- A block that is no longer open is done. -/
theorem moves_closeLeaf (state : BlockState) : Moves line state state.closeLeaf := by
  have hclosed : Moves line state { state with leaf := none } :=
    moves_of_leaf rfl rfl (not_inParagraph_of_leaf rfl)
  unfold closeLeaf
  simp only
  split
  · exact hclosed
  · next lines hleaf => exact moves_addParagraph line hleaf none
  · exact hclosed.tail (.block rfl)
  · exact hclosed.tail (.block rfl)
  · exact hclosed.tail (.block rfl)

end Containers

/-! ### Lines -/

/-- Whether the next state is the one before it with the rest of a line as the first or the next line
of a paragraph. Outside of containers only blanks stand before it on its line. -/
inductive AddsLine (line : Line) (state : BlockState) : BlockState → Prop
  | intro {lines : List TextLine} {cursor : Cursor} {margin lead : List Char}
    (before : lines = [] ∨ state.leaf = some (.paragraph lines)) (fits : cursor.Fits line.text)
    (front : cursor.Indents line.text ∨ state.frames ≠ []) :
    AddsLine line state { state with
      leaf := some (.paragraph (⟨margin, lead, line.start + cursor.taken, cursor.rest, line.ending,
        line.stop⟩ :: lines)) }

/-- What a line does to the state before it. -/
inductive Takes (line : Line) (state : BlockState) : BlockState → Prop
  | moves {next : BlockState} (moves : Moves line state next) : Takes line state next
  | text {moved next : BlockState} (moves : Moves line state moved) (adds : AddsLine line moved next) :
    Takes line state next

theorem Takes.head {moved : BlockState} (hm : Moves line state moved) (h : Takes line moved next) :
    Takes line state next := by
  cases h with
  | moves hmoves => exact .moves (hm.trans hmoves)
  | text hmoves hadds => exact .text (hm.trans hmoves) hadds

section Lines

variable {cursor : Cursor}

/-- The rest of a line opens a block. If it opens a paragraph outside of containers, only blanks were
taken from the front of the line. -/
theorem takes_startLeaf (hn : ¬state.InParagraph) (hc : cursor.Fits line.text)
    (hf : cursor.Indents line.text ∨ state.Held) : Takes line state (state.startLeaf line cursor) := by
  have hfinished := moves_finishList line hn
  unfold startLeaf
  simp only
  split
  · exact .moves (moves_takeBlank line)
  · split
    · exact .moves (hfinished.trans (moves_of_leaf rfl rfl (by simp [InParagraph])))
    · split
      · next ending _ =>
          have hopened {lines : List (List Char)} {raw : Bool} :
              Moves line (state.finishList line.start) { state.finishList line.start with
                leaf := some (.html ending lines), inRawLine := raw } :=
            moves_of_leaf rfl rfl (by simp [InParagraph])
          split
          · split
            · exact .moves ((hfinished.trans hopened).trans (moves_closeLeaf line _))
            · exact .moves (hfinished.trans hopened)
          · exact .moves (hfinished.trans hopened)
      · split
        · exact .moves (hfinished.tail (.block rfl))
        · split
          · exact .moves (hfinished.tail (.block rfl))
          · split
            · exact .moves (hfinished.trans (moves_of_leaf rfl rfl (by simp [InParagraph])))
            · refine .text hfinished (.intro (.inl rfl) (hc.takeSpaces 4) ?_)
              exact hf.imp (fun hindents => hindents.takeSpaces 4)
                fun hheld => (hheld.finishList line.start).frames_ne_nil

/-- Marks of items and quotes each make moves; what comes after the last one opens a block. -/
theorem takes_openContainers (tasks : Bool) (bound : Nat) (hn : ¬state.InParagraph)
    (hc : cursor.Fits line.text) (hf : cursor.Indents line.text ∨ state.Held) :
    Takes line state (openContainers tasks line bound state cursor) := by
  induction bound generalizing state cursor with
  | zero => exact takes_startLeaf hn hc hf
  | succ bound ih =>
      have hinner := hc.takeSpaces 4
      unfold openContainers
      simp only
      split
      · exact takes_startLeaf hn hc hf
      · split
        · next marker after hmarker =>
            have hafter := hinner.listMarker hmarker
            have hitem (task : Option Bool) := moves_openItem line marker task hn
            split
            · exact .moves ((hitem none).trans (moves_of_eq rfl rfl rfl))
            · split
              · next checked rest htask =>
                  split
                  · exact .moves ((hitem (some checked)).trans (moves_of_eq rfl rfl rfl))
                  · split at htask
                    · have hmarked : Moves line state
                          { (state.continueList marker line.start).push (.item marker.indent none [])
                            with nextTask := some checked } :=
                        (hitem none).trans (moves_of_eq rfl rfl rfl)
                      exact .head hmarked (ih (Moves.not_inParagraph hmarked hn)
                        (hafter.taskMark htask) (.inr (held_push_item _ _ _ _ _)))
                    · cases htask
              · exact .head (hitem none) (ih ((hitem none).not_inParagraph hn) hafter
                  (.inr (held_push_item _ _ _ _ _)))
        · split
          · next after hquote =>
              have hopened := (moves_finishList line hn).tail (.quote hinner)
              exact .head hopened (ih (Moves.not_inParagraph hopened hn)
                (hinner.takeQuoteMark hquote) (.inr (held_push_quote _ _)))
          · exact takes_startLeaf hn hc hf

/-- A line that does not go on with the open block closes it, and what it leaves of the containers. -/
theorem takes_takeFresh (tasks : Bool) (matched : Nat) (hc : cursor.Fits line.text)
    (hf : cursor.Indents line.text ∨
      .quote ∈ state.kinds.drop (state.frames.length - matched)) :
    Takes line state (state.takeFresh tasks line matched cursor) := by
  have hn : ¬state.closeLeaf.InParagraph := not_inParagraph_of_leaf (leaf_closeLeaf state)
  have hpopped := moves_popMany line (state.closeLeaf.frames.length - matched) hn
  refine .head ((moves_closeLeaf line state).trans hpopped) ?_
  refine takes_openContainers tasks _ (hpopped.not_inParagraph hn) hc (hf.imp id fun hquote => ?_)
  refine .inl ?_
  rw [kinds_popMany, kinds_closeLeaf, length_frames_closeLeaf]
  exact hquote

theorem takes_takeAfterParagraph (tasks : Bool) {lines : List TextLine} (matched : Nat)
    (hl : state.leaf = some (.paragraph lines)) (hc : cursor.Fits line.text)
    (hf : cursor.Indents line.text ∨
      .quote ∈ state.kinds.drop (state.frames.length - matched)) :
    Takes line state (state.takeAfterParagraph tasks lines line matched cursor) := by
  unfold takeAfterParagraph
  simp only
  split
  · exact .moves (moves_addParagraph line hl _)
  · split
    · exact takes_takeFresh tasks matched hc hf
    · refine .text .refl (.intro (.inr hl) (hc.takeSpaces 4).skipBlanks ?_)
      refine hf.imp (fun hindents => (hindents.takeSpaces 4).skipBlanks) fun hquote hnil => ?_
      rw [frames_eq_nil_iff] at hnil
      simp [hnil] at hquote

end Lines

/-- A line makes moves, and may then be the first or the next line of a paragraph. -/
theorem takes_takeLine (tasks : Bool) (state : BlockState) (line : Line) :
    Takes line state (state.takeLine tasks line) := by
  have hc := Frame.fits_continueAll state.frames.reverse (Cursor.fits_ofLine line)
  have hf := Frame.indents_continueAll state.frames.reverse (Cursor.indents_ofLine line)
  rw [List.take_reverse, List.map_reverse, List.mem_reverse, List.map_drop] at hf
  unfold takeLine
  simp only
  split
  · exact .moves (moves_of_eq rfl rfl rfl)
  · split
    · exact takes_takeFresh tasks _ hc hf
    · next lines hleaf => exact takes_takeAfterParagraph tasks _ hleaf hc hf
    · split
      · exact takes_takeFresh tasks _ hc hf
      · split
        · exact .moves (moves_closeLeaf line state)
        · exact .moves (moves_of_leaf rfl rfl (by simp [InParagraph]))
    · split
      · exact takes_takeFresh tasks _ hc hf
      · exact .moves (moves_of_leaf rfl rfl (by simp [InParagraph]))
    · next ending lines _ =>
        have hadded {lines : List (List Char)} {raw : Bool} : Moves line state
            { state with leaf := some (.html ending lines), inRawLine := raw } :=
          moves_of_leaf rfl rfl (by simp [InParagraph])
        split
        · exact takes_takeFresh tasks _ hc hf
        · split
          · split
            · exact .moves (hadded.trans (moves_closeLeaf line _))
            · exact .moves hadded
          · exact .moves hadded

/-! ### Documents -/

/-- Whether what holds after some bytes of a document is carried on by all that lines do. -/
structure Carried (document : List Char) (holds : Nat → BlockState → Prop) : Prop where
  start : holds 0 {}
  later {offset offset' : Nat} {state : BlockState} : offset ≤ offset' → holds offset state →
    holds offset' state
  move {line : Line} {state next : BlockState} : line.LiesWithin (byteLength document) →
    Move line state next → holds line.start state → holds line.start next
  text {line : Line} {state next : BlockState} : line.StandsIn document → AddsLine line state next →
    holds line.start state → holds line.stop next

namespace Carried

variable {document : List Char} {holds : Nat → BlockState → Prop}

/-- What a line does carries on what held before it. -/
theorem takes (h : Carried document holds) (hl : line.StandsIn document)
    (ht : Takes line state next) (hs : holds line.start state) : holds line.stop next := by
  cases ht with
  | moves hmoves => exact h.later line.start_le_stop (hmoves.carry (h.move hl.liesWithin) hs)
  | text hmoves hadds => exact h.text hl hadds (hmoves.carry (h.move hl.liesWithin) hs)

/-- What is carried on holds at the end of a document, of a state whose blocks are all done. -/
theorem ofText (h : Carried document holds) (tasks : Bool) :
    ∃ state, holds (byteLength document) state ∧
      (Document.ofText tasks document).blocks = state.done.reverse := by
  have hlines : holds (byteLength document) ((Line.split document).foldl (takeLine tasks) {}) :=
    Line.foldl_split (fun hline => h.takes hline (takes_takeLine tasks _ _)) h.start
  generalize hstate : (Line.split document).foldl (takeLine tasks) {} = state at hlines
  -- the blocks that are open at the end are done as if an empty line followed
  have hend : Line.LiesWithin (byteLength document) ⟨byteLength document, [], [], []⟩ :=
    Nat.le_refl _
  have hclosed := (moves_closeLeaf ⟨byteLength document, [], [], []⟩ state).carry (h.move hend) hlines
  have hpopped := (moves_popMany ⟨byteLength document, [], [], []⟩ state.closeLeaf.frames.length
    (not_inParagraph_of_leaf (leaf_closeLeaf state))).carry (h.move hend) hclosed
  refine ⟨_, hpopped, ?_⟩
  rw [Document.ofText, hstate]

end Carried

end BlockState

end DefinitionLists.Markdown
