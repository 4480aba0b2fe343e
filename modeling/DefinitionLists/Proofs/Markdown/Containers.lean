/-
Module: DefinitionLists.Proofs.Markdown.Containers
Purpose: The containers that are open while a document is read: which kinds they are of, what blocks
  and lines do to them, and when what comes next stays in one of them.
Main exports: FrameKind, Frame.SameContent, Frame.fits_continueAll, Frame.indents_continueAll,
  BlockState.kinds, BlockState.Held
-/
import Mathlib.Data.List.Forall2
import DefinitionLists.Markdown.Block
import DefinitionLists.Proofs.Markdown.Lines

namespace DefinitionLists.Markdown

/-! ### Kinds of containers -/

/-- The kinds of containers. -/
inductive FrameKind where
  | quote
  | list
  | item
deriving DecidableEq

/-- The kind of a container that is open. -/
def Frame.kind : Frame → FrameKind
  | .quote _ _ => .quote
  | .list _ _ _ _ => .list
  | .item _ _ _ => .item

@[simp] theorem Frame.kind_add (block : Block) (frame : Frame) :
    (frame.add block).kind = frame.kind := by
  cases frame <;> rfl

@[simp] theorem Frame.kind_loosen (frame : Frame) : frame.loosen.kind = frame.kind := by
  cases frame <;> rfl

/-- Whether two containers are of one kind and hold the same blocks. How far their items are indented
and whether the list is tight may differ. -/
inductive Frame.SameContent : Frame → Frame → Prop
  | quote {start : Nat} {done : List Block} : SameContent (.quote start done) (.quote start done)
  | list {tight tight' : Bool} {char : Char} {number : Nat} {done : List Block} :
    SameContent (.list tight char number done) (.list tight' char number done)
  | item {indent indent' : Nat} {task : Option Bool} {done : List Block} :
    SameContent (.item indent task done) (.item indent' task done)

theorem Frame.SameContent.refl (frame : Frame) : frame.SameContent frame := by
  cases frame with
  | quote => exact .quote
  | list => exact .list
  | item => exact .item

theorem Frame.sameContent_loosen (frame : Frame) : frame.SameContent frame.loosen := by
  cases frame with
  | quote => exact .quote
  | list => exact .list
  | item => exact .item

theorem Frame.forall₂_sameContent_self (frames : List Frame) :
    List.Forall₂ SameContent frames frames :=
  List.forall₂_same.2 fun frame _ => .refl frame

theorem Frame.map_kind_of_sameContent {frames frames' : List Frame}
    (h : List.Forall₂ SameContent frames frames') : frames'.map kind = frames.map kind := by
  induction h with
  | nil => rfl
  | cons hframe _ ih =>
      rw [List.map_cons, List.map_cons, ih]
      cases hframe <;> rfl

/-! ### Containers that a line goes on with -/

theorem Frame.fits_continueAll {text : List Char} {cursor : Cursor} (frames : List Frame)
    (h : cursor.Fits text) : (Frame.continueAll cursor frames).2.Fits text := by
  induction frames generalizing cursor with
  | nil => exact h
  | cons frame inner ih =>
      unfold Frame.continueAll
      split
      · next after hafter =>
          refine ih ?_
          unfold Frame.continue? at hafter
          split at hafter
          · exact (h.takeSpaces 3).takeQuoteMark hafter
          · cases hafter
            exact h
          · simp only at hafter
            split at hafter
            · cases hafter
              exact h.takeSpaces _
            · cases hafter
      · exact h

/-- A line takes only blanks from its front for containers that are no quotes. -/
theorem Frame.indents_continueAll {text : List Char} {cursor : Cursor} (frames : List Frame)
    (h : cursor.Indents text) : (Frame.continueAll cursor frames).2.Indents text ∨
      .quote ∈ (frames.take (Frame.continueAll cursor frames).1).map Frame.kind := by
  induction frames generalizing cursor with
  | nil => exact .inl h
  | cons frame inner ih =>
      unfold Frame.continueAll
      split
      · next after hafter =>
          cases frame with
          | quote start done => exact .inr (by simp [Frame.kind])
          | list tight char number done =>
              obtain rfl : cursor = after := Option.some.inj hafter
              rcases ih h with hrest | hquote
              · exact .inl hrest
              · exact .inr (List.mem_cons_of_mem _ hquote)
          | item indent task done =>
              simp only [Frame.continue?] at hafter
              split at hafter
              · cases hafter
                rcases ih (h.takeSpaces indent) with hrest | hquote
                · exact .inl hrest
                · exact .inr (List.mem_cons_of_mem _ hquote)
              · cases hafter
      · exact .inl h

/-! ### Open containers -/

namespace BlockState

/-- The kinds of the open containers, the innermost one first. -/
def kinds (state : BlockState) : List FrameKind := state.frames.map Frame.kind

theorem frames_eq_nil_iff {state : BlockState} : state.frames = [] ↔ state.kinds = [] := by
  simp [kinds]

theorem kinds_of_frames {state : BlockState} {frame : Frame} {outer : List Frame}
    (h : state.frames = frame :: outer) : state.kinds = frame.kind :: outer.map Frame.kind := by
  rw [kinds, h, List.map_cons]

@[simp] theorem kinds_add (state : BlockState) (block : Block) :
    (state.add block).kinds = state.kinds := by
  unfold add
  split
  · rfl
  · next frame outer heq => simp [kinds, heq]

theorem kinds_pop (state : BlockState) (stop : Nat) : (state.pop stop).kinds = state.kinds.tail := by
  unfold pop
  split
  · next heq => simp [kinds, heq]
  · next frame outer heq => rw [kinds_add, kinds, kinds, heq, List.map_cons, List.tail_cons]

theorem kinds_popMany (stop count : Nat) (state : BlockState) :
    (popMany stop count state).kinds = state.kinds.drop count := by
  induction count generalizing state with
  | zero => rfl
  | succ count ih => rw [popMany, ih, kinds_pop, List.drop_tail]

@[simp] theorem kinds_addParagraph (state : BlockState) (lines : List TextLine)
    (heading : Option Nat) : (state.addParagraph lines heading).kinds = state.kinds := by
  unfold addParagraph
  simp only
  split
  · rw [kinds_add]
    rfl
  · rfl

@[simp] theorem kinds_closeLeaf (state : BlockState) : state.closeLeaf.kinds = state.kinds := by
  unfold closeLeaf
  simp only
  split
  · rfl
  · rw [kinds_addParagraph]
    rfl
  · rw [kinds_add]
    rfl
  · rw [kinds_add]
    rfl
  · rw [kinds_add]
    rfl

theorem frames_closeLeaf_eq_nil {state : BlockState} :
    state.closeLeaf.frames = [] ↔ state.frames = [] := by
  rw [frames_eq_nil_iff, kinds_closeLeaf, ← frames_eq_nil_iff]

theorem length_frames_closeLeaf (state : BlockState) :
    state.closeLeaf.frames.length = state.frames.length := by
  have hkinds := congrArg List.length (kinds_closeLeaf state)
  rwa [kinds, kinds, List.length_map, List.length_map] at hkinds

@[simp] theorem leaf_add (state : BlockState) (block : Block) :
    (state.add block).leaf = state.leaf := by
  unfold add
  split <;> rfl

@[simp] theorem leaf_pop (state : BlockState) (stop : Nat) : (state.pop stop).leaf = state.leaf := by
  unfold pop
  split
  · rfl
  · rw [leaf_add]

@[simp] theorem leaf_closeLeaf (state : BlockState) : state.closeLeaf.leaf = none := by
  unfold closeLeaf addParagraph
  simp only
  split
  · rfl
  · split
    · rw [leaf_add]
    · rfl
  · rw [leaf_add]
  · rw [leaf_add]
  · rw [leaf_add]

@[simp] theorem freshItem_add (state : BlockState) (block : Block) :
    (state.add block).freshItem = state.freshItem := by
  unfold add
  split <;> rfl

theorem freshItem_pop {state : BlockState} (h : state.freshItem = false) (stop : Nat) :
    (state.pop stop).freshItem = false := by
  unfold pop
  split
  · exact h
  · rw [freshItem_add, h, Bool.false_and]

@[simp] theorem inRawLine_add (state : BlockState) (block : Block) :
    (state.add block).inRawLine = state.inRawLine := by
  unfold add
  split <;> rfl

@[simp] theorem inRawLine_pop (state : BlockState) (stop : Nat) :
    (state.pop stop).inRawLine = state.inRawLine := by
  unfold pop
  split
  · rfl
  · rw [inRawLine_add]

@[simp] theorem inRawLine_addParagraph (state : BlockState) (lines : List TextLine)
    (heading : Option Nat) : (state.addParagraph lines heading).inRawLine = state.inRawLine := by
  unfold addParagraph
  simp only
  split
  · rw [inRawLine_add]
  · rfl

@[simp] theorem inRawLine_closeLeaf (state : BlockState) :
    state.closeLeaf.inRawLine = state.inRawLine := by
  unfold closeLeaf
  simp only
  split
  · rfl
  · rw [inRawLine_addParagraph]
  · rw [inRawLine_add]
  · rw [inRawLine_add]
  · rw [inRawLine_add]

/-- A list that gets loose holds the same blocks. -/
theorem sameContent_loosened (frames : List Frame) : List.Forall₂ Frame.SameContent frames
    (match frames with
    | frame :: outer :: more => frame :: outer.loosen :: more
    | frames => frames) := by
  split
  · next frame outer more =>
      exact .cons (.refl frame) (.cons outer.sameContent_loosen (Frame.forall₂_sameContent_self more))
  · exact Frame.forall₂_sameContent_self _

/-- Going on with a list, or starting one, leaves a list as the innermost container. -/
theorem head?_kinds_continueList (state : BlockState) (marker : ListMarker) (stop : Nat) :
    (state.continueList marker stop).kinds.head? = some .list := by
  unfold continueList
  simp only
  split
  · split
    · split <;> rfl
    · rfl
  · rfl

/-! ### What stays in a container -/

/-- Whether what comes next stays in a container: in a quote, or in an item that does not end for
being empty. -/
def Held (state : BlockState) : Prop :=
  .quote ∈ state.kinds ∨ (state.freshItem = false ∧ .item ∈ state.kinds)

namespace Held

variable {state : BlockState}

theorem frames_ne_nil (h : state.Held) : state.frames ≠ [] := by
  intro hnil
  rw [frames_eq_nil_iff] at hnil
  simp [Held, hnil] at h

theorem of_eq {state' : BlockState} (h : state.Held) (hk : state'.kinds = state.kinds)
    (hf : state'.freshItem = state.freshItem) : state'.Held := by
  rw [Held, hk, hf]
  exact h

theorem finishEmptyItem (h : state.Held) (stop : Nat) : (state.finishEmptyItem stop).Held := by
  unfold BlockState.finishEmptyItem
  split
  · next indent task done outer hframes =>
      have hkinds := kinds_of_frames hframes
      split
      · next hfresh =>
          -- the item that ends here was empty, so it is a quote that holds what comes next
          rcases h with hquote | ⟨hfilled, -⟩
          · have hpopped : FrameKind.quote ∈ (state.pop stop).kinds := by
              rw [hkinds] at hquote
              rw [kinds_pop, hkinds]
              simpa [Frame.kind] using hquote
            exact .inl hpopped
          · simp [hfilled] at hfresh
      · have hitem : FrameKind.item ∈ state.kinds := by simp [hkinds, Frame.kind]
        exact .inr ⟨rfl, hitem⟩
  · exact h.imp id fun hitem => ⟨rfl, hitem.2⟩

private theorem loosened (h : state.Held) : BlockState.Held (if state.lastLineBlank then
    { state with
      frames := match state.frames with
        | frame :: outer :: more => frame :: outer.loosen :: more
        | frames => frames
      lastLineBlank := false }
    else state) := by
  split
  · exact h.of_eq (Frame.map_kind_of_sameContent (sameContent_loosened state.frames)) rfl
  · exact h

theorem finishList (h : state.Held) (stop : Nat) : (state.finishList stop).Held := by
  have hfinished := h.finishEmptyItem stop
  have hfilled : (state.finishEmptyItem stop).freshItem = false := rfl
  unfold BlockState.finishList
  simp only
  generalize state.finishEmptyItem stop = finished at hfinished hfilled ⊢
  split
  · next tight char number done outer hframes =>
      -- what ends here is a list, so the quote or the item is still open
      have hkinds := kinds_of_frames hframes
      have hpopped := kinds_pop finished stop
      refine loosened ?_
      rcases hfinished with hquote | ⟨-, hitem⟩
      · refine .inl ?_
        rw [hkinds] at hquote
        rw [hpopped, hkinds]
        simpa [Frame.kind] using hquote
      · refine .inr ⟨freshItem_pop hfilled stop, ?_⟩
        rw [hkinds] at hitem
        rw [hpopped, hkinds]
        simpa [Frame.kind] using hitem
  · exact hfinished.loosened

end Held

@[simp] theorem freshItem_finishList (state : BlockState) (stop : Nat) :
    (state.finishList stop).freshItem = false := by
  have hfilled : (state.finishEmptyItem stop).freshItem = false := rfl
  unfold finishList
  simp only
  split
  · split
    · exact freshItem_pop hfilled stop
    · exact freshItem_pop hfilled stop
  · split
    · exact hfilled
    · exact hfilled

@[simp] theorem freshItem_continueList (state : BlockState) (marker : ListMarker) (stop : Nat) :
    (state.continueList marker stop).freshItem = false := by
  have hstarted := freshItem_finishList (state.finishEmptyItem stop) stop
  unfold continueList
  simp only
  split
  · split
    · split
      · rfl
      · rfl
    · exact hstarted
  · exact hstarted

/-- An item that something follows on its line holds that. -/
theorem held_push_item (state : BlockState) (marker : ListMarker) (stop : Nat)
    (task nextTask : Option Bool) :
    ({ (state.continueList marker stop).push (.item marker.indent task []) with
      nextTask } : BlockState).Held :=
  .inr ⟨freshItem_continueList state marker stop, by simp [kinds, push, Frame.kind]⟩

theorem held_push_quote (state : BlockState) (start : Nat) : (state.push (.quote start [])).Held :=
  .inl (by simp [kinds, push, Frame.kind])

end BlockState

end DefinitionLists.Markdown
