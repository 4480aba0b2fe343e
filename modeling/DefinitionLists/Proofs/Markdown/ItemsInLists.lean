/-
Module: DefinitionLists.Proofs.Markdown.ItemsInLists
Purpose: Items stand in lists alone: no item is open but right inside a list, and so no block of a
  document is an item.
Main exports: BlockState.ItemsInLists, BlockState.ItemsInLists.move, BlockState.ItemsInLists.carried,
  item_not_mem_ofText
-/
import DefinitionLists.Proofs.Markdown.Moves

namespace DefinitionLists.Markdown

namespace BlockState

/-- Whether each open item is right inside of an open list, and no item is done outside of all
containers. -/
structure ItemsInLists (state : BlockState) : Prop where
  kinds : ∀ outer, FrameKind.item :: outer <:+ state.kinds → outer.head? = some .list
  done : ∀ task blocks, Block.item task blocks ∉ state.done

namespace ItemsInLists

variable {line : Line} {state next : BlockState}

theorem of_eq (h : state.ItemsInLists) (hk : next.kinds = state.kinds)
    (hd : next.done = state.done) : next.ItemsInLists := by
  refine ⟨?_, ?_⟩
  · rw [hk]
    exact h.kinds
  · rw [hd]
    exact h.done

theorem add (h : state.ItemsInLists) {block : Block}
    (hb : state.frames = [] → ∀ task blocks, block ≠ .item task blocks) :
    (state.add block).ItemsInLists := by
  refine ⟨?_, fun task blocks hm => ?_⟩
  · rw [kinds_add]
    exact h.kinds
  · unfold BlockState.add at hm
    split at hm
    · next hframes =>
        rcases List.mem_cons.1 hm with heq | hm
        · exact hb hframes task blocks heq.symm
        · exact h.done task blocks hm
    · exact h.done task blocks hm

/-- What is around an item that closes is a list, so the item does not end up outside of it. -/
theorem pop (h : state.ItemsInLists) (stop : Nat) : (state.pop stop).ItemsInLists := by
  unfold BlockState.pop
  split
  · exact h
  · next frame outer hframes =>
      have hkinds := kinds_of_frames hframes
      have houter : ({ state with frames := outer, freshItem := state.freshItem &&
          !frame.isTightList } : BlockState).ItemsInLists := by
        refine ⟨fun inner hinner => h.kinds inner ?_, h.done⟩
        rw [hkinds]
        exact hinner.trans (List.suffix_cons _ _)
      refine houter.add fun hnil task blocks hclose => ?_
      obtain rfl : outer = [] := hnil
      cases frame with
      | quote | list => cases hclose
      | item =>
          have hlist := h.kinds [] (by rw [hkinds]; exact List.suffix_rfl)
          cases hlist

/-- Opening a container that is no item. -/
theorem push (h : state.ItemsInLists) {frame : Frame} (hf : frame.kind ≠ .item) :
    (state.push frame).ItemsInLists := by
  refine ⟨fun outer houter => ?_, h.done⟩
  rcases List.suffix_cons_iff.1 houter with heq | hsuffix
  · exact absurd (List.cons.inj heq).1.symm hf
  · exact h.kinds outer hsuffix

/-- Opening an item right inside a list. -/
theorem push_item (h : state.ItemsInLists) (hl : state.kinds.head? = some .list) (indent : Nat)
    (task : Option Bool) (done : List Block) :
    (state.push (.item indent task done)).ItemsInLists := by
  refine ⟨fun outer houter => ?_, h.done⟩
  rcases List.suffix_cons_iff.1 houter with heq | hsuffix
  · rw [(List.cons.inj heq).2]
    exact hl
  · exact h.kinds outer hsuffix

/-- A move keeps items in lists. -/
theorem move (hm : Move line state next) (h : state.ItemsInLists) : next.ItemsInLists := by
  cases hm with
  | note hframes hdone _ => exact h.of_eq (Frame.map_kind_of_sameContent hframes) hdone
  | block hflat =>
      refine h.add fun _ task blocks hitem => ?_
      rw [hitem] at hflat
      cases hflat
  | paragraph =>
      have hclosed : ({ state with leaf := none } : BlockState).ItemsInLists := h.of_eq rfl rfl
      exact hclosed.add (by simp)
  | close _ => exact h.pop line.start
  | list | quote => exact h.push (by simp [Frame.kind])
  | item hlist => exact h.push_item hlist _ _ _

theorem carried (document : List Char) : Carried document (fun _ state => state.ItemsInLists) where
  start := ⟨by simp [BlockState.kinds], by simp⟩
  later _ h := h
  move _ := move
  text _ ha h := by
    cases ha with
    | intro => exact h.of_eq rfl rfl

end ItemsInLists

end BlockState

/-- No block of a document is an item. -/
theorem item_not_mem_ofText (tasks : Bool) (text : List Char) (task : Option Bool)
    (blocks : List Block) : Block.item task blocks ∉ (Document.ofText tasks text).blocks := by
  obtain ⟨state, hitems, hblocks⟩ := (BlockState.ItemsInLists.carried text).ofText tasks
  rw [hblocks, List.mem_reverse]
  exact hitems.done task blocks

end DefinitionLists.Markdown
