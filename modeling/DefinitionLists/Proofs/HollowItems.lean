/-
Module: DefinitionLists.Proofs.HollowItems
Purpose: Which items cleaning removes for being empty: those in which nothing but items stands. All
  other nodes stay in their order, and as they are but for what is below them.
Main exports: Node.isHollow, Node.without, removeEmptyItems_eq_without, Node.bare,
  removeEmptyItems_removes_hollow
-/
import DefinitionLists.Definition.Cleanup
import DefinitionLists.Proofs.FilledItems
import DefinitionLists.Proofs.Outline

namespace DefinitionLists

namespace Node

/-- Whether the node and all below it are list items. -/
def isHollow (node : Node) : Bool := node.preorder.all isListItem

mutual

/-- The node without those below it that are gone. -/
def without (gone : Node → Bool) : Node → Node
  | .leaf content => .leaf content
  | .branch head children => .branch head (withoutAmong gone children)

/-- The nodes that are not gone, each without those below it that are. -/
def withoutAmong (gone : Node → Bool) : List Node → List Node
  | [] => []
  | node :: more =>
    if gone node then withoutAmong gone more else without gone node :: withoutAmong gone more

end

/-- Filtering first and then going into what is left. -/
theorem withoutAmong_eq (gone : Node → Bool) (nodes : List Node) :
    withoutAmong gone nodes = (nodes.filter (fun node => !gone node)).map (without gone) := by
  induction nodes with
  | nil => rfl
  | cons node more ih =>
      rw [withoutAmong, ih, List.filter_cons]
      cases gone node with
      | true => rfl
      | false => rfl

theorem withoutAmong_eq_nil_iff {gone : Node → Bool} {nodes : List Node} :
    withoutAmong gone nodes = [] ↔ ∀ node ∈ nodes, gone node = true := by
  simp [withoutAmong_eq, List.filter_eq_nil_iff]

theorem isHollow_branch (head : Branch) (children : List Node) :
    (branch head children).isHollow = true ↔
      (branch head children).isListItem = true ∧ ∀ child ∈ children, child.isHollow = true := by
  simp [isHollow, preorder, preorderList_eq_flatMap, List.all_flatMap]

theorem isHollow_of_isList {node : Node} (h : node.isList = true) : node.isHollow = false := by
  obtain ⟨ordered, start, spread, hint, items, rfl⟩ := eq_list_of_isList h
  simp [isHollow, preorder, isListItem]

/-- Of a hollow node nothing is left but the node itself. -/
theorem without_of_isHollow {head : Branch} {children : List Node}
    (h : (branch head children).isHollow = true) :
    (branch head children).without isHollow = .branch head [] := by
  rw [without, withoutAmong_eq_nil_iff.2 ((isHollow_branch head children).1 h).2]

/-- An item has nothing left in it exactly if it was hollow. -/
theorem isEmpty_without_isHollow (node : Node) :
    ((node.without isHollow).isListItem && (node.without isHollow).children.isEmpty) =
      node.isHollow := by
  cases node with
  | leaf content => rfl
  | branch head children =>
      have hitem : ((branch head children).without isHollow).isListItem =
          (branch head children).isListItem := by
        cases head <;> rfl
      have hchildren : ((branch head children).without isHollow).children =
          withoutAmong isHollow children := rfl
      rw [Bool.eq_iff_iff, Bool.and_eq_true, hitem, hchildren, List.isEmpty_iff,
        withoutAmong_eq_nil_iff, isHollow_branch]

end Node

mutual

/-- What is removed for being empty is what is hollow. -/
theorem removeEmptyItems_eq_without :
    ∀ node : Node, (removeEmptyItems node).1 = node.without Node.isHollow
  | .leaf _ => rfl
  | .branch head children => by
      rw [removeEmptyItems, Node.without]
      exact congrArg (Node.branch head) (removeEmptyItemsAmong_eq_withoutAmong children)

theorem removeEmptyItemsAmong_eq_withoutAmong :
    ∀ nodes : List Node, (removeEmptyItemsAmong nodes).1 = Node.withoutAmong Node.isHollow nodes
  | [] => rfl
  | node :: more => by
      have hnode := removeEmptyItems_eq_without node
      have hmore := removeEmptyItemsAmong_eq_withoutAmong more
      have hempty := Node.isEmpty_without_isHollow node
      rw [removeEmptyItemsAmong, Node.withoutAmong]
      simp only [hnode, hempty]
      split
      · exact hmore
      · exact congrArg (node.without Node.isHollow :: ·) hmore

end

/-! ### What goes and what stays, node by node -/

namespace Node

/-- The node without all that is below it. -/
def bare : Node → Node
  | .leaf content => .leaf content
  | .branch head _ => .branch head []

/-- All that is below a hollow node is hollow. -/
theorem isHollow_of_mem_preorder {node inner : Node} (h : node.isHollow = true)
    (hi : inner ∈ node.preorder) : inner.isHollow = true := by
  cases node with
  | leaf content => cases h
  | branch head children =>
      rcases mem_preorder_branch.1 hi with rfl | ⟨child, hchild, hi⟩
      · exact h
      · exact isHollow_of_mem_preorder (((isHollow_branch head children).1 h).2 child hchild) hi

/-- A node counts itself besides the hollow nodes below it. -/
theorem countP_isHollow_preorder (node : Node) : node.preorder.countP isHollow =
    (preorderList node.children).countP isHollow + (if node.isHollow then 1 else 0) := by
  cases node with
  | leaf content => rfl
  | branch head children => rw [preorder, List.countP_cons, Node.children]

mutual

/-- The nodes that are left are those that are not hollow, in their order. -/
theorem map_bare_preorder_without : ∀ {node : Node}, node.isHollow = false →
    (node.without isHollow).preorder.map bare =
      (node.preorder.filter (fun inner => !inner.isHollow)).map bare
  | .leaf _, _ => rfl
  | .branch head children, h => by
      have hchildren := map_bare_preorderList_withoutAmong children
      rw [without, preorder, preorder, List.filter_cons_of_pos (by simp [h]), List.map_cons,
        List.map_cons, hchildren]
      rfl

/-- Seen without children, the nodes that are left are those that are not hollow, in the same order. -/
theorem map_bare_preorderList_withoutAmong : ∀ nodes : List Node,
    (preorderList (withoutAmong isHollow nodes)).map bare =
      ((preorderList nodes).filter (fun inner => !inner.isHollow)).map bare
  | [] => rfl
  | node :: more => by
      have hmore := map_bare_preorderList_withoutAmong more
      rw [withoutAmong, preorderList, List.filter_append, List.map_append]
      split
      · next hgone =>
          have hnone : node.preorder.filter (fun inner => !inner.isHollow) = [] := by
            refine List.filter_eq_nil_iff.2 fun inner hi => ?_
            simp [isHollow_of_mem_preorder hgone hi]
          rw [hnone, hmore, List.map_nil, List.nil_append]
      · next hkept =>
          have hnode := map_bare_preorder_without (Bool.eq_false_iff.2 hkept)
          rw [preorderList, List.map_append, hnode, hmore]

end

end Node

mutual

/-- Each hollow node below the top is counted. -/
theorem snd_removeEmptyItems : ∀ node : Node,
    (removeEmptyItems node).2 = (Node.preorderList node.children).countP Node.isHollow
  | .leaf _ => rfl
  | .branch _ children => snd_removeEmptyItemsAmong children

/-- As many items are removed as there are hollow ones: with a hollow item go all below it, and they
count. -/
theorem snd_removeEmptyItemsAmong : ∀ nodes : List Node,
    (removeEmptyItemsAmong nodes).2 = (Node.preorderList nodes).countP Node.isHollow
  | [] => rfl
  | node :: more => by
      have hnode := snd_removeEmptyItems node
      have hmore := snd_removeEmptyItemsAmong more
      have hempty := Node.isEmpty_without_isHollow node
      rw [removeEmptyItemsAmong, Node.preorderList, List.countP_append,
        Node.countP_isHollow_preorder]
      simp only [removeEmptyItems_eq_without, hempty]
      split <;> omega

end

/-- Removing empty items takes away the nodes below the top in which nothing but items stands, each of
which counts; what is inside of them goes with them. All other nodes stay, in their order and with all
that they say themselves. No item below the top is left without children, so that doing it again finds
none to remove. -/
theorem removeEmptyItems_removes_hollow (tree : Node) :
    (removeEmptyItems tree).1 = tree.without Node.isHollow ∧
      (removeEmptyItems tree).1.bare = tree.bare ∧
      (Node.preorderList (removeEmptyItems tree).1.children).map Node.bare =
        ((Node.preorderList tree.children).filter (fun node => !node.isHollow)).map Node.bare ∧
      (removeEmptyItems tree).2 = (Node.preorderList tree.children).countP Node.isHollow ∧
      (removeEmptyItems tree).1.Filled ∧
      removeEmptyItems (removeEmptyItems tree).1 = ((removeEmptyItems tree).1, 0) := by
  have hfilled := Node.filled_removeEmptyItems tree
  refine ⟨removeEmptyItems_eq_without tree, ?_, ?_, snd_removeEmptyItems tree, hfilled,
    Node.removeEmptyItems_of_filled hfilled⟩
  · cases tree <;> rfl
  · rw [removeEmptyItems_eq_without]
    cases tree with
    | leaf content => rfl
    | branch head children => exact Node.map_bare_preorderList_withoutAmong children

/-- An item that holds an empty list stays; the nodes are counted one by one. -/
example : removeEmptyItems (.bulletList [.branch (.listItem false none none)
      [.branch (.listItem false none none) []],
    .branch (.listItem false none none) [.bulletList [.branch (.listItem false none none) []]]]) =
    (.bulletList [.branch (.listItem false none none) [.bulletList []]], 3) := by
  decide +kernel

end DefinitionLists
