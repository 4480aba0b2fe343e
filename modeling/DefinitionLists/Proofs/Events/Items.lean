/-
Module: DefinitionLists.Proofs.Events.Items
Purpose: The shape of the trees that events build, whether these are well nested or not: texts are never
  side by side, the items of lists hold blocks alone, and a list is spread if a paragraph opens in one
  of its items.
Main exports: WrapsRuns, Node.IsRegular, EventTree.itemsIn, EventTree.flatMap_items_nodesIn,
  Node.isRegular_ofEvents
-/
import Mathlib.Data.List.Chain
import DefinitionLists.Proofs.Events.Nesting

namespace DefinitionLists

open Markdown

namespace Node

/-- Whether the node is a text leaf. -/
def isText : Node → Bool
  | .text _ => true
  | _ => false

theorem exists_of_isText {node : Node} (h : node.isText = true) : ∃ value, node = .text value := by
  unfold isText at h
  split at h
  · exact ⟨_, rfl⟩
  · cases h

/-- At most one of two neighbours is a text. -/
def TextsApart (first second : Node) : Prop := first.isText = true → second.isText = false

end Node

open Node (TextsApart isText)

/-! ### Children that are added one by one -/

section PushChild

variable {siblings : List Node} {child : Node}

/-- What goes in stays, apart from texts that are joined. -/
theorem forall_mem_pushChild {holds : Node → Prop} (ht : ∀ value, holds (.text value))
    (hs : ∀ node ∈ siblings, holds node) (hc : holds child) :
    ∀ node ∈ pushChild siblings child, holds node := by
  fun_induction pushChild siblings child with
  | case1 child => simpa using hc
  | case2 last value => simpa using ht _
  | case3 last child => simpa using ⟨hs last (by simp), hc⟩
  | case4 first second rest child ih =>
      rw [List.forall_mem_cons] at hs ⊢
      exact ⟨hs.1, ih hs.2 hc⟩

/-- Joining texts makes texts, so that what holds of all texts still holds. -/
theorem forall_mem_foldl_pushChild {holds : Node → Prop} {nodes : List Node}
    (ht : ∀ value, holds (.text value)) (hs : ∀ node ∈ siblings, holds node)
    (hn : ∀ node ∈ nodes, holds node) : ∀ node ∈ nodes.foldl pushChild siblings, holds node := by
  induction nodes generalizing siblings with
  | nil => exact hs
  | cons node more ih =>
      rw [List.forall_mem_cons] at hn
      exact ih (forall_mem_pushChild ht hs hn.1) hn.2

theorem any_foldl_pushChild {p : Node → Bool} (h : ∀ value, p (.text value) = false)
    (siblings nodes : List Node) :
    (nodes.foldl pushChild siblings).any p = (siblings.any p || nodes.any p) := by
  have hpush (siblings : List Node) (child : Node) :
      (pushChild siblings child).any p = (siblings.any p || p child) := by
    fun_induction pushChild siblings child with
    | case1 child => simp
    | case2 last value => simp [h]
    | case3 last child => simp
    | case4 first second rest child ih => simp only [List.any_cons, ih, Bool.or_assoc]
  induction nodes generalizing siblings with
  | nil => simp
  | cons node more ih => rw [List.foldl_cons, ih, hpush, List.any_cons, Bool.or_assoc]

/-- A child that is no neighbour of a text, or no text, goes after its siblings. -/
theorem pushChild_of_isChain (h : (siblings ++ [child]).IsChain TextsApart) :
    pushChild siblings child = siblings ++ [child] := by
  fun_induction pushChild siblings child with
  | case1 child => rfl
  | case2 last value =>
      obtain ⟨hfirst, -⟩ := List.isChain_cons_cons.1 h
      cases hfirst rfl
  | case3 last child => rfl
  | case4 first second rest child ih =>
      rw [ih (List.isChain_cons.1 h).2]
      rfl

/-- The first sibling remains the first, and a text if it was one. -/
theorem exists_pushChild_cons (first : Node) (rest : List Node) (child : Node) :
    ∃ first' rest', pushChild (first :: rest) child = first' :: rest' ∧ first'.isText = first.isText := by
  generalize hsiblings : first :: rest = siblings
  fun_cases pushChild siblings child with
  | case1 => cases hsiblings
  | case2 last value =>
      cases hsiblings
      exact ⟨_, _, rfl, rfl⟩
  | case3 | case4 =>
      cases hsiblings
      exact ⟨first, _, rfl, rfl⟩

/-- Texts are kept apart when children are added one by one. -/
theorem isChain_pushChild (h : siblings.IsChain TextsApart) (child : Node) :
    (pushChild siblings child).IsChain TextsApart := by
  fun_induction pushChild siblings child with
  | case1 child => exact .singleton child
  | case2 last value => exact .singleton _
  | case3 last child hjoin =>
      refine List.isChain_cons_cons.2 ⟨fun hlast => ?_, .singleton child⟩
      refine Bool.eq_false_iff.2 fun hchild => ?_
      obtain ⟨first, rfl⟩ := Node.exists_of_isText hlast
      obtain ⟨second, rfl⟩ := Node.exists_of_isText hchild
      exact hjoin first second rfl rfl
  | case4 first second rest child ih =>
      obtain ⟨hfirst, hrest⟩ := List.isChain_cons_cons.1 h
      obtain ⟨second', rest', heq, hsecond⟩ := exists_pushChild_cons second rest child
      rw [heq] at ih ⊢
      refine List.isChain_cons_cons.2 ⟨fun htext => ?_, ih hrest⟩
      rw [hsecond]
      exact hfirst htext

/-- A text that comes after a text joins it, so that no two are side by side. -/
theorem isChain_foldl_pushChild (h : siblings.IsChain TextsApart) (nodes : List Node) :
    (nodes.foldl pushChild siblings).IsChain TextsApart := by
  induction nodes generalizing siblings with
  | nil => exact h
  | cons node more ih => exact ih (isChain_pushChild h node)

end PushChild

/-! ### Runs in items -/

theorem joinsRun_eq_false_iff {node : Node} : joinsRun node = false ↔
    node.isInline = false ∧ ∀ value, node ≠ .leaf (.html value) := by
  fun_cases joinsRun node with
  | case1 value => simp
  | case2 node hhtml => exact ⟨fun h => ⟨h, hhtml⟩, And.left⟩

/-- The second list has the nodes of the first one in their places. Of those that join a run each longest
run is in a paragraph of its own, in order. -/
inductive WrapsRuns : (nodes wrapped : List Node) → Prop where
  | nil : WrapsRuns [] []
  | block {node : Node} {more wrapped : List Node} (stays : joinsRun node = false)
      (rest : WrapsRuns more wrapped) : WrapsRuns (node :: more) (node :: wrapped)
  | run {run more wrapped : List Node} (filled : run ≠ []) (joins : ∀ node ∈ run, joinsRun node = true)
      (longest : ∀ node ∈ more.head?, joinsRun node = false) (rest : WrapsRuns more wrapped) :
      WrapsRuns (run ++ more) (.paragraph run :: wrapped)

/-- Where no two texts are side by side, putting a run together joins nothing in it. -/
theorem wrapsRuns_wrapInlineRuns {run nodes : List Node} (h : (run ++ nodes).IsChain TextsApart)
    (hr : ∀ node ∈ run, joinsRun node = true) :
    WrapsRuns (run ++ nodes) (wrapInlineRuns run nodes) := by
  induction nodes generalizing run with
  | nil =>
      unfold wrapInlineRuns
      split
      · next hempty =>
          rw [List.isEmpty_iff.1 hempty]
          exact .nil
      · next hfilled => exact .run (fun hempty => hfilled (by rw [hempty]; rfl)) hr (by simp) .nil
  | cons node more ih =>
      unfold wrapInlineRuns
      -- the node joins the run that is put together, or ends it
      split
      · next hjoins =>
          rw [← List.singleton_append, ← List.append_assoc] at h ⊢
          rw [pushChild_of_isChain h.left_of_append]
          exact ih h (by simpa [or_imp, forall_and] using ⟨hr, hjoins⟩)
      · next hstays =>
          have hblock : joinsRun node = false := Bool.eq_false_iff.2 hstays
          have hmore := WrapsRuns.block hblock
            (@ih [] (List.isChain_cons.1 h.right_of_append).2 (by simp))
          split
          · next hempty =>
              rw [List.isEmpty_iff.1 hempty]
              exact hmore
          · next hfilled =>
              exact .run (fun hempty => hfilled (by rw [hempty]; rfl)) hr (by simpa using hblock) hmore

namespace WrapsRuns

variable {nodes wrapped : List Node}

theorem joinsRun_eq_false (h : WrapsRuns nodes wrapped) : ∀ node ∈ wrapped, joinsRun node = false := by
  induction h with
  | nil => simp
  | block stays _ ih => exact List.forall_mem_cons.2 ⟨stays, ih⟩
  | run _ _ _ _ ih => exact List.forall_mem_cons.2 ⟨rfl, ih⟩

/-- Where no node joins a run, none is a text. -/
theorem isChain (h : WrapsRuns nodes wrapped) : wrapped.IsChain TextsApart := by
  have hblocks := h.joinsRun_eq_false
  clear h
  induction wrapped with
  | nil => exact .nil
  | cons node more ih =>
      obtain ⟨hnode, hmore⟩ := List.forall_mem_cons.1 hblocks
      refine List.isChain_cons.2 ⟨fun next _ htext => ?_, ih hmore⟩
      obtain ⟨value, rfl⟩ := Node.exists_of_isText htext
      cases hnode

end WrapsRuns

/-! ### What every node keeps to -/

/-- What is true of the children of each node that events build. -/
structure Node.IsRegular (node : Node) : Prop where
  /-- No two texts are side by side. -/
  apart : node.children.IsChain TextsApart
  /-- The children of an item are neither inline nor raw HTML. -/
  blocks : node.isListItem = true →
    ∀ child ∈ node.children, child.isInline = false ∧ ∀ value, child ≠ .leaf (.html value)
  /-- A list is spread if one of its items is. -/
  spread : ∀ ordered start spread hint items, node = .branch (.list ordered start spread hint) items →
    (spread = true ↔ ∃ item ∈ items, item.isSpreadItem = true)

namespace Node

/-- Of the nodes that are neither lists nor items nothing is asked but that texts are apart. -/
theorem isRegular_of_isChain {node : Node} (h : node.children.IsChain TextsApart)
    (hl : node.isList = false) (hi : node.isListItem = false) : node.IsRegular := by
  refine ⟨h, fun hitem => ?_, fun ordered start spread hint items heq => ?_⟩
  · rw [hi] at hitem
    cases hitem
  · rw [heq] at hl
    cases hl

theorem isRegular_of_mem_leaf (content : Leaf) :
    ∀ inner ∈ (Node.leaf content).preorder, inner.IsRegular := by
  rw [preorder, List.forall_mem_singleton]
  exact isRegular_of_isChain .nil rfl rfl

end Node

/-- Paragraphs around runs are regular if the nodes in them are. -/
theorem WrapsRuns.isRegular {nodes wrapped : List Node} (h : WrapsRuns nodes wrapped)
    (hc : nodes.IsChain TextsApart) (hn : ∀ node ∈ nodes, ∀ inner ∈ node.preorder, inner.IsRegular) :
    ∀ node ∈ wrapped, ∀ inner ∈ node.preorder, inner.IsRegular := by
  induction h with
  | nil => simp
  | block _ _ ih =>
      rw [List.forall_mem_cons] at hn ⊢
      exact ⟨hn.1, ih (List.isChain_cons.1 hc).2 hn.2⟩
  | run _ _ _ _ ih =>
      rw [List.forall_mem_append] at hn
      rw [List.forall_mem_cons]
      refine ⟨?_, ih hc.right_of_append hn.2⟩
      rw [Node.paragraph, Node.plain, Node.forall_mem_preorder_branch]
      exact ⟨Node.isRegular_of_isChain hc.left_of_append rfl rfl, hn.1⟩

namespace Node

/-- A node is regular once it is closed if those in it are, and texts are apart there. -/
theorem isRegular_finish (head : Branch) {children : List Node} (hc : children.IsChain TextsApart)
    (hn : ∀ child ∈ children, ∀ inner ∈ child.preorder, inner.IsRegular) :
    ∀ inner ∈ (branch head children).finish.preorder, inner.IsRegular := by
  cases head with
  | listItem spread checked hint =>
      have hwraps : WrapsRuns children (wrapInlineRuns [] children) :=
        @wrapsRuns_wrapInlineRuns [] children hc (by simp)
      rw [finish, forall_mem_preorder_branch]
      refine ⟨⟨hwraps.isChain, fun _ child hchild => ?_, fun _ _ _ _ _ heq => by cases heq⟩,
        hwraps.isRegular hc hn⟩
      exact joinsRun_eq_false_iff.1 (hwraps.joinsRun_eq_false child hchild)
  | list ordered start spread hint =>
      rw [finish, forall_mem_preorder_branch]
      refine ⟨⟨hc, fun hitem => (by cases hitem), fun _ _ _ _ items heq => ?_⟩, hn⟩
      cases heq
      exact List.any_eq_true
  | _ => exact forall_mem_preorder_branch.2 ⟨isRegular_of_isChain hc rfl rfl, hn⟩

theorem isRegular_finish_leaf (content : Leaf) :
    ∀ inner ∈ (leaf content).finish.preorder, inner.IsRegular := by
  have hleaf : ∃ content', (leaf content).finish = .leaf content' := by
    cases content <;> exact ⟨_, rfl⟩
  obtain ⟨content', heq⟩ := hleaf
  rw [heq]
  exact isRegular_of_mem_leaf content'

end Node

namespace Markdown.EventTree

theorem isRegular_of_node? {event : Event} {node : Node} (h : event.node? = some node) :
    ∀ inner ∈ node.preorder, inner.IsRegular := by
  cases event with
  | footnoteReference | inlineMath | displayMath =>
      cases h
      rw [Node.ofValue, Node.forall_mem_preorder_branch]
      exact ⟨Node.isRegular_of_isChain .nil rfl rfl, by simp⟩
  | start | close | taskMark => cases h
  | _ =>
      cases h
      exact Node.isRegular_of_mem_leaf _

mutual

/-- All that events build is regular. -/
theorem isRegular_of_mem_nodes : ∀ (tree : EventTree), ∀ node ∈ tree.nodes,
    ∀ inner ∈ node.preorder, inner.IsRegular
  | .single event _, node, hn => by
      rw [nodes, Option.mem_toList] at hn
      exact isRegular_of_node? hn
  | .nest opening content, node, hn => by
      have hchain := @isChain_foldl_pushChild [] .nil (nodesIn content)
      have hinner := @forall_mem_foldl_pushChild [] _ (nodesIn content)
        (fun value => Node.isRegular_of_mem_leaf _) (by simp) (isRegular_of_mem_nodesIn content)
      rw [nodes, List.mem_singleton] at hn
      rw [hn]
      cases hholds : opening.holdsNodes with
      | false =>
          obtain ⟨leaf, heq, -⟩ :=
            Opening.exists_holding_of_not_holdsNodes hholds (marks content) (nodesIn content)
          rw [heq]
          exact Node.isRegular_finish_leaf leaf
      | true =>
          obtain ⟨head, heq, -⟩ :=
            Opening.exists_holding_of_holdsNodes hholds (marks content) (nodesIn content)
          rw [heq]
          exact Node.isRegular_finish head hchain hinner

/-- All nodes that events build are regular, at any depth. -/
theorem isRegular_of_mem_nodesIn : ∀ (trees : List EventTree), ∀ node ∈ nodesIn trees,
    ∀ inner ∈ node.preorder, inner.IsRegular
  | [], node, hn => by cases hn
  | tree :: more, node, hn => by
      rw [nodesIn, List.mem_append] at hn
      rcases hn with hn | hn
      · exact isRegular_of_mem_nodes tree node hn
      · exact isRegular_of_mem_nodesIn more node hn

end

end Markdown.EventTree

/-! ### Items -/

namespace Node

/-- The items in a tree, each before those in it. -/
def items (tree : Node) : List Node := tree.preorder.filter isListItem

theorem items_branch (head : Branch) (children : List Node) : (branch head children).items =
    [branch head children].filter isListItem ++ children.flatMap items := by
  rw [items, preorder, preorderList_eq_flatMap, ← List.singleton_append, List.filter_append,
    List.filter_flatMap]
  rfl

/-- Closing a node that is no item leaves the items in it alone. -/
theorem items_finish {head : Branch} (h : (branch head []).tag ≠ "listItem") (children : List Node) :
    (branch head children).finish.items = children.flatMap items := by
  cases head with
  | listItem => exact absurd rfl h
  | list =>
      rw [finish, items_branch]
      rfl
  | _ => exact items_branch _ children

end Node

/-- What opens is of the same kind with nodes in it. -/
theorem Markdown.Opening.isContainer_holding (opening : Opening) (marks : List Bool) (nodes : List Node)
    (kind : Container) : (opening.holding marks nodes).isContainer kind =
      opening.node.isContainer kind := by
  cases hholds : opening.holdsNodes with
  | false =>
      obtain ⟨content, hnode, -⟩ := exists_node_of_not_holdsNodes hholds
      obtain ⟨content', heq, -⟩ := exists_holding_of_not_holdsNodes hholds marks nodes
      rw [hnode, heq]
      rfl
  | true =>
      by_cases hitem : opening = .item
      · rw [hitem, holding_item]
        rfl
      · obtain ⟨head, hnode, htag, -⟩ := exists_node_of_holdsNodes hholds hitem
        rw [holding_of_node hnode htag, hnode]
        rfl

namespace Markdown.EventTree

/-- Whether the part is a paragraph. -/
def isParagraph : EventTree → Bool
  | .nest (.paragraph _) _ => true
  | _ => false

mutual

/-- What is in each item that opens in a part, in the order in which they open. Code, raw HTML and images
have no items in them, but the texts of these. -/
def items : EventTree → List (List EventTree)
  | .single _ _ => []
  | .nest opening inner =>
    if opening.holdsNodes then
      if opening = .item then inner :: itemsIn inner else itemsIn inner
    else []

/-- What is in each item that opens in parts. -/
def itemsIn : List EventTree → List (List EventTree)
  | [] => []
  | tree :: more => tree.items ++ itemsIn more

end

theorem itemsIn_append (first second : List EventTree) :
    itemsIn (first ++ second) = itemsIn first ++ itemsIn second := by
  induction first with
  | nil => rfl
  | cons tree more ih => rw [List.cons_append, itemsIn, ih, itemsIn, List.append_assoc]

/-- The item that holds what the parts build. -/
def itemNode (inner : List EventTree) : Node := (Opening.item.holding (marks inner) (nodesIn inner)).finish

theorem any_isContainer_nodes (tree : EventTree) :
    tree.nodes.any (Node.isContainer .paragraph) = tree.isParagraph := by
  cases tree with
  | single event plain =>
      rw [nodes]
      cases event <;> rfl
  | nest opening inner =>
      rw [nodes, List.any_cons, List.any_nil, Bool.or_false, Node.isContainer_finish,
        opening.isContainer_holding]
      cases opening <;> rfl

/-- An item is spread if a paragraph opens directly in it. -/
theorem itemNode_eq (inner : List EventTree) : itemNode inner =
    .branch (.listItem (inner.any isParagraph) (marks inner).getLast? none)
      (wrapInlineRuns [] ((nodesIn inner).foldl pushChild [])) := by
  have hnodes : (nodesIn inner).any (Node.isContainer .paragraph) = inner.any isParagraph := by
    induction inner with
    | nil => rfl
    | cons tree more ih => rw [nodesIn, List.any_append, ih, any_isContainer_nodes, List.any_cons]
  rw [itemNode, Opening.holding_item, Node.finish, any_foldl_pushChild (fun value => rfl), hnodes,
    List.any_nil, Bool.false_or]

/-- An item, and then the items in what it holds; paragraphs around its texts add none. -/
theorem items_itemNode (inner : List EventTree) : (itemNode inner).items =
    itemNode inner :: ((nodesIn inner).foldl pushChild []).flatMap Node.items := by
  rw [itemNode_eq, Node.items_branch,
    Node.flatMap_wrapInlineRuns (fun first second => rfl) (Node.items_branch _)]
  rfl

mutual

/-- The items in what events build are those that open, each with what is in it. -/
theorem flatMap_items_nodes : ∀ tree : EventTree,
    tree.nodes.flatMap Node.items = tree.items.map itemNode
  | .single event plain => by
      rw [nodes, items]
      cases event <;> rfl
  | .nest opening inner => by
      have hbelow : ((nodesIn inner).foldl pushChild []).flatMap Node.items =
          (itemsIn inner).map itemNode := by
        rw [Node.flatMap_foldl_pushChild (fun first second => rfl), flatMap_items_nodesIn inner]
        rfl
      rw [nodes, items, List.flatMap_singleton]
      cases hholds : opening.holdsNodes with
      | false =>
          -- code, raw HTML and images become leaves, and keep no items
          obtain ⟨leaf, heq, -⟩ :=
            Opening.exists_holding_of_not_holdsNodes hholds (marks inner) (nodesIn inner)
          rw [heq]
          cases leaf <;> rfl
      | true =>
          by_cases hitem : opening = .item
          · subst hitem
            rw [if_pos rfl, if_pos rfl, List.map_cons, ← hbelow]
            exact items_itemNode inner
          · obtain ⟨head, hnode, htag, -⟩ := Opening.exists_node_of_holdsNodes hholds hitem
            rw [Opening.holding_of_node hnode htag, Node.items_finish htag, hbelow]
            simp [hitem]

theorem flatMap_items_nodesIn : ∀ trees : List EventTree,
    (nodesIn trees).flatMap Node.items = (itemsIn trees).map itemNode
  | [] => rfl
  | tree :: more => by
      rw [nodesIn, itemsIn, List.flatMap_append, List.map_append, flatMap_items_nodes tree,
        flatMap_items_nodesIn more]

end

/-- What an item is, seen from what is in it. -/
structure Fills (inner : List EventTree) (item : Node) : Prop where
  /-- The item is spread if a paragraph opens directly in it. -/
  spread : item.isSpreadItem = true ↔ ∃ span content, .nest (.paragraph span) content ∈ inner
  /-- Of the nodes that are built in the item, runs are wrapped in paragraphs. -/
  wraps : WrapsRuns ((nodesIn inner).foldl pushChild []) item.children

theorem any_isParagraph {inner : List EventTree} :
    inner.any isParagraph = true ↔ ∃ span content, .nest (.paragraph span) content ∈ inner := by
  rw [List.any_eq_true]
  constructor
  · rintro ⟨tree, htree, hparagraph⟩
    unfold isParagraph at hparagraph
    split at hparagraph
    · exact ⟨_, _, htree⟩
    · cases hparagraph
  · rintro ⟨span, content, htree⟩
    exact ⟨_, htree, rfl⟩

/-- An item is seen right from what is in it. -/
theorem fills_itemNode (inner : List EventTree) : Fills inner (itemNode inner) := by
  rw [itemNode_eq]
  exact ⟨any_isParagraph, @wrapsRuns_wrapInlineRuns [] _ (isChain_foldl_pushChild .nil _) (by simp)⟩

end Markdown.EventTree

namespace Node

open EventTree

theorem items_ofEvents (length : Nat) (trees : List EventTree) :
    (ofEvents length (eventsList trees)).items = (itemsIn trees).map itemNode := by
  rw [ofEvents_eventsList, items_branch, flatMap_foldl_pushChild (fun first second => rfl),
    flatMap_items_nodesIn]
  rfl

theorem isRegular_of_mem_ofEvents (length : Nat) (trees : List EventTree) :
    ∀ node ∈ (ofEvents length (eventsList trees)).preorder, node.IsRegular := by
  rw [ofEvents_eventsList]
  have hinner := @forall_mem_foldl_pushChild [] _ (nodesIn trees)
    (fun value => isRegular_of_mem_leaf _) (by simp) (isRegular_of_mem_nodesIn trees)
  exact forall_mem_preorder_branch.2
    ⟨isRegular_of_isChain (isChain_foldl_pushChild .nil (nodesIn trees)) rfl rfl, hinner⟩

/-- Whatever the events are, no node of the tree has two texts side by side, items have no inline nodes
and no raw HTML as children, and lists are spread if one of their items is. The items of the tree are
those that open, one by one and in order, when the events are completed to well nested ones: each is spread
if a paragraph opens directly in it, and keeps its nodes in place, with runs in paragraphs. -/
theorem isRegular_ofEvents (length : Nat) (events : List Event) :
    (∀ node ∈ (ofEvents length events).preorder, node.IsRegular) ∧
      ∃ trees, Event.complete 0 events = eventsList trees ∧
        List.Forall₂ Fills (itemsIn trees) (ofEvents length events).items := by
  obtain ⟨trees, htrees⟩ := exists_complete_eq events
  rw [← ofEvents_complete, htrees]
  refine ⟨isRegular_of_mem_ofEvents length trees, trees, rfl, ?_⟩
  rw [items_ofEvents, List.forall₂_map_right_iff, List.forall₂_same]
  exact fun inner _ => fills_itemNode inner

end Node

end DefinitionLists
