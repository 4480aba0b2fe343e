/-
Module: DefinitionLists.Proofs.Markdown.Nodes
Purpose: The tree of a document read off its blocks, without the events between the two.
Main exports: Inline.node, Dialect.addText, Block.node, Block.addAll, foldl_take_events,
  Block.addAll_branch, ofMarkdown_eq_branch, exists_paragraph_of_mem_ofMarkdown
-/
import DefinitionLists.Proofs.Heads

namespace DefinitionLists

open Markdown

namespace Node

@[simp] theorem absorb_branch (head : Branch) (children : List Node) (child : Node) :
    (Node.branch head children).absorb child = .branch head (pushChild children child) :=
  rfl

theorem foldl_absorb_branch (head : Branch) (own children : List Node) :
    children.foldl absorb (.branch head own) = .branch head (children.foldl pushChild own) := by
  induction children generalizing own with
  | nil => rfl
  | cons child more ih => exact ih (pushChild own child)

/-- A task mark changes no node but an item. -/
theorem check_of_tag {node : Node} (h : node.tag ≠ "listItem") (checked : Bool) :
    node.check checked = node := by
  unfold check
  split
  · exact absurd rfl h
  · rfl

theorem tag_of_isContainer {node : Node} {kind : Container} (h : node.isContainer kind = true) :
    node.tag = kind.tag := by
  unfold isContainer Branch.isContainer at h
  split at h
  · split at h
    · next kind' _ _ =>
        have hkind : kind = kind' := by simpa using h
        rw [hkind]
        rfl
    · cases h
  · cases h

/-! ### The kind of a node does not change while it is open -/

@[simp] theorem tag_absorb (node child : Node) : (node.absorb child).tag = node.tag := by
  fun_cases absorb node child <;> rfl

@[simp] theorem tag_check (node : Node) (checked : Bool) : (node.check checked).tag = node.tag := by
  unfold check
  split <;> rfl

@[simp] theorem tag_finish (node : Node) : node.finish.tag = node.tag := by
  unfold finish
  split <;> rfl

@[simp] theorem isContainer_finish (node : Node) (kind : Container) :
    node.finish.isContainer kind = node.isContainer kind := by
  fun_cases finish node <;> rfl

@[simp] theorem tag_foldl_absorb (node : Node) (children : List Node) :
    (children.foldl absorb node).tag = node.tag := by
  induction children generalizing node with
  | nil => rfl
  | cons child more ih => rw [List.foldl_cons, ih, tag_absorb]

end Node

/-- A text joins no sibling but a text, and other nodes join none. -/
theorem pushChild_of_tag {child : Node} (h : child.tag ≠ "text") (siblings : List Node) :
    pushChild siblings child = siblings ++ [child] := by
  fun_induction pushChild siblings child with
  | case1 child => rfl
  | case2 last value => exact absurd rfl h
  | case3 last child => rfl
  | case4 child first second rest ih => simp [ih h]

namespace Markdown

mutual

/-- The node that a part of running text is. -/
def Inline.node : Inline → Node
  | .text value => .text (String.ofList value)
  | .code value => .leaf (.inlineCode (String.ofList value))
  | .html value => .leaf (.html (String.ofList value))
  | .softBreak => .text "\n"
  | .hardBreak => .lineBreak
  | .span kind content => ((Inline.nodes content).foldl Node.absorb kind.opening.node).finish
  | .link target content =>
    ((Inline.nodes content).foldl Node.absorb
      (Opening.link (String.ofList target.url) (String.ofList target.title)).node).finish
  | .image target content =>
    ((Inline.nodes content).foldl Node.absorb
      (Opening.image (String.ofList target.url) (String.ofList target.title)).node).finish

/-- The nodes that parts of running text are. Texts side by side are not joined yet. -/
def Inline.nodes : List Inline → List Node
  | [] => []
  | part :: more => Inline.node part :: Inline.nodes more

end

theorem Inline.nodes_eq_map (parts : List Inline) : Inline.nodes parts = parts.map Inline.node := by
  induction parts with
  | nil => rw [Inline.nodes, List.map_nil]
  | cons part more ih => rw [Inline.nodes, ih, List.map_cons]

/-- The nodes of a paragraph's or heading's text. -/
def Dialect.textNodes (dialect : Dialect) (content : List Symbol) : List Node :=
  (Inline.ofSymbols dialect.deletions dialect.targets content).map Inline.node

/-- The node with a task mark and text in it. -/
def Dialect.addText (dialect : Dialect) (task : Option Bool) (content : List Symbol) (top : Node) :
    Node :=
  (dialect.textNodes content).foldl Node.absorb (task.elim top top.check)

/-- The task mark and the text of a paragraph that shows its text alone. -/
def Block.bareText? (bare : Bool) : Block → Option (Option Bool × List Symbol)
  | .paragraph _ task content => if bare then some (task, content) else none
  | _ => none

mutual

/-- The node that a block is, if it does not show its text alone. -/
def Block.node (dialect : Dialect) (bare : Bool) : Block → Node
  | .paragraph span task content =>
    (dialect.addText task content (Opening.paragraph span).node).finish
  | .heading level closed task content =>
    let text := dialect.addText task content (Opening.heading level.toUInt8).node
    (if closed then text.absorb (.text "") else text).finish
  | .quote span blocks => (Block.addAll dialect false blocks (Opening.quote span).node).finish
  | .list tight start items =>
    (Block.addAll dialect tight items (Opening.list (start.map Nat.toUInt64)).node).finish
  | .item task blocks =>
    (Block.addAll dialect bare blocks (task.elim Opening.item.node Opening.item.node.check)).finish
  | .code info text =>
    ((Opening.code (info.map String.ofList)).node.absorb (.text (String.ofList text))).finish
  | .html text => (Opening.html.node.absorb (.leaf (.html (String.ofList text)))).finish
  | .rule => .leaf .thematicBreak

/-- The node with blocks in it. -/
def Block.addAll (dialect : Dialect) (bare : Bool) : List Block → Node → Node
  | [], top => top
  | block :: more, top =>
    Block.addAll dialect bare more (match block.bareText? bare with
      | some (task, content) => dialect.addText task content top
      | none => top.absorb (Block.node dialect bare block))

end

/-! ### Events

The events of a part open and close nodes inside the innermost open one, and leave those around it
alone. -/

/-- What is put into a node that opens and closes is one child of the node around it. -/
theorem foldl_take_wrap {opening : Opening} {inner : List Event} {node : Node}
    (h : ∀ below, inner.foldl OpenNodes.take ⟨opening.node, below⟩ = ⟨node, below⟩) (top : Node)
    (below : List Node) :
    (Event.start opening :: inner ++ [Event.close]).foldl OpenNodes.take ⟨top, below⟩ =
      ⟨top.absorb node.finish, below⟩ := by
  rw [List.cons_append, List.foldl_cons, List.foldl_append]
  simp only [OpenNodes.take, h]
  rfl

mutual

/-- The events of a part add the part's node to the node that is open. -/
theorem foldl_take_inlineEvents : ∀ (part : Inline) (top : Node) (below : List Node),
    part.events.foldl OpenNodes.take ⟨top, below⟩ = ⟨top.absorb part.node, below⟩
  | .text value, top, below | .code value, top, below | .html value, top, below => rfl
  | .softBreak, top, below | .hardBreak, top, below => rfl
  | .span kind content, top, below | .link target content, top, below
  | .image target content, top, below => by
      rw [Inline.events, Inline.node]
      exact foldl_take_wrap (fun below => foldl_take_inlineEventsList content _ below) top below

theorem foldl_take_inlineEventsList : ∀ (parts : List Inline) (top : Node) (below : List Node),
    (Inline.eventsList parts).foldl OpenNodes.take ⟨top, below⟩ =
      ⟨(Inline.nodes parts).foldl Node.absorb top, below⟩
  | [], top, below => rfl
  | part :: more, top, below => by
      rw [Inline.eventsList, List.foldl_append, foldl_take_inlineEvents part,
        foldl_take_inlineEventsList more, Inline.nodes, List.foldl_cons]

end

theorem foldl_take_taskMark (task : Option Bool) (top : Node) (below : List Node) :
    (task.toList.map Event.taskMark).foldl OpenNodes.take ⟨top, below⟩ =
      ⟨task.elim top top.check, below⟩ := by
  cases task <;> rfl

theorem foldl_take_textEvents (dialect : Dialect) (task : Option Bool) (content : List Symbol)
    (top : Node) (below : List Node) :
    (dialect.textEvents task content).foldl OpenNodes.take ⟨top, below⟩ =
      ⟨dialect.addText task content top, below⟩ := by
  rw [Dialect.textEvents, List.foldl_append, foldl_take_taskMark, foldl_take_inlineEventsList,
    Inline.nodes_eq_map]
  rfl

mutual

/-- The events of a block that does not show its text alone add the block's node to the open one. -/
theorem foldl_take_events (dialect : Dialect) : ∀ (block : Block) {bare : Bool} (top : Node)
    (below : List Node), block.bareText? bare = none →
      (block.events dialect bare).foldl OpenNodes.take ⟨top, below⟩ =
        ⟨top.absorb (block.node dialect bare), below⟩
  | .paragraph span task content, bare, top, below, h => by
      have hb : bare = false := by
        cases bare
        · rfl
        · cases h
      subst hb
      rw [Block.events, Block.node]
      exact foldl_take_wrap (fun below => foldl_take_textEvents dialect task content _ below) top
        below
  | .heading level closed task content, bare, top, below, _ => by
      have htext := foldl_take_textEvents dialect task content (Opening.heading level.toUInt8).node
      rw [Block.events, Block.node]
      cases closed
      · exact foldl_take_wrap htext top below
      · have hclosed (below : List Node) :
            (dialect.textEvents task content ++ [Event.text ""]).foldl OpenNodes.take
              ⟨(Opening.heading level.toUInt8).node, below⟩ =
              ⟨(dialect.addText task content (Opening.heading level.toUInt8).node).absorb (.text ""),
                below⟩ := by
          rw [List.foldl_append, htext]
          rfl
        have hwrap := foldl_take_wrap hclosed top below
        rw [List.cons_append, List.append_assoc] at hwrap
        exact hwrap
  | .quote span blocks, bare, top, below, _ => by
      rw [Block.events, Block.node]
      exact foldl_take_wrap (fun below => foldl_take_eventsList dialect blocks _ below) top below
  | .list tight start items, bare, top, below, _ => by
      rw [Block.events, Block.node]
      exact foldl_take_wrap (fun below => foldl_take_eventsList dialect items _ below) top below
  | .item task blocks, bare, top, below, _ => by
      have hinner (below : List Node) :
          (task.toList.map Event.taskMark ++ Block.eventsList dialect bare blocks).foldl
            OpenNodes.take ⟨Opening.item.node, below⟩ =
            ⟨Block.addAll dialect bare blocks
              (task.elim Opening.item.node Opening.item.node.check), below⟩ := by
        rw [List.foldl_append, foldl_take_taskMark]
        exact foldl_take_eventsList dialect blocks _ below
      rw [Block.events, Block.node]
      exact foldl_take_wrap hinner top below
  | .code info text, bare, top, below, _ => by
      rw [Block.events, Block.node]
      rfl
  | .html text, bare, top, below, _ => by
      rw [Block.events, Block.node]
      rfl
  | .rule, bare, top, below, _ => by
      rw [Block.events, Block.node]
      rfl

theorem foldl_take_eventsList (dialect : Dialect) : ∀ (blocks : List Block) {bare : Bool}
    (top : Node) (below : List Node),
      (Block.eventsList dialect bare blocks).foldl OpenNodes.take ⟨top, below⟩ =
        ⟨Block.addAll dialect bare blocks top, below⟩
  | [], bare, top, below => by
      rw [Block.eventsList, Block.addAll]
      rfl
  | block :: more, bare, top, below => by
      have hmore := @foldl_take_eventsList dialect more bare
      rw [Block.eventsList, Block.addAll, List.foldl_append]
      split
      · next task content htext =>
          unfold Block.bareText? at htext
          split at htext
          · split at htext
            · next hbare =>
                cases htext
                rw [Block.events, if_pos hbare, foldl_take_textEvents, hmore]
            · cases htext
          · cases htext
      · next htext => rw [foldl_take_events dialect block top below htext, hmore]

end

/-! ### Blocks side by side -/

/-- A task mark counts for nothing in a node that is no item. -/
theorem Dialect.addText_branch (dialect : Dialect) (task : Option Bool) (content : List Symbol)
    {head : Branch} (h : head.tag ≠ "listItem") (children : List Node) :
    dialect.addText task content (.branch head children) =
      .branch head ((dialect.textNodes content).foldl pushChild children) := by
  have htag : (Node.branch head children).tag ≠ "listItem" := h
  have hcheck : task.elim (.branch head children) (Node.branch head children).check =
      .branch head children := by
    cases task with
    | none => rfl
    | some checked => exact Node.check_of_tag htag checked
  rw [Dialect.addText, hcheck, Node.foldl_absorb_branch]

theorem Block.node_paragraph (dialect : Dialect) (bare : Bool) (span : Span) (task : Option Bool)
    (content : List Symbol) : (Block.paragraph span task content).node dialect bare =
      .branch (.container .paragraph none (some span))
        ((dialect.textNodes content).foldl pushChild []) := by
  have htag : (Branch.container .paragraph none (some span)).tag ≠ "listItem" := by
    simp [Branch.tag, Container.tag]
  rw [Block.node, Opening.node, dialect.addText_branch task content htag]
  rfl

theorem Dialect.tag_addText (dialect : Dialect) (task : Option Bool) (content : List Symbol)
    (top : Node) : (dialect.addText task content top).tag = top.tag := by
  cases task <;> simp [Dialect.addText]

theorem Block.tag_addAll (dialect : Dialect) (bare : Bool) (blocks : List Block) (top : Node) :
    (Block.addAll dialect bare blocks top).tag = top.tag := by
  induction blocks generalizing top with
  | nil => rw [Block.addAll]
  | cons block more ih =>
      rw [Block.addAll, ih]
      split
      · exact dialect.tag_addText _ _ top
      · exact top.tag_absorb _

/-- The name of the node that a block is. -/
def Block.tag : Block → String
  | .paragraph _ _ _ => "paragraph"
  | .heading _ _ _ _ => "heading"
  | .quote _ _ => "blockquote"
  | .list _ _ _ => "list"
  | .item _ _ => "listItem"
  | .code _ _ => "code"
  | .html _ => "html"
  | .rule => "thematicBreak"

theorem Block.tag_node (dialect : Dialect) (bare : Bool) (block : Block) :
    (block.node dialect bare).tag = block.tag := by
  cases block with
  | paragraph span task content =>
      rw [Block.node, Node.tag_finish, Dialect.tag_addText]
      rfl
  | heading level closed task content =>
      rw [Block.node, Node.tag_finish]
      cases closed
      · exact Dialect.tag_addText _ _ _ _
      · rw [if_pos rfl, Node.tag_absorb, Dialect.tag_addText]
        rfl
  | quote span blocks | list tight start items =>
      rw [Block.node, Node.tag_finish, Block.tag_addAll]
      rfl
  | item task blocks =>
      rw [Block.node, Node.tag_finish, Block.tag_addAll]
      cases task <;> rfl
  | code info text | html text | rule =>
      rw [Block.node]
      rfl

/-- Blocks that do not show their text alone stand side by side in the node around them. -/
theorem Block.addAll_branch (dialect : Dialect) {bare : Bool} {blocks : List Block}
    (h : ∀ block ∈ blocks, block.bareText? bare = none) (head : Branch) (children : List Node) :
    Block.addAll dialect bare blocks (.branch head children) =
      .branch head (children ++ blocks.map (Block.node dialect bare)) := by
  induction blocks generalizing children with
  | nil => rw [Block.addAll, List.map_nil, List.append_nil]
  | cons block more ih =>
      have htext : (block.node dialect bare).tag ≠ "text" := by
        rw [Block.tag_node]
        cases block <;> simp [Block.tag]
      rw [Block.addAll, h block (by simp)]
      simp only [Node.absorb_branch]
      rw [pushChild_of_tag htext, ih (fun other ho => h other (by simp [ho]))]
      simp

/-- A text reads as a root over the nodes of its blocks. -/
theorem ofMarkdown_eq_branch (extended : Bool) (text : List Char) :
    Node.ofMarkdown extended text =
      .branch (.container .root none (some ⟨0, Text.byteLength text⟩))
        ((Document.ofText extended text).blocks.map
          (Block.node ⟨extended, (Document.ofText extended text).targets⟩ false)) := by
  have hbare : ∀ block ∈ (Document.ofText extended text).blocks, block.bareText? false = none := by
    intro block _
    cases block <;> rfl
  unfold Node.ofMarkdown Node.ofEvents Document.events
  simp only
  rw [foldl_take_eventsList, Block.addAll_branch _ hbare]
  rfl

/-- A paragraph directly below the root of a text is one of the document's, and has its position. -/
theorem exists_paragraph_of_mem_ofMarkdown {extended : Bool} {text : List Char} {node : Node}
    (h : node ∈ (Node.ofMarkdown extended text).children)
    (hp : node.isContainer .paragraph = true) :
    ∃ span task content children,
      Block.paragraph span task content ∈ (Document.ofText extended text).blocks ∧
        node = .branch (.container .paragraph none (some span)) children := by
  rw [ofMarkdown_eq_branch] at h
  obtain ⟨block, hblock, rfl⟩ := List.mem_map.1 h
  have htag : block.tag = "paragraph" := by
    rw [← Block.tag_node _ false, Node.tag_of_isContainer hp]
    rfl
  cases block with
  | paragraph span task content =>
      exact ⟨span, task, content, _, hblock, Block.node_paragraph _ _ _ _ _⟩
  | _ => simp [Block.tag] at htag

end Markdown

end DefinitionLists
