/-
Module: DefinitionLists.Proofs.Markdown.Collected
Purpose: What the tree of a document holds of one kind, such as its code or its links, read off the blocks
  of the document.
Main exports: Node.flatMap_wrapInlineRuns, Node.Collects, Inline.node_span, Inline.node_link,
  Inline.node_image, Block.Collects, Block.Collects.held_node, Block.Collects.flatMap_ofMarkdown
-/
import DefinitionLists.Proofs.Markdown.Nodes
import DefinitionLists.Proofs.Node.Text

namespace DefinitionLists

open Markdown

variable {α : Type} {own : Branch → List α} {held : Node → List α}

/-! ### In trees -/

namespace Node

/-- What nodes hold stays when texts are joined, if texts that are joined hold the same together. -/
theorem flatMap_pushChild
    (h : ∀ first second, held (.text (first ++ second)) = held (.text first) ++ held (.text second))
    (siblings : List Node) (child : Node) :
    (pushChild siblings child).flatMap held = siblings.flatMap held ++ held child := by
  fun_induction pushChild siblings child with
  | case1 child => simp
  | case2 last value => simp [h]
  | case3 last child => simp
  | case4 first second rest child ih =>
      rw [List.flatMap_cons, ih, ← List.append_assoc, ← List.flatMap_cons]

/-- Joining texts changes nothing about what they hold. -/
theorem flatMap_foldl_pushChild
    (h : ∀ first second, held (.text (first ++ second)) = held (.text first) ++ held (.text second))
    (siblings children : List Node) :
    (children.foldl pushChild siblings).flatMap held =
      siblings.flatMap held ++ children.flatMap held := by
  induction children generalizing siblings with
  | nil => simp
  | cons child more ih =>
      rw [List.foldl_cons, ih, flatMap_pushChild h, List.flatMap_cons, List.append_assoc]

/-- What nodes hold stays when runs of them go into paragraphs, if these hold what is in them. -/
theorem flatMap_wrapInlineRuns
    (h : ∀ first second, held (.text (first ++ second)) = held (.text first) ++ held (.text second))
    (hp : ∀ run, held (.paragraph run) = run.flatMap held) (run nodes : List Node) :
    (wrapInlineRuns run nodes).flatMap held = run.flatMap held ++ nodes.flatMap held := by
  have hrun (run : List Node) :
      (if run.isEmpty then [] else [paragraph run]).flatMap held = run.flatMap held := by
    split
    · next hempty => rw [List.isEmpty_iff.1 hempty]
    · rw [List.flatMap_singleton, hp]
  fun_induction wrapInlineRuns run nodes with
  | case1 run hempty => simp [List.isEmpty_iff.1 hempty]
  | case2 run hne => simp [hp]
  | case3 run node more hjoins ih =>
      rw [ih, flatMap_pushChild h, List.flatMap_cons, List.append_assoc]
  | case4 run node more hjoins ih =>
      rw [List.flatMap_append, hrun, List.flatMap_cons, ih, List.flatMap_cons, List.flatMap_nil,
        List.nil_append]

/-- Whether what trees hold is collected from their nodes in document order. Of the nodes with children
only links hold anything of their own, and texts hold the same when they are joined. -/
structure Collects (own : Branch → List α) (held : Node → List α) : Prop where
  branch (head : Branch) (children : List Node) :
    held (.branch head children) = own head ++ children.flatMap held
  unlinked {head : Branch} (h : ∀ url title, head ≠ .link url title) : own head = []
  text (first second : String) :
    held (.text (first ++ second)) = held (.text first) ++ held (.text second)

namespace Collects

/-- An empty text holds nothing: joined to itself it is itself. -/
theorem text_empty (hc : Collects own held) : held (.text "") = [] := by
  have htwice : held (.text "") = held (.text "") ++ held (.text "") := hc.text "" ""
  exact List.append_right_eq_self.1 htwice.symm

theorem branch_of_unlinked (hc : Collects own held) {head : Branch}
    (h : ∀ url title, head ≠ .link url title) (children : List Node) :
    held (.branch head children) = children.flatMap held := by
  rw [hc.branch, hc.unlinked h, List.nil_append]

/-- Nothing is lost when nothing more goes into a node. -/
theorem held_finish (hc : Collects own held) (head : Branch) (children : List Node) :
    held (Node.branch head children).finish = held (.branch head children) := by
  cases head with
  | listItem spread checked hint =>
      have hwrapped := flatMap_wrapInlineRuns hc.text (hc.branch_of_unlinked (by simp)) [] children
      rw [finish, hc.branch_of_unlinked (by simp), hc.branch_of_unlinked (by simp), hwrapped,
        List.flatMap_nil, List.nil_append]
  | list ordered start spread hint =>
      rw [finish, hc.branch_of_unlinked (by simp), hc.branch_of_unlinked (by simp)]
  | _ => rfl

end Collects

/-! ### Plain text -/

theorem plainTexts_foldl_pushChild (nodes : List Node) :
    (plainTexts (nodes.foldl pushChild [])).toList = (plainTexts nodes).toList := by
  rw [toList_plainTexts, toList_plainTexts]
  exact flatMap_foldl_pushChild (fun first second => by simp [plainText, leafText]) [] nodes

/-- The text of an image takes up the texts of the nodes that go into it. -/
theorem foldl_absorb_image (nodes : List Node) (url : String) (title : Option String) (alt : String) :
    nodes.foldl absorb (.leaf (.image url title alt)) =
      .leaf (.image url title (alt ++ plainTexts nodes)) := by
  induction nodes generalizing alt with
  | nil => simp [plainTexts]
  | cons node more ih => rw [List.foldl_cons, absorb, ih, plainTexts, String.append_assoc]

end Node

namespace Markdown

/-! ### Running text -/

namespace Inline

/-- What opens for a span or a link takes up the nodes in it. -/
theorem node_span (kind : SpanKind) (content : List Inline) :
    ∃ container, (Inline.span kind content).node =
      .branch (.container container none none) ((nodes content).foldl pushChild []) := by
  rw [node]
  cases kind <;> exact ⟨_, congrArg Node.finish (Node.foldl_absorb_branch _ _ _)⟩

/-- A link is a node with its text in it; an empty title is none. -/
theorem node_link (target : Target) (content : List Inline) : (Inline.link target content).node =
    .branch (.link (String.ofList target.url) (nonEmptyTitle (String.ofList target.title)))
      ((nodes content).foldl pushChild []) := by
  rw [node]
  exact congrArg Node.finish (Node.foldl_absorb_branch _ _ _)

theorem node_image (target : Target) (content : List Inline) : (Inline.image target content).node =
    .leaf (.image (String.ofList target.url) (nonEmptyTitle (String.ofList target.title))
      (Node.plainTexts (nodes content))) := by
  rw [node, Opening.node, Node.foldl_absorb_image, String.empty_append]
  rfl

end Inline

/-! ### Documents -/

/-- Whether what is read off blocks is what their trees hold: in running text what its nodes hold, in a
block with blocks in it what these have, and in other blocks what their nodes hold. -/
structure Block.Collects (dialect : Dialect) (held : Node → List α) (read : Block → List α) : Prop where
  paragraph (span : Span) (task : Option Bool) (content : List Symbol) :
    read (.paragraph span task content) = (dialect.textNodes content).flatMap held
  heading (level : Nat) (closed : Bool) (task : Option Bool) (content : List Symbol) :
    read (.heading level closed task content) = (dialect.textNodes content).flatMap held
  quote (span : Span) (blocks : List Block) : read (.quote span blocks) = blocks.flatMap read
  list (tight : Bool) (start : Option Nat) (items : List Block) :
    read (.list tight start items) = items.flatMap read
  item (task : Option Bool) (blocks : List Block) : read (.item task blocks) = blocks.flatMap read
  code (info : Option (List Char)) (text : List Char) :
    read (.code info text) = held ((Block.code info text).node dialect false)
  html (text : List Char) : read (.html text) = held ((Block.html text).node dialect false)
  rule : read .rule = held (Block.rule.node dialect false)

namespace Block

/-- Only a paragraph in a tight list stands bare, as its text. -/
theorem exists_of_bareText {bare : Bool} {block : Block} {task : Option Bool} {content : List Symbol}
    (h : block.bareText? bare = some (task, content)) :
    ∃ span, block = .paragraph span task content := by
  cases bare with
  | false => cases block <;> cases h
  | true =>
      cases block with
      | paragraph span =>
          cases h
          exact ⟨span, rfl⟩
      | _ => cases h

variable {dialect : Dialect} {read : Block → List α}

/-- Text adds what its nodes hold, and a task mark adds nothing. -/
theorem exists_addText (hc : Node.Collects own held) (dialect : Dialect) (task : Option Bool)
    (content : List Symbol) (head : Branch) (children : List Node) :
    ∃ head' children', dialect.addText task content (.branch head children) = .branch head' children' ∧
      own head' = own head ∧ children'.flatMap held =
        children.flatMap held ++ (dialect.textNodes content).flatMap held := by
  have hchecked : ∃ head', task.elim (.branch head children) (Node.branch head children).check =
      .branch head' children ∧ own head' = own head := by
    cases task with
    | none => exact ⟨head, rfl, rfl⟩
    | some checked =>
        cases head with
        | listItem spread checked hint =>
            exact ⟨_, rfl, (hc.unlinked (by simp)).trans (hc.unlinked (by simp)).symm⟩
        | _ => exact ⟨_, rfl, rfl⟩
  obtain ⟨head', heq, hown⟩ := hchecked
  refine ⟨head', _, by rw [Dialect.addText, heq, Node.foldl_absorb_branch], hown, ?_⟩
  exact Node.flatMap_foldl_pushChild hc.text _ _

mutual

/-- The tree of a block holds what is read off the block. -/
theorem Collects.held_node (hb : Collects dialect held read) (hc : Node.Collects own held) (bare : Bool) :
    ∀ block : Block, held (block.node dialect bare) = read block
  | .paragraph span task content => by
      obtain ⟨head, children, heq, hown, hall⟩ :=
        exists_addText hc dialect task content (.container .paragraph none (some span)) []
      rw [node, Opening.node, heq, hc.held_finish, hc.branch, hown, hall, hc.unlinked (by simp),
        hb.paragraph]
      rfl
  | .heading level closed task content => by
      obtain ⟨head, children, heq, hown, hall⟩ :=
        exists_addText hc dialect task content (.heading level.toUInt8) []
      have hplain : held (.branch head children) = (dialect.textNodes content).flatMap held := by
        rw [hc.branch, hown, hall, hc.unlinked (by simp)]
        rfl
      rw [node, Opening.node, heq, hb.heading, ← hplain]
      cases closed
      · exact hc.held_finish head children
      · -- the number signs after a heading add an empty text, which holds nothing
        simp only [if_true]
        rw [Node.absorb_branch, hc.held_finish, hc.branch, Node.flatMap_pushChild hc.text,
          hc.text_empty, List.append_nil, hc.branch]
  | .quote span blocks => by
      obtain ⟨head, children, heq, hown, hall⟩ := Collects.exists_addAll hb hc false blocks
        (.container .blockquote none (some span)) []
      rw [node, Opening.node, heq, hc.held_finish, hc.branch, hown, hall, hc.unlinked (by simp),
        hb.quote]
      rfl
  | .list tight start items => by
      obtain ⟨head, children, heq, hown, hall⟩ := Collects.exists_addAll hb hc tight items
        (.list (start.map Nat.toUInt64).isSome (start.map Nat.toUInt64) false none) []
      rw [node, Opening.node, heq, hc.held_finish, hc.branch, hown, hall, hc.unlinked (by simp),
        hb.list]
      rfl
  | .item task blocks => by
      obtain ⟨head, children, heq, hown, hall⟩ := Collects.exists_addAll hb hc bare blocks
        (.listItem false task none) []
      have htask : task.elim Opening.item.node Opening.item.node.check =
          .branch (.listItem false task none) [] := by
        cases task <;> rfl
      rw [node, htask, heq, hc.held_finish, hc.branch, hown, hall, hc.unlinked (by simp), hb.item]
      rfl
  | .code info text => by
      rw [hb.code, node, node]
  | .html text => by
      rw [hb.html, node, node]
  | .rule => by
      rw [hb.rule, node, node]

/-- Blocks go one after another into the open node, which is of the same kind then. -/
theorem Collects.exists_addAll (hb : Collects dialect held read) (hc : Node.Collects own held)
    (bare : Bool) : ∀ (blocks : List Block) (head : Branch) (children : List Node),
      ∃ head' children', addAll dialect bare blocks (.branch head children) = .branch head' children' ∧
        own head' = own head ∧
        children'.flatMap held = children.flatMap held ++ blocks.flatMap read
  | [], head, children => ⟨head, children, by rw [addAll], rfl, (List.append_nil _).symm⟩
  | block :: more, head, children => by
      rw [addAll, List.flatMap_cons, ← List.append_assoc]
      split
      · next task content hbare =>
          obtain ⟨head', children', heq, hown, hall⟩ :=
            exists_addText hc dialect task content head children
          obtain ⟨head'', children'', hmore, hown', hall'⟩ :=
            Collects.exists_addAll hb hc bare more head' children'
          refine ⟨head'', children'', by rw [heq, hmore], hown'.trans hown, ?_⟩
          obtain ⟨span, rfl⟩ := exists_of_bareText hbare
          rw [hall', hall, hb.paragraph]
      · obtain ⟨head'', children'', hmore, hown, hall⟩ := Collects.exists_addAll hb hc bare more head
          (pushChild children (block.node dialect bare))
        refine ⟨head'', children'', by rw [Node.absorb_branch, hmore], hown, ?_⟩
        rw [hall, Node.flatMap_pushChild hc.text, Collects.held_node hb hc bare block]

end

/-- The tree of a text holds what is read off the blocks of its document. -/
theorem Collects.flatMap_ofMarkdown {extended : Bool} {text : List Char}
    (hb : Collects ⟨extended, (Document.ofText extended text).targets⟩ held read)
    (hc : Node.Collects own held) : (Node.ofMarkdown extended text).children.flatMap held =
      (Document.ofText extended text).blocks.flatMap read := by
  rw [ofMarkdown_eq_branch, Node.children, List.flatMap_map]
  congr 1
  funext block
  exact hb.held_node hc false block

end Block

end Markdown

end DefinitionLists
