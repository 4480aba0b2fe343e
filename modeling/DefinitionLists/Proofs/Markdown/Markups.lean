/-
Module: DefinitionLists.Proofs.Markdown.Markups
Purpose: The links, images and code in running text and in the trees of documents. Unless blanks count,
  code is told by its words, and the text of an image by its characters that are not blank.
Main exports: Markup, Node.markups, Node.collects_markups, Inline.markups, Inline.markups_node,
  Block.texts, Block.collects_markups, flatMap_markups_ofMarkdown
-/
import DefinitionLists.Proofs.Markdown.Collected
import DefinitionLists.Proofs.Markdown.Pairing
import DefinitionLists.Proofs.Words

namespace DefinitionLists

open Text (lettered lettered_append lettered_lettered lettered_worded worded)

/-- A link, an image, or code within a line of text. -/
inductive Markup where
  | link (url : String) (title : Option String)
  | image (url : String) (title : Option String) (alt : List Char)
  | code (value : List Char)
deriving Repr, DecidableEq

/-- The link that a node with children is. -/
def Branch.markup? : Branch → Option Markup
  | .link url title => some (.link url title)
  | _ => none

/-- The image or code that a leaf is. -/
def Leaf.markup? (blanks : Bool) : Leaf → Option Markup
  | .image url title alt => some (.image url title (lettered blanks alt.toList))
  | .inlineCode value => some (.code (worded blanks value.toList))
  | _ => none

namespace Node

variable (blanks : Bool)

/-- The link, image or code that a node is. -/
def markup? : Node → Option Markup
  | .branch head _ => head.markup?
  | .leaf content => content.markup? blanks

/-- The links, images and code in a tree, in document order. -/
def markups (node : Node) : List Markup := node.preorder.filterMap (markup? blanks)

@[simp] theorem markups_leaf (content : Leaf) :
    (Node.leaf content).markups blanks = (content.markup? blanks).toList := by
  cases h : content.markup? blanks <;> simp [markups, preorder, markup?, h]

@[simp] theorem markups_branch (head : Branch) (children : List Node) :
    (Node.branch head children).markups blanks =
      head.markup?.toList ++ children.flatMap (markups blanks) := by
  rw [markups, preorder, preorderList_eq_flatMap, List.filterMap_cons, List.filterMap_flatMap]
  cases h : head.markup? <;> simp [markup?, h] <;> rfl

theorem collects_markups : Collects (fun head => head.markup?.toList) (markups blanks) where
  branch := markups_branch blanks
  unlinked {head} h := by
    cases head with
    | link url title => exact absurd rfl (h url title)
    | _ => rfl
  text _ _ := rfl

end Node

namespace Markdown

/-! ### Running text -/

namespace Inline

mutual

/-- The text of a part without its markup. -/
def plain : Inline → List Char
  | .text value | .code value | .html value => value
  | .softBreak => ['\n']
  | .hardBreak => []
  | .span _ content | .link _ content | .image _ content => plainIn content

/-- The text of parts without their markup. -/
def plainIn : List Inline → List Char
  | [] => []
  | part :: more => part.plain ++ plainIn more

end

section Pressed

variable (blanks : Bool)

mutual

/-- The part with its code and raw HTML told up to blanks, unless these count. -/
def pressed : Inline → Inline
  | .code value => .code (worded blanks value)
  | .html value => .html (lettered blanks value)
  | .span kind content => .span kind (pressedIn content)
  | .link target content => .link target (pressedIn content)
  | .image target content => .image target (pressedIn content)
  | part => part

/-- The parts with their code and raw HTML told up to blanks, unless these count. -/
def pressedIn : List Inline → List Inline
  | [] => []
  | part :: more => pressed part :: pressedIn more

end

mutual

/-- The links, images and code in a part whose code is told as it should be. -/
def pressedMarkups : Inline → List Markup
  | .code value => [.code value]
  | .span _ content => pressedMarkupsIn content
  | .link target content =>
    .link (String.ofList target.url) (nonEmptyTitle (String.ofList target.title)) ::
      pressedMarkupsIn content
  | .image target content =>
    [.image (String.ofList target.url) (nonEmptyTitle (String.ofList target.title))
      (lettered blanks (plainIn content))]
  | .text _ | .html _ | .softBreak | .hardBreak => []

/-- The links, images and code in parts whose code is told as it should be. -/
def pressedMarkupsIn : List Inline → List Markup
  | [] => []
  | part :: more => pressedMarkups part ++ pressedMarkupsIn more

end

/-- The links, images and code in a part. -/
def markups (part : Inline) : List Markup := (part.pressed blanks).pressedMarkups blanks

theorem pressedIn_eq_map (parts : List Inline) : pressedIn blanks parts = parts.map (pressed blanks) := by
  induction parts with
  | nil => rw [pressedIn, List.map_nil]
  | cons part more ih => rw [pressedIn, ih, List.map_cons]

theorem pressedMarkupsIn_eq_flatMap (parts : List Inline) :
    pressedMarkupsIn blanks parts = parts.flatMap (pressedMarkups blanks) := by
  induction parts with
  | nil => rw [pressedMarkupsIn, List.flatMap_nil]
  | cons part more ih => rw [pressedMarkupsIn, ih, List.flatMap_cons]

theorem pressedMarkupsIn_pressedIn (parts : List Inline) :
    pressedMarkupsIn blanks (pressedIn blanks parts) = parts.flatMap (markups blanks) := by
  rw [pressedMarkupsIn_eq_flatMap, pressedIn_eq_map, List.flatMap_map]
  rfl

theorem keepsSpans_pressed : KeepsSpans (pressed blanks) where
  text value := by rw [pressed]; all_goals simp
  span kind content := by rw [pressed, pressedIn_eq_map]

/-- Emphasis adds no markup to that of its content. -/
theorem seesThroughSpans_markups : SeesThroughSpans (markups blanks) where
  text value := by rw [markups, (keepsSpans_pressed blanks).text, pressedMarkups]
  span kind content := by
    rw [markups, pressed, pressedMarkups, pressedMarkupsIn_pressedIn]

mutual

/-- Pressing changes no letter of a text. -/
theorem lettered_plain_pressed : ∀ part : Inline,
    lettered blanks (part.pressed blanks).plain = lettered blanks part.plain
  | .text _ | .softBreak | .hardBreak => by
      rw [pressed]
      all_goals simp
  | .code value => by
      rw [pressed, plain, plain, lettered_worded]
  | .html value => by
      rw [pressed, plain, plain, lettered_lettered]
  | .span _ content | .link _ content | .image _ content => by
      rw [pressed, plain, plain, lettered_plainIn_pressedIn content]

theorem lettered_plainIn_pressedIn : ∀ parts : List Inline,
    lettered blanks (plainIn (pressedIn blanks parts)) = lettered blanks (plainIn parts)
  | [] => by rw [pressedIn]
  | part :: more => by
      rw [pressedIn, plainIn, plainIn, lettered_append, lettered_append, lettered_plain_pressed part,
        lettered_plainIn_pressedIn more]

end

end Pressed

mutual

/-- The plain text of a node is that of the part it was made from. -/
theorem plainText_node : ∀ part : Inline, part.node.plainText.toList = part.plain
  | .text _ | .code _ | .html _ | .softBreak | .hardBreak => by
      rw [node, plain]
      simp [Node.plainText, Node.leafText]
  | .span kind content => by
      obtain ⟨container, heq⟩ := node_span kind content
      rw [heq, plain, Node.plainText, Node.plainTexts_foldl_pushChild, plainTexts_nodes content]
      rintro _ _ _ ⟨⟩
  | .link target content => by
      rw [node_link, plain, Node.plainText, Node.plainTexts_foldl_pushChild, plainTexts_nodes content]
      rintro _ _ _ ⟨⟩
  | .image target content => by
      rw [node_image, plain, Node.plainText, Node.leafText, plainTexts_nodes content]

theorem plainTexts_nodes : ∀ parts : List Inline, (Node.plainTexts (nodes parts)).toList = plainIn parts
  | [] => by
      rw [nodes, plainIn]
      rfl
  | part :: more => by
      rw [nodes, plainIn, Node.plainTexts, String.toList_append, plainText_node part,
        plainTexts_nodes more]

end

variable (blanks : Bool)

mutual

/-- The tree of a part has its markup, and no other. -/
theorem markups_node : ∀ part : Inline, part.node.markups blanks = part.markups blanks
  | .text _ | .html _ | .softBreak | .hardBreak => by
      rw [node, Inline.markups, pressed]
      all_goals simp [pressedMarkups, Leaf.markup?]
  | .code value => by
      rw [node, Inline.markups, pressed, pressedMarkups, Node.markups_leaf]
      simp [Leaf.markup?]
  | .span kind content => by
      obtain ⟨container, heq⟩ := node_span kind content
      rw [heq, (seesThroughSpans_markups blanks).span, Node.markups_branch,
        Node.flatMap_foldl_pushChild (Node.collects_markups blanks).text, flatMap_markups_nodes content]
      rfl
  | .link target content => by
      rw [node_link, Inline.markups, pressed, pressedMarkups, pressedMarkupsIn_pressedIn,
        Node.markups_branch, Node.flatMap_foldl_pushChild (Node.collects_markups blanks).text,
        flatMap_markups_nodes content]
      rfl
  | .image target content => by
      rw [node_image, Inline.markups, pressed, pressedMarkups, lettered_plainIn_pressedIn,
        ← plainTexts_nodes content, Node.markups_leaf]
      rfl

/-- The trees of parts have their markup, and no other. -/
theorem flatMap_markups_nodes : ∀ parts : List Inline,
    (nodes parts).flatMap (Node.markups blanks) = parts.flatMap (markups blanks)
  | [] => by
      rw [nodes]
      rfl
  | part :: more => by
      rw [nodes, List.flatMap_cons, List.flatMap_cons, markups_node part, flatMap_markups_nodes more]

end

end Inline

/-! ### Documents -/

/-- The links, images and code in a text that is read. -/
def Dialect.markups (dialect : Dialect) (blanks : Bool) (content : List Symbol) : List Markup :=
  (Inline.ofSymbols dialect.deletions dialect.targets content).flatMap (Inline.markups blanks)

namespace Block

mutual

/-- The running texts in a block, those of paragraphs and headings, in order. -/
def texts : Block → List (List Symbol)
  | .paragraph _ _ content => [content]
  | .heading _ _ _ content => [content]
  | .quote _ blocks => textsIn blocks
  | .list _ _ items => textsIn items
  | .item _ blocks => textsIn blocks
  | .code _ _ | .html _ | .rule => []

/-- The running texts in blocks, in order. -/
def textsIn : List Block → List (List Symbol)
  | [] => []
  | block :: more => block.texts ++ textsIn more

end

end Block

/-- The trees made from a running text have the markup read in it. -/
theorem Dialect.flatMap_markups_textNodes (dialect : Dialect) (blanks : Bool) (content : List Symbol) :
    (dialect.textNodes content).flatMap (Node.markups blanks) = dialect.markups blanks content := by
  rw [textNodes, ← Inline.nodes_eq_map, Inline.flatMap_markups_nodes]
  rfl

theorem Block.flatMap_textsIn {α : Type} (read : List Symbol → List α) (blocks : List Block) :
    (Block.textsIn blocks).flatMap read = blocks.flatMap fun block => block.texts.flatMap read := by
  induction blocks with
  | nil => rfl
  | cons block more ih => rw [textsIn, List.flatMap_append, ih, List.flatMap_cons]

/-- The markup in a document is that of its running texts. -/
theorem Block.collects_markups (dialect : Dialect) (blanks : Bool) :
    Block.Collects dialect (Node.markups blanks)
      fun block => block.texts.flatMap (dialect.markups blanks) where
  paragraph span task content := by
    rw [texts, List.flatMap_singleton, Dialect.flatMap_markups_textNodes]
  heading level closed task content := by
    rw [texts, List.flatMap_singleton, Dialect.flatMap_markups_textNodes]
  quote span blocks := by rw [texts, flatMap_textsIn]
  list tight start items := by rw [texts, flatMap_textsIn]
  item task blocks := by rw [texts, flatMap_textsIn]
  code info text := by
    rw [node]
    rfl
  html text := by
    rw [node]
    rfl
  rule := by
    rw [node]
    rfl

/-- The tree of a block has the markup of its running texts. -/
theorem Block.markups_node (dialect : Dialect) (blanks bare : Bool) (block : Block) :
    (block.node dialect bare).markups blanks = block.texts.flatMap (dialect.markups blanks) :=
  (Block.collects_markups dialect blanks).held_node (Node.collects_markups blanks) bare block

/-- The running texts of a document, in order. -/
def Document.texts (document : Document) : List (List Symbol) := Block.textsIn document.blocks

/-- The tree of a text has the markup of the running texts in its document, and no other. -/
theorem flatMap_markups_ofMarkdown (blanks extended : Bool) (text : List Char) :
    (Node.ofMarkdown extended text).children.flatMap (Node.markups blanks) =
      (Document.ofText extended text).texts.flatMap
        (Dialect.markups ⟨extended, (Document.ofText extended text).targets⟩ blanks) := by
  rw [Document.texts, Block.flatMap_textsIn]
  exact (Block.collects_markups _ blanks).flatMap_ofMarkdown (Node.collects_markups blanks)

end Markdown

end DefinitionLists
