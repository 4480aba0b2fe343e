/-
Module: DefinitionLists.Proofs.Markdown.Codes
Purpose: The blocks of code in a document, while it is read and in its tree.
Main exports: Block.codes, BlockState.codes, Document.codes, Document.fencedValues, Node.codeValues,
  codeValues_ofMarkdown
-/
import DefinitionLists.Proofs.Markdown.Collected

namespace DefinitionLists

namespace Markdown

/-! ### Code -/

/-- A block of code: its info string, unless its indentation marks it, and its text. -/
abbrev Code := Option (List Char) × List Char

mutual

/-- The blocks of code in a block, in order. -/
def Block.codes : Block → List Code
  | .code info text => [(info, text)]
  | .quote _ blocks => Block.codesIn blocks
  | .list _ _ items => Block.codesIn items
  | .item _ blocks => Block.codesIn blocks
  | .paragraph .. | .heading .. | .html _ | .rule => []

/-- The blocks of code in blocks, in order. -/
def Block.codesIn : List Block → List Code
  | [] => []
  | block :: more => block.codes ++ Block.codesIn more

end

theorem Block.codesIn_append (first second : List Block) :
    Block.codesIn (first ++ second) = Block.codesIn first ++ Block.codesIn second := by
  induction first with
  | nil => rfl
  | cons block more ih => rw [List.cons_append, codesIn, codesIn, ih, List.append_assoc]

/-- The blocks of code that are done in a container. -/
def Frame.codes : Frame → List Code
  | .quote _ done | .list _ _ _ done | .item _ _ done => Block.codesIn done.reverse

theorem Frame.codes_add (block : Block) (frame : Frame) :
    (frame.add block).codes = frame.codes ++ block.codes := by
  cases frame <;> simp [add, codes, Block.codesIn_append, Block.codesIn]

theorem Frame.codes_close (stop : Nat) (frame : Frame) : (frame.close stop).codes = frame.codes := by
  cases frame <;> rfl

/-- The value that a block of code has in a tree. -/
def Code.value (code : Code) : List Char := Node.dropLineFeed code.2

/-- The blocks of code in a document, in order. -/
def Document.codes (document : Document) : List Code := Block.codesIn document.blocks

/-- The values of the blocks of fenced code in a document, in order. -/
def Document.fencedValues (document : Document) : List (List Char) :=
  document.codes.filterMap fun code => code.1.map fun _ => code.value

/-! ### While a document is read -/

namespace BlockState

/-- The blocks of code that are done. -/
def codes (state : BlockState) : List Code :=
  Block.codesIn state.done.reverse ++ (state.frames.map Frame.codes).reverse.flatten

/-- A block that is done comes after the code of all blocks before it, in whichever container. -/
theorem codes_add (state : BlockState) (block : Block) :
    (state.add block).codes = state.codes ++ block.codes := by
  unfold add
  split
  · next heq => simp [codes, heq, Block.codesIn_append, Block.codesIn]
  · next frame outer heq => simp [codes, heq, Frame.codes_add]

/-- Paragraphs and headings are no code, so what they hold has no part in it. -/
theorem codes_addParagraph (state : BlockState) (lines : List TextLine) (heading : Option Nat) :
    (state.addParagraph lines heading).codes = state.codes := by
  unfold addParagraph
  simp only
  split
  · rw [codes_add]
    cases heading <;> exact List.append_nil _
  · rfl

/-- Closing a container moves its code from the container to the block, in the same order. -/
theorem codes_pop (state : BlockState) (stop : Nat) : (state.pop stop).codes = state.codes := by
  unfold pop
  split
  · rfl
  · next frame outer heq =>
      rw [codes_add, Frame.codes_close]
      simp [codes, heq]

theorem codes_popMany (stop count : Nat) (state : BlockState) :
    (popMany stop count state).codes = state.codes := by
  induction count generalizing state with
  | zero => rfl
  | succ count ih => rw [popMany, ih, codes_pop]

end BlockState

end Markdown

/-! ### In trees -/

open Markdown

namespace Node

mutual

/-- The values of the blocks of code in a tree, in order. -/
def codeValues : Node → List (List Char)
  | .leaf (.code _ value) => [value.toList]
  | .leaf _ => []
  | .branch _ children => codeValuesIn children

/-- The values of the blocks of code in trees, in order. -/
def codeValuesIn : List Node → List (List Char)
  | [] => []
  | node :: more => node.codeValues ++ codeValuesIn more

end

theorem codeValuesIn_eq_flatMap (nodes : List Node) : codeValuesIn nodes = nodes.flatMap codeValues := by
  induction nodes with
  | nil => rfl
  | cons node more ih => rw [codeValuesIn, ih, List.flatMap_cons]

theorem collects_codeValues : Collects (fun _ => []) codeValues where
  branch head children := by rw [codeValues, codeValuesIn_eq_flatMap, List.nil_append]
  unlinked _ := rfl
  text _ _ := rfl

end Node

namespace Markdown

theorem Inline.codeValues_branch {content : List Inline}
    (h : (Inline.nodes content).flatMap Node.codeValues = []) (head : Branch) :
    (Node.branch head ((Inline.nodes content).foldl pushChild [])).codeValues = [] := by
  rw [Node.collects_codeValues.branch, Node.flatMap_foldl_pushChild Node.collects_codeValues.text, h]
  rfl

mutual

/-- Running text holds no code that is a block. -/
theorem Inline.codeValues_node : ∀ part : Inline, (Inline.node part).codeValues = []
  | .text _ | .code _ | .html _ | .softBreak | .hardBreak => by
      rw [Inline.node]
      rfl
  | .span kind content => by
      obtain ⟨container, heq⟩ := Inline.node_span kind content
      rw [heq]
      exact Inline.codeValues_branch (Inline.codeValues_nodes content) _
  | .link target content => by
      rw [Inline.node_link]
      exact Inline.codeValues_branch (Inline.codeValues_nodes content) _
  | .image target content => by
      rw [Inline.node_image]
      rfl

/-- Code in running text is no block of code. -/
theorem Inline.codeValues_nodes : ∀ parts : List Inline,
    (Inline.nodes parts).flatMap Node.codeValues = []
  | [] => by
      rw [Inline.nodes]
      rfl
  | part :: more => by
      rw [Inline.nodes, List.flatMap_cons, Inline.codeValues_node part, Inline.codeValues_nodes more]
      rfl

end

/-- The values of the code in blocks, block by block. -/
theorem Block.map_value_codesIn (blocks : List Block) : (Block.codesIn blocks).map Code.value =
    blocks.flatMap fun block => block.codes.map Code.value := by
  induction blocks with
  | nil => rfl
  | cons block more ih => rw [codesIn, List.map_append, ih, List.flatMap_cons]

/-- The blocks of code in a document are those in its tree. -/
theorem Block.collects_codes (dialect : Dialect) :
    Block.Collects dialect Node.codeValues fun block => block.codes.map Code.value where
  paragraph span task content := by
    rw [Dialect.textNodes, ← Inline.nodes_eq_map, Inline.codeValues_nodes]
    rfl
  heading level closed task content := by
    rw [Dialect.textNodes, ← Inline.nodes_eq_map, Inline.codeValues_nodes]
    rfl
  quote span blocks := by rw [codes, map_value_codesIn]
  list tight start items := by rw [codes, map_value_codesIn]
  item task blocks := by rw [codes, map_value_codesIn]
  code info text := by
    rw [node, codes, List.map_singleton, Code.value]
    simp [Opening.node, Node.absorb, Node.finish, Node.codeValues, Node.plainText, Node.leafText]
  html text := by
    rw [node]
    rfl
  rule := by
    rw [node]
    rfl

/-- The tree of a text holds the blocks of code of its document, and no others. -/
theorem codeValues_ofMarkdown (extended : Bool) (text : List Char) :
    (Node.ofMarkdown extended text).codeValues =
      (Document.ofText extended text).codes.map Code.value := by
  have hblocks := (Block.collects_codes
    ⟨extended, (Document.ofText extended text).targets⟩).flatMap_ofMarkdown Node.collects_codeValues
  rw [Document.codes, Block.map_value_codesIn, ← hblocks, ofMarkdown_eq_branch,
    Node.collects_codeValues.branch, List.nil_append]
  rfl

end Markdown

end DefinitionLists
