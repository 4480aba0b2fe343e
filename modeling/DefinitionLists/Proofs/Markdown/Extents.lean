/-
Module: DefinitionLists.Proofs.Markdown.Extents
Purpose: No position in the tree of a text, at any depth, reaches beyond the text.
Main exports: Branch.liesWithin, Block.liesWithin_node, Node.liesWithin_ofMarkdown
-/
import DefinitionLists.Proofs.Markdown.Nodes
import DefinitionLists.Proofs.Markdown.Positions

namespace DefinitionLists

open Node (allHeads allHeadsIn)
open Text (byteLength)

/-- Whether the position of a node, if it has one, lies within a bound. -/
def Branch.liesWithin (bound : Nat) : Branch → Bool
  | .container _ _ (some span) => span.LiesWithin bound
  | _ => true

theorem Branch.allowsLists_liesWithin (bound : Nat) : AllowsLists (liesWithin bound) :=
  ⟨fun _ _ _ _ => rfl, fun _ _ _ => rfl, rfl⟩

namespace Markdown

section Inlines

variable {bound : Nat}

mutual

/-- Parts of running text have no positions. -/
theorem Inline.liesWithin_node : ∀ part : Inline,
    (Inline.node part).allHeads (Branch.liesWithin bound) = true
  | .text _ | .code _ | .html _ | .softBreak | .hardBreak => by
      rw [Inline.node]
      rfl
  | .span kind content => by
      rw [Inline.node]
      apply Node.allHeads_finish (Branch.allowsLists_liesWithin bound)
      apply Node.allHeads_foldl_absorb _ (Inline.liesWithin_nodes content)
      cases kind <;> rfl
  | .link target content => by
      rw [Inline.node]
      apply Node.allHeads_finish (Branch.allowsLists_liesWithin bound)
      exact Node.allHeads_foldl_absorb rfl (Inline.liesWithin_nodes content)
  | .image target content => by
      rw [Inline.node]
      apply Node.allHeads_finish (Branch.allowsLists_liesWithin bound)
      exact Node.allHeads_foldl_absorb rfl (Inline.liesWithin_nodes content)

theorem Inline.liesWithin_nodes : ∀ parts : List Inline,
    allHeadsIn (Branch.liesWithin bound) (Inline.nodes parts) = true
  | [] => by
      rw [Inline.nodes]
      rfl
  | part :: more => by
      rw [Inline.nodes, Node.allHeadsIn_cons]
      exact ⟨Inline.liesWithin_node part, Inline.liesWithin_nodes more⟩

end

theorem Dialect.liesWithin_addText (dialect : Dialect) (task : Option Bool) (content : List Symbol)
    {top : Node} (h : top.allHeads (Branch.liesWithin bound) = true) :
    (dialect.addText task content top).allHeads (Branch.liesWithin bound) = true := by
  rw [Dialect.addText, Dialect.textNodes, ← Inline.nodes_eq_map]
  apply Node.allHeads_foldl_absorb _ (Inline.liesWithin_nodes _)
  cases task with
  | none => exact h
  | some checked => exact Node.allHeads_check (Branch.allowsLists_liesWithin bound) checked h

end Inlines

section Blocks

variable {document : List Char}

mutual

/-- The positions in the node of a block are those in the block. -/
theorem Block.liesWithin_node (dialect : Dialect) : ∀ (block : Block) {bare : Bool},
    block.StandsIn document →
      (block.node dialect bare).allHeads (Branch.liesWithin (byteLength document)) = true
  | .paragraph span task content, bare, h => by
      rw [Block.node]
      apply Node.allHeads_finish (Branch.allowsLists_liesWithin _)
      apply dialect.liesWithin_addText
      exact (Node.allHeads_branch _ _).2 ⟨decide_eq_true h.liesWithin, rfl⟩
  | .heading level closed task content, bare, _ => by
      have htop : (Opening.heading level.toUInt8).node.allHeads
          (Branch.liesWithin (byteLength document)) = true := rfl
      have htext := dialect.liesWithin_addText task content htop
      rw [Block.node]
      apply Node.allHeads_finish (Branch.allowsLists_liesWithin _)
      cases closed
      · exact htext
      · exact Node.allHeads_absorb htext rfl
  | .quote span blocks, bare, h => by
      rw [Block.node]
      apply Node.allHeads_finish (Branch.allowsLists_liesWithin _)
      apply Block.liesWithin_addAll dialect blocks h.2
      exact (Node.allHeads_branch _ _).2 ⟨decide_eq_true h.1, rfl⟩
  | .list tight start items, bare, h => by
      rw [Block.node]
      apply Node.allHeads_finish (Branch.allowsLists_liesWithin _)
      exact Block.liesWithin_addAll dialect items h rfl
  | .item task blocks, bare, h => by
      rw [Block.node]
      apply Node.allHeads_finish (Branch.allowsLists_liesWithin _)
      apply Block.liesWithin_addAll dialect blocks h
      cases task <;> rfl
  | .code info text, bare, _ | .html text, bare, _ | .rule, bare, _ => by
      rw [Block.node]
      rfl

theorem Block.liesWithin_addAll (dialect : Dialect) : ∀ (blocks : List Block) {bare : Bool}
    {top : Node}, Block.AllStandIn document blocks →
      top.allHeads (Branch.liesWithin (byteLength document)) = true →
        (Block.addAll dialect bare blocks top).allHeads
          (Branch.liesWithin (byteLength document)) = true
  | [], bare, top, _, ht => by
      rw [Block.addAll]
      exact ht
  | block :: more, bare, top, h, ht => by
      rw [Block.addAll]
      apply Block.liesWithin_addAll dialect more h.2
      split
      · exact dialect.liesWithin_addText _ _ ht
      · exact Node.allHeads_absorb ht (Block.liesWithin_node dialect block h.1)

end

end Blocks

end Markdown

/-- The positions in the tree of a text lie in the text. -/
theorem Node.liesWithin_ofMarkdown (extended : Bool) (text : List Char) :
    (Node.ofMarkdown extended text).allHeads (Branch.liesWithin (byteLength text)) = true := by
  rw [Markdown.ofMarkdown_eq_branch, Node.allHeads_branch]
  constructor
  · exact decide_eq_true ⟨Nat.zero_le _, Nat.le_refl _⟩
  · rw [Node.allHeadsIn_iff]
    intro node hnode
    obtain ⟨block, hblock, rfl⟩ := List.mem_map.1 hnode
    exact Markdown.Block.liesWithin_node _ block
      (Markdown.standsIn_of_mem_ofText extended text block hblock)

end DefinitionLists
