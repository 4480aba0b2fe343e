/-
Module: DefinitionLists.Proofs.Html.Rendering
Purpose: The HTML of a tree without HTML of its own is well formed, whatever its texts are.
Main exports: Node.IsShown, compositional_wellBuilt, wellBuilt_render, readsAs_toHtml
-/
import DefinitionLists.Proofs.Html.Composition

namespace DefinitionLists

open Html

namespace Node

/-- Whether the node is no HTML, and its hint, if it has one, names an element with a closing tag. -/
def IsShown (node : Node) : Prop :=
  (∀ value, node ≠ .leaf (.html value)) ∧ ∀ name ∈ node.hint, IsElement name

/-- Tags are put around content in pairs, so that being well built is composed from the parts. -/
theorem compositional_wellBuilt : Compositional IsElement fun _ => WellBuilt where
  usual h := h
  nil := .nil
  append := .append
  text := .text
  blank _ := .text _
  void := .void
  element hname := .element hname.1 hname.2

theorem wellBuilt_leafMarkup {content : Leaf} (h : (leaf content).IsShown) :
    WellBuilt (leafMarkup content) := by
  cases content with
  | html value => exact absurd rfl (h.1 value)
  | image url title alt => exact compositional_wellBuilt.imageMarkup url title alt
  | _ => exact compositional_wellBuilt.leafMarkup (by simp) (by simp)

/-- What a tree is shown as is well built. -/
theorem wellBuilt_render (tight : Bool) {node : Node} (h : ∀ inner ∈ node.preorder, inner.IsShown) :
    WellBuilt (render tight node) := by
  refine compositional_wellBuilt.render tight fun inner hinner => ⟨?_, (h inner hinner).2⟩
  rintro content rfl
  exact wellBuilt_leafMarkup (h _ hinner)

/-- The HTML of a tree in which no HTML stands and each hint names an element with a closing tag is
well formed: it reads as the tags and texts of the tree's markup, whatever the texts are, and the tags
are nested. -/
theorem readsAs_toHtml {tree : Node}
    (hhtml : ∀ node ∈ tree.preorder, ∀ value, node ≠ .leaf (.html value))
    (hhints : ∀ node ∈ tree.preorder, ∀ name ∈ node.hint, IsName name ∧ name ∉ voidElements) :
    ∃ ending, (ending = [] ∨ ending = [newLine]) ∧
      ReadsAs tree.toHtml.toList (tree.markup ++ ending) ∧ Nested (tree.markup ++ ending) := by
  have hbuilt : WellBuilt tree.markup :=
    wellBuilt_render false fun node hnode => ⟨hhtml node hnode, hhints node hnode⟩
  obtain ⟨ending, hending, hwritten⟩ := exists_toHtml_eq_write tree
  have hended : WellBuilt (tree.markup ++ ending) := by
    refine hbuilt.append ?_
    rcases hending with rfl | rfl
    · exact .nil
    · exact .text "\n"
  refine ⟨ending, hending, ?_, hended.balanced []⟩
  rw [hwritten]
  exact readsAs_write hended.legible

/-- A term with markup in its text, details with an image whose title is full of quotes, and a node that
is shown as an element of its own. -/
def markedTree : Node :=
  .plain .root [
    .descriptionList [
      .descriptionTerm [.text "<b> & \"x\""],
      .descriptionDetails [.leaf (.image "a\"b" (some "\"><i>") "&lt;"), .lineBreak]],
    .branch (.other "note" none (some "section")) [.leaf (.code (some "\"><") "</code>")]]

theorem readsAs_toHtml_markedTree :
    (∀ node ∈ markedTree.preorder, ∀ value, node ≠ .leaf (.html value)) ∧
      (∀ node ∈ markedTree.preorder, ∀ name ∈ node.hint, IsName name ∧ name ∉ voidElements) ∧
      ∃ ending, (ending = [] ∨ ending = [newLine]) ∧
        ReadsAs markedTree.toHtml.toList (markedTree.markup ++ ending) ∧
        Nested (markedTree.markup ++ ending) := by
  have hhtml : ∀ node ∈ markedTree.preorder, ∀ value, node ≠ .leaf (.html value) := by
    rintro node hnode value rfl
    simp [markedTree, plain, descriptionList, descriptionTerm, descriptionDetails, preorder,
      preorderList] at hnode
  have hhints : ∀ node ∈ markedTree.preorder, ∀ name ∈ node.hint,
      IsName name ∧ name ∉ voidElements := by decide +kernel
  exact ⟨hhtml, hhints, readsAs_toHtml hhtml hhints⟩

end Node

end DefinitionLists
