/-
Module: DefinitionLists.Proofs.Html.Terms
Purpose: The HTML between the tags of a term and between those of a paragraph, and when running text is
  written the same in both.
Main exports: Html.Encloses, Node.runningHtml, Node.joinsRun_of_mem_paragraph, Node.encloses_term_iff
-/
import Mathlib.Data.List.Flatten
import DefinitionLists.Proofs.Html.Reading
import DefinitionLists.Proofs.Markdown.Collected

namespace DefinitionLists

namespace Html

/-- Whether pieces are written as one element without attributes: its two tags, and the content between
them. -/
def Encloses (name : String) (content : List Char) (pieces : List Piece) : Prop :=
  write pieces = '<' :: name.toList ++ '>' :: (content ++ '<' :: '/' :: name.toList ++ ['>'])

/-- Between the tags of an element stands what it has, and nothing else. -/
theorem encloses_element_iff {name : String} {content : List Char} {pieces : List Piece} :
    Encloses name content (element name [] pieces) ↔ write pieces = content := by
  have hwritten : write (element name [] pieces) =
      '<' :: name.toList ++ '>' :: (write pieces ++ '<' :: '/' :: name.toList ++ ['>']) := by
    rw [element, write_append]
    simp [write, Piece.write]
  rw [Encloses, hwritten]
  constructor
  · intro h
    exact List.append_cancel_right (List.append_cancel_right
      (List.cons.inj (List.append_cancel_left h)).2)
  · rintro rfl
    rfl

end Html

open Html Markdown

/-! ### Running text of the parser -/

/-- All that running text reads as may stand in a term. -/
theorem Markdown.Inline.joinsRun_node (part : Inline) : joinsRun part.node = true := by
  cases part with
  | span kind content =>
      rw [Inline.node]
      cases kind
      all_goals
        rw [SpanKind.opening, Opening.node, Node.plain, Node.foldl_absorb_branch]
        rfl
  | link target content =>
      rw [Inline.node_link]
      rfl
  | image target content =>
      rw [Inline.node_image]
      rfl
  | _ => rfl

namespace Node

/-- What the parser puts into a paragraph joins a run: it stands within a line, or is raw HTML. -/
theorem joinsRun_of_mem_paragraph (dialect : Dialect) (bare : Bool) (span : Span) (task : Option Bool)
    (content : List Symbol) {child : Node}
    (h : child ∈ ((Block.paragraph span task content).node dialect bare).children) :
    joinsRun child = true := by
  rw [Block.node_paragraph] at h
  let held (node : Node) : List Node := if joinsRun node then [] else [node]
  have hparts : (dialect.textNodes content).flatMap held = [] := by
    rw [Dialect.textNodes, List.flatMap_eq_nil_iff]
    intro node hnode
    obtain ⟨part, -, rfl⟩ := List.mem_map.1 hnode
    exact if_pos part.joinsRun_node
  have hjoined : ((dialect.textNodes content).foldl pushChild []).flatMap held = [] := by
    rw [flatMap_foldl_pushChild (fun _ _ => rfl), hparts]
    rfl
  cases hchild : joinsRun child with
  | true => rfl
  | false =>
      have hsingle : held child = [child] := if_neg (by simp [hchild])
      exact absurd (hsingle.symm.trans (List.flatMap_eq_nil_iff.1 hjoined child h)) (List.cons_ne_nil _ _)

/-! ### Running text as HTML -/

/-- The HTML of nodes one after the other, with nothing between them. -/
def runningHtml (nodes : List Node) : List Char := nodes.flatMap fun node => write (render false node)

/-- Nothing is put between nodes of running text. -/
theorem write_renderInlines (nodes : List Node) : write (renderInlines nodes) = runningHtml nodes := by
  induction nodes with
  | nil => rfl
  | cons node more ih => rw [renderInlines, write_append, ih, runningHtml, runningHtml, List.flatMap_cons]

theorem allInline_iff {nodes : List Node} :
    allInline nodes = true ↔ ∀ node ∈ nodes, node.isInline = true := by
  induction nodes with
  | nil => simp [allInline]
  | cons node more ih => rw [allInline, Bool.and_eq_true, ih, List.forall_mem_cons]

/-- Among nodes that join a run, those that do not stand within a line are the raw HTML. -/
theorem allInline_iff_of_joinsRun {nodes : List Node} (h : ∀ node ∈ nodes, joinsRun node = true) :
    allInline nodes = true ↔ ∀ node ∈ nodes, ∀ value, node ≠ .leaf (.html value) := by
  rw [allInline_iff]
  constructor
  · rintro hinline node hnode value rfl
    exact absurd (hinline _ hnode) (by simp [isInline, Leaf.isInline])
  · intro hhtml node hnode
    have hjoins := h node hnode
    unfold joinsRun at hjoins
    split at hjoins
    · next value => exact absurd rfl (hhtml _ hnode value)
    · exact hjoins

/-- Between nodes that all stand within a line there is no line end. -/
theorem renderFlow_of_allInline {nodes : List Node} (h : allInline nodes = true)
    {afterInline : Option Bool} (ha : afterInline ≠ some false) :
    renderFlow false afterInline nodes = renderInlines nodes := by
  induction nodes generalizing afterInline with
  | nil => rfl
  | cons node more ih =>
      rw [allInline, Bool.and_eq_true] at h
      obtain ⟨hnode, hmore⟩ := h
      simp only [renderFlow, renderInlines, hnode]
      rw [ih hmore (by simp)]
      cases afterInline with
      | none => rfl
      | some before =>
          cases before with
          | false => exact absurd rfl ha
          | true => rfl

/-- The nodes are there one after the other, whatever is between them. -/
theorem renderInlines_sublist_renderFlow (afterInline : Option Bool) (nodes : List Node) :
    (renderInlines nodes).Sublist (renderFlow false afterInline nodes) := by
  induction nodes generalizing afterInline with
  | nil => exact List.Sublist.refl _
  | cons node more ih =>
      simp only [renderFlow, renderInlines]
      exact ((List.Sublist.refl _).append (ih _)).trans (List.sublist_append_right _ _)

/-- The lines of a flow on lines of its own are longer than the same nodes with nothing between them. -/
theorem write_onLines_ne (nodes : List Node) :
    write (onLines true (renderFlow false none nodes)) ≠ runningHtml nodes := by
  intro heq
  have hshorter : (runningHtml nodes).length ≤ (write (renderFlow false none nodes)).length := by
    rw [← write_renderInlines]
    exact ((renderInlines_sublist_renderFlow none nodes).flatMap Piece.write).length_le
  have hlines : write (onLines true (renderFlow false none nodes)) =
      '\n' :: (write (renderFlow false none nodes) ++ ['\n']) := by
    rw [onLines, if_pos rfl, write_append]
    rfl
  rw [← heq, hlines, List.length_cons, List.length_append, List.length_singleton] at hshorter
  omega

/-- A paragraph has its children between its tags as they are, one after the other. A term whose children
are running text has the same between its own if and only if none of them is raw HTML itself. -/
theorem encloses_term_iff {children : List Node} (h : ∀ child ∈ children, joinsRun child = true)
    (hint hint' : Option String) (span span' : Option Span) (tight : Bool) :
    Encloses (hint.getD "p") (runningHtml children)
        (render false (.branch (.container .paragraph hint span) children)) ∧
      (Encloses (hint'.getD "dt") (runningHtml children)
          (render tight (.branch (.container .descriptionTerm hint' span') children)) ↔
        ∀ child ∈ children, ∀ value, child ≠ .leaf (.html value)) := by
  constructor
  · exact encloses_element_iff.2 (write_renderInlines children)
  · rw [← allInline_iff_of_joinsRun h]
    show Encloses (hint'.getD "dt") _
      (element (hint'.getD "dt") [] (onLines (!allInline children) (renderFlow false none children))) ↔ _
    rw [encloses_element_iff]
    cases hinline : allInline children with
    | true =>
        rw [Bool.not_true, onLines, if_neg (by simp), renderFlow_of_allInline hinline (by simp)]
        exact iff_of_true (write_renderInlines children) rfl
    | false => exact iff_of_false (write_onLines_ne children) (by simp)

/-- Running text that holds raw HTML within emphasis only. -/
def emphasizedRun : List Node :=
  [.text "a & ", .plain .emphasis [.leaf (.html "<b>"), .text "c"], .lineBreak, .leaf (.inlineCode "d")]

theorem encloses_term_emphasizedRun :
    (∀ child ∈ emphasizedRun, joinsRun child = true) ∧
      Encloses "p" (runningHtml emphasizedRun) (render false (.paragraph emphasizedRun)) ∧
      (Encloses "dt" (runningHtml emphasizedRun) (render true (.descriptionTerm emphasizedRun)) ↔
        ∀ child ∈ emphasizedRun, ∀ value, child ≠ .leaf (.html value)) := by
  have hruns : ∀ child ∈ emphasizedRun, joinsRun child = true := by decide
  exact ⟨hruns, encloses_term_iff hruns none (some "dt") none none true⟩

/-- A text, and a number raised by raw HTML. -/
def raisedRun : List Node :=
  [.text "x", .leaf (.html "<sup>"), .text "2", .leaf (.html "</sup>")]

/-- It does not hold for all running text that a term encloses what a paragraph does: `raisedRun` is what
the parser reads, in a paragraph it stays on one line, and in a term it is taken apart. -/
theorem not_forall_encloses_term :
    ofMarkdown true "x<sup>2</sup>".toList =
        .branch (.container .root none (some ⟨0, 13⟩))
          [.branch (.container .paragraph none (some ⟨0, 13⟩)) raisedRun] ∧
      Encloses "p" "x<sup>2</sup>".toList (render false (.paragraph raisedRun)) ∧
      Encloses "dt" "\nx\n<sup>\n2\n</sup>\n".toList (render false (.descriptionTerm raisedRun)) ∧
      ¬ ∀ children : List Node, (∀ child ∈ children, joinsRun child = true) →
        ∀ content, Encloses "p" content (render false (.paragraph children)) →
          Encloses "dt" content (render false (.descriptionTerm children)) := by
  have hparsed : ofMarkdown true "x<sup>2</sup>".toList =
      .branch (.container .root none (some ⟨0, 13⟩))
        [.branch (.container .paragraph none (some ⟨0, 13⟩)) raisedRun] := by decide +kernel
  have hparagraph : Encloses "p" "x<sup>2</sup>".toList (render false (.paragraph raisedRun)) := by
    unfold Encloses
    decide +kernel
  have hterm :
      Encloses "dt" "\nx\n<sup>\n2\n</sup>\n".toList (render false (.descriptionTerm raisedRun)) := by
    unfold Encloses
    decide +kernel
  refine ⟨hparsed, hparagraph, hterm, fun h => ?_⟩
  have hsame := h raisedRun (by decide) _ hparagraph
  rw [Encloses, hterm] at hsame
  exact absurd hsame (by decide +kernel)

end Node

end DefinitionLists
