/-
Module: DefinitionLists.Proofs.Html.Composition
Purpose: What holds of the markup of a tree because it holds of texts and tags and stays when pieces are put
  together, along with the text that the markup shows.
Main exports: Html.IsElement, Node.shownText, Html.Compositional, Html.Compositional.leafMarkup,
  Html.Compositional.render, Node.exists_toHtml_eq_write
-/
import Mathlib.Tactic.IntervalCases
import DefinitionLists.Proofs.Html.Reading
import DefinitionLists.Text.Blank

namespace DefinitionLists

open Html

/-- Whether a string names an element that has a closing tag. -/
def Html.IsElement (name : String) : Prop := IsName name ∧ name ∉ voidElements

instance (name : String) : Decidable (IsElement name) :=
  inferInstanceAs (Decidable (IsName name ∧ name ∉ voidElements))

namespace Node

/-- What holds of a node's hint and of its usual element holds of the element that shows it. -/
theorem forall_hint_getD {holds : String → Prop} {hint : Option String}
    (h : ∀ name ∈ hint, holds name) {usual : String} (hu : holds usual) : holds (hint.getD usual) := by
  cases hint with
  | none => exact hu
  | some name => exact h name rfl

theorem names_optionalAttribute {name : String} (h : IsName name) (value : Option String) :
    ∀ given ∈ optionalAttribute name value, IsName given.name := by
  cases value with
  | none => simp [optionalAttribute]
  | some value => simpa [optionalAttribute] using h

theorem isElement_headingElement (depth : UInt8) : IsElement (headingElement depth) := by
  have hlow : 1 ≤ max 1 (min 6 depth.toNat) := Nat.le_max_left _ _
  have hhigh : max 1 (min 6 depth.toNat) ≤ 6 := by omega
  unfold headingElement
  generalize max 1 (min 6 depth.toNat) = level at hlow hhigh ⊢
  interval_cases level
  all_goals decide

/-- Every container but the root has an element of its own. -/
theorem isElement_containerElement {kind : Container} (h : kind ≠ .root) :
    IsElement (containerElement kind) := by
  cases kind
  case root => exact absurd rfl h
  all_goals decide

mutual

/-- The text that the HTML of a tree shows, blanks apart. The value of an unknown node is shown only if
the node has no hint and no children. -/
def shownText : Node → List Char
  | .leaf content => (leafText content).toList
  | .branch (.other _ value hint) children =>
    if hint.isNone && children.isEmpty then (value.getD "").toList else shownTexts children
  | .branch _ children => shownTexts children

/-- The texts that the HTML of the trees shows, one after the other. -/
def shownTexts : List Node → List Char
  | [] => []
  | node :: more => shownText node ++ shownTexts more

end

end Node

namespace Html

/-- Whether a property of pieces, and of a text along with them, is composed from their parts: it holds of
texts and of tags without content, and stays when pieces are put one after the other or into an element
that `names` allows. -/
structure Compositional (names : String → Prop) (holds : List Char → List Piece → Prop) : Prop where
  usual {name : String} (h : IsElement name) : names name
  nil : holds [] []
  append {value more : List Char} {first second : List Piece} (hf : holds value first)
    (hs : holds more second) : holds (value ++ more) (first ++ second)
  text (value : String) : holds value.toList [.text value]
  blank {value : String} (h : value.toList.all Text.isBlank = true) : holds [] [.text value]
  void {name : String} {attributes : List Attribute} (hname : IsName name) (hvoid : name ∈ voidElements)
    (ha : ∀ given ∈ attributes, IsName given.name) : holds [] [.openTag name attributes]
  element {name : String} {attributes : List Attribute} {value : List Char} {content : List Piece}
    (hname : names name) (ha : ∀ given ∈ attributes, IsName given.name) (hc : holds value content) :
    holds value (element name attributes content)

namespace Compositional

open Node

variable {names : String → Prop} {holds : List Char → List Piece → Prop}
  (hc : Compositional names holds)

include hc

theorem newLine : holds [] [newLine] := hc.blank (by decide)

/-- Line ends around content are blanks, so that they add nothing to it. -/
theorem onLines {value : List Char} {content : List Piece} (h : holds value content) (lines : Bool) :
    holds value (onLines lines content) := by
  unfold Html.onLines
  split
  · simpa using hc.append hc.newLine (hc.append h hc.newLine)
  · exact h

/-- A checkbox and the space after it show no text. -/
theorem checkbox (checked : Option Bool) :
    holds [] (match checked with
      | some checked => [checkbox checked, .text " "]
      | none => []) := by
  cases checked with
  | none => exact hc.nil
  | some checked =>
      have hbox : holds [] [Node.checkbox checked] := by
        refine hc.void (by decide) (by decide) ?_
        cases checked
        · decide
        · decide
      exact hc.append hbox (hc.blank (by decide))

/-- It holds of the markup of a leaf that is neither HTML nor an image. -/
theorem leafMarkup {content : Leaf} (hhtml : ∀ value, content ≠ .html value)
    (himage : ∀ url title alt, content ≠ .image url title alt) :
    holds (leafText content).toList (leafMarkup content) := by
  cases content with
  | code language value =>
      have hending : holds [] (if value.isEmpty then [] else [Html.newLine]) := by
        split
        · exact hc.nil
        · exact hc.newLine
      have hclass := names_optionalAttribute (show IsName "class" by decide)
        (language.map ("language-" ++ ·))
      have hvalue := hc.append (hc.text value) hending
      rw [List.append_nil] at hvalue
      exact hc.element (hc.usual (by decide)) (by simp)
        (hc.element (hc.usual (by decide)) hclass hvalue)
  | html value => exact absurd rfl (hhtml value)
  | text value => exact hc.text value
  | inlineCode value => exact hc.element (hc.usual (by decide)) (by simp) (hc.text value)
  | image url title alt => exact absurd rfl (himage url title alt)
  | thematicBreak => exact hc.void (by decide) (by decide) (by simp)
  | lineBreak => exact hc.append (hc.void (by decide) (by decide) (by simp)) hc.newLine

/-- An image has no text between tags. -/
theorem imageMarkup (url : String) (title : Option String) (alt : String) :
    holds [] (Node.leafMarkup (.image url title alt)) := by
  refine hc.void (by decide) (by decide) fun given hg => ?_
  rcases List.mem_append.1 hg with hg | hg
  · have hnames : given.name = "src" ∨ given.name = "alt" := by
      rcases List.mem_pair.1 hg with rfl | rfl
      · exact .inl rfl
      · exact .inr rfl
    rcases hnames with hname | hname
    · rw [hname]
      decide
    · rw [hname]
      decide
  · exact names_optionalAttribute (by decide) title given hg

/-- Whether the property holds of the markup of the node if it is a leaf, and the hint of the node, if it
has one, is allowed. -/
def Suits (names : String → Prop) (holds : List Char → List Piece → Prop) (node : Node) : Prop :=
  (∀ content, node = .leaf content → holds (leafText content).toList (Node.leafMarkup content)) ∧
    ∀ name ∈ node.hint, names name

mutual

/-- It holds of the markup of a tree with its text, if it does of all leaves and the hints are allowed. -/
theorem render : ∀ (tight : Bool) {node : Node}, (∀ inner ∈ node.preorder, Suits names holds inner) →
    holds node.shownText (render tight node)
  | _, .leaf content, h => (h _ (mem_preorder_self _)).1 content rfl
  | tight, .branch head children, h => by
      obtain ⟨⟨-, hhint⟩, hchildren⟩ := forall_mem_preorder_branch.1 h
      -- each kind of node is an element around what its children have, apart from nodes that show their
      -- value
      have hhint : ∀ name ∈ head.hint, names name := hhint
      have hinlines := renderInlines hchildren
      have hflow (tight : Bool) := renderFlow tight none hchildren
      cases head with
      | container kind hint span =>
          have hname (hkind : kind ≠ .root) : names (hint.getD (containerElement kind)) :=
            forall_hint_getD hhint (hc.usual (isElement_containerElement hkind))
          have htext : (branch (.container kind hint span) children).shownText = shownTexts children := by
            simp [shownText]
          rw [htext]
          cases kind with
          | root =>
              -- the root is the one container without an element
              exact hflow false
          | paragraph =>
              simp only [Node.render]
              split
              · exact hinlines
              · exact hc.element (hname (by decide)) (by simp) hinlines
          | emphasis | strong | deletion => exact hc.element (hname (by decide)) (by simp) hinlines
          | blockquote | descriptionList | descriptionTerm | descriptionDetails =>
              exact hc.element (hname (by decide)) (by simp) (hc.onLines (hflow false) _)
      | heading depth =>
          exact hc.element (hc.usual (isElement_headingElement depth)) (by simp) hinlines
      | list ordered start spread hint =>
          have husual : IsElement (if ordered then "ol" else "ul") := by
            split
            · decide
            · decide
          have hname := forall_hint_getD hhint (hc.usual husual)
          have hitems := hc.append hc.newLine (hc.append (renderItems (!spread) hchildren) hc.newLine)
          rw [List.nil_append, List.append_nil] at hitems
          exact hc.element hname (names_optionalAttribute (by decide) _) hitems
      | listItem spread checked hint =>
          have hcontent := hc.onLines (hflow (tight && !spread))
            (!(children.isEmpty || isSingleLine (tight && !spread) children))
          have hname : names (hint.getD "li") := forall_hint_getD hhint (hc.usual (by decide))
          exact hc.element hname (by simp) (hc.append (hc.checkbox checked) hcontent)
      | link url title =>
          refine hc.element (hc.usual (by decide)) (fun given hg => ?_) hinlines
          rcases List.mem_cons.1 hg with rfl | hg
          · show IsName "href"
            decide
          · exact names_optionalAttribute (by decide) title given hg
      | other tag value hint =>
          rw [shownText]
          cases hint with
          | some name => exact hc.element (hhint name rfl) (by simp) (hc.onLines (hflow tight) _)
          | none =>
              simp only [Node.render]
              cases children with
              | nil => exact hc.text _
              | cons first more => exact hflow tight

/-- The line ends between nodes add nothing to what these have. -/
theorem renderFlow : ∀ (tight : Bool) (afterInline : Option Bool) {nodes : List Node},
    (∀ node ∈ nodes, ∀ inner ∈ node.preorder, Suits names holds inner) →
      holds (shownTexts nodes) (renderFlow tight afterInline nodes)
  | _, _, [], _ => hc.nil
  | tight, afterInline, node :: more, h => by
      obtain ⟨hnode, hmore⟩ := List.forall_mem_cons.1 h
      have hrest := hc.append (render tight hnode) (renderFlow tight (some node.isInline) hmore)
      have hgap : holds [] (match afterInline with
          | some before => if before && node.isInline then [] else [Html.newLine]
          | none => []) := by
        split
        · split
          · exact hc.nil
          · exact hc.newLine
        · exact hc.nil
      have hflow := hc.append hgap hrest
      rw [List.nil_append] at hflow
      simp only [Node.renderFlow, shownTexts]
      exact hflow

theorem renderInlines : ∀ {nodes : List Node},
    (∀ node ∈ nodes, ∀ inner ∈ node.preorder, Suits names holds inner) →
      holds (shownTexts nodes) (renderInlines nodes)
  | [], _ => hc.nil
  | node :: more, h => by
      obtain ⟨hnode, hmore⟩ := List.forall_mem_cons.1 h
      exact hc.append (render false hnode) (renderInlines hmore)

theorem renderItems : ∀ (tight : Bool) {nodes : List Node},
    (∀ node ∈ nodes, ∀ inner ∈ node.preorder, Suits names holds inner) →
      holds (shownTexts nodes) (renderItems tight nodes)
  | _, [], _ => hc.nil
  | tight, [node], h => by
      rw [shownTexts, shownTexts, List.append_nil]
      exact render tight (h node (by simp))
  | tight, node :: next :: more, h => by
      obtain ⟨hnode, hmore⟩ := List.forall_mem_cons.1 h
      have hrest := hc.append hc.newLine (renderItems tight hmore)
      rw [List.nil_append] at hrest
      exact hc.append (render tight hnode) hrest

end

end Compositional

end Html

/-- The HTML of a tree is its markup as it is written, and a line end if that is missing. -/
theorem Node.exists_toHtml_eq_write (tree : Node) : ∃ ending, (ending = [] ∨ ending = [newLine]) ∧
    tree.toHtml.toList = write (tree.markup ++ ending) := by
  unfold toHtml
  simp only
  split
  · exact ⟨[], .inl rfl, by rw [String.toList_ofList, List.append_nil]⟩
  · refine ⟨[newLine], .inr rfl, ?_⟩
    rw [String.toList_ofList, write_append]
    rfl

end DefinitionLists
