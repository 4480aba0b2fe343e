/-
Module: DefinitionLists.Proofs.Prose
Purpose: Nodes that hold no part of a definition list. All that Markdown text reads as, its root
  apart, is of this kind.
Main exports: Node.isProse, Node.allProse, Node.ofMarkdown_root
-/
import DefinitionLists.Proofs.Heads

namespace DefinitionLists

/-! ### Names -/

theorem Container.tag_inj {kind kind' : Container} : kind.tag = kind'.tag ↔ kind = kind' := by
  constructor
  · cases kind <;> cases kind' <;> decide
  · exact congrArg tag

namespace Branch

@[simp] theorem isNamed_container (kind kind' : Container) (hint : Option String)
    (span : Option Span) : (container kind' hint span).isNamed kind = decide (kind' = kind) := by
  simp [isNamed, tag, Container.tag_inj]

/-- What has not the name of a kind is not of that kind. -/
theorem isContainer_of_not_isNamed {head : Branch} {kind : Container}
    (h : head.isNamed kind = false) : head.isContainer kind = false := by
  cases head with
  | container kind' hint span => simpa [isContainer, eq_comm] using h
  | _ => rfl

/-! ### Special nodes -/

/-- Whether a node with children is the root of a document or a part of a definition list, by its kind
or by its name. -/
def isSpecial : Branch → Bool
  | container kind _ _ => kind.isSpecial
  | other tag _ _ =>
    [Container.root, .descriptionList, .descriptionTerm, .descriptionDetails].any (tag = ·.tag)
  | _ => false

theorem isNamed_of_not_isSpecial {head : Branch} {kind : Container} (h : head.isSpecial = false)
    (hk : kind.isSpecial = true) : head.isNamed kind = false := by
  cases head with
  | container kind' hint span =>
      rw [isNamed_container, decide_eq_false_iff_not]
      rintro rfl
      simp [isSpecial, hk] at h
  | other tag value hint =>
      simp only [isSpecial, List.any_cons, List.any_nil, Bool.or_false, Bool.or_eq_false_iff,
        decide_eq_false_iff_not] at h
      rw [isNamed, decide_eq_false_iff_not]
      cases kind <;> simp_all [Branch.tag, Container.isSpecial]
  | _ => cases kind <;> rfl

end Branch

theorem Branch.allowsLists_prose : AllowsLists (fun head => !head.isSpecial) :=
  ⟨fun _ _ _ _ => rfl, fun _ _ _ => rfl, rfl⟩

theorem isContainer_of_not_isSpecial {head : Branch} {kind : Container}
    (h : head.isSpecial = false) (hk : kind.isSpecial = true) : head.isContainer kind = false :=
  Branch.isContainer_of_not_isNamed (Branch.isNamed_of_not_isSpecial h hk)

namespace Node

/-- Whether neither a root nor a part of a definition list occurs in the tree. -/
def isProse (node : Node) : Bool := node.allHeads (fun head => !head.isSpecial)

/-- Whether all of the trees are prose. -/
def allProse (nodes : List Node) : Bool := allHeadsIn (fun head => !head.isSpecial) nodes

@[simp] theorem isProse_leaf (content : Leaf) : (Node.leaf content).isProse = true := by
  simp [isProse]

@[simp] theorem isProse_branch (head : Branch) (children : List Node) :
    (Node.branch head children).isProse = true ↔
      head.isSpecial = false ∧ allProse children = true := by
  simp [isProse, allProse]

@[simp] theorem allProse_nil : allProse [] = true := by simp [allProse]

@[simp] theorem allProse_cons (node : Node) (more : List Node) :
    allProse (node :: more) = true ↔ node.isProse = true ∧ allProse more = true := by
  simp [allProse, isProse]

theorem allProse_iff {nodes : List Node} :
    allProse nodes = true ↔ ∀ node ∈ nodes, node.isProse = true :=
  allHeadsIn_iff

@[simp] theorem allProse_append {first second : List Node} :
    allProse (first ++ second) = true ↔ allProse first = true ∧ allProse second = true :=
  allHeadsIn_append

@[simp] theorem isProse_paragraph (children : List Node) :
    (paragraph children).isProse = true ↔ allProse children = true := by
  simp [paragraph, plain, Branch.isSpecial, Container.isSpecial]

@[simp] theorem isProse_itemOfText (value : String) : (itemOfText value).isProse = true := by
  simp [itemOfText, Branch.isSpecial]

/-- Prose is no part of a definition list. -/
theorem isContainer_of_isProse {node : Node} {kind : Container} (h : node.isProse = true)
    (hk : kind.isSpecial = true) : node.isContainer kind = false := by
  cases node with
  | leaf content => rfl
  | branch head children =>
      exact isContainer_of_not_isSpecial ((isProse_branch _ _).1 h).1 hk

/-! ### Prose of Markdown text -/

theorem allProse_of_isMarkdown {nodes : List Node}
    (h : allHeadsIn Branch.isMarkdown nodes = true) : allProse nodes = true := by
  refine allHeadsIn_mono (fun head hhead => ?_) h
  cases head with
  | container kind hint span => simpa [Branch.isMarkdown, Branch.isSpecial] using hhead
  | other tag value hint =>
      have htag : tag ∈ Markdown.unknownTags := by simpa [Branch.isMarkdown] using hhead
      have hall : ∀ tag ∈ Markdown.unknownTags, (Branch.other tag none none).isSpecial = false := by
        decide
      simpa [Branch.isSpecial] using hall tag htag
  | _ => rfl

/-- Markdown text reads as a root over prose. -/
theorem ofMarkdown_root (extended : Bool) (text : List Char) :
    ∃ blocks, ofMarkdown extended text =
        .branch (.container .root none (some ⟨0, Text.byteLength text⟩)) blocks ∧
      allProse blocks = true := by
  obtain ⟨blocks, heq, hheads⟩ := ofMarkdown_heads extended text
  exact ⟨blocks, heq, allProse_of_isMarkdown hheads⟩

theorem allProse_ofMarkdown (extended : Bool) (text : List Char) :
    allProse (ofMarkdown extended text).children = true := by
  obtain ⟨blocks, heq, hprose⟩ := ofMarkdown_root extended text
  rw [heq]
  exact hprose

end Node

end DefinitionLists
