/-
Module: DefinitionLists.Node
Purpose: Syntax trees of Markdown documents that hold definition lists.
Main exports: Container, Branch, Leaf, Node, Node.tag, Node.isInline, Node.plainText, Node.preorder,
  Node.size, Node.mapBottomUp, pushChild
-/
import DefinitionLists.Text.Span

namespace DefinitionLists

/-- The nodes that hold children and nothing else of their own. -/
inductive Container where
  | root
  | paragraph
  | blockquote
  | descriptionList
  | descriptionTerm
  | descriptionDetails
  | emphasis
  | strong
  | deletion
deriving Repr, Inhabited, DecidableEq

/-- What a node with children is, its children apart. A hint names the output element that shows the
node in place of its usual one. -/
inductive Branch where
  | container (kind : Container) (hint : Option String) (span : Option Span)
  | heading (depth : UInt8)
  | list (ordered : Bool) (start : Option UInt64) (spread : Bool) (hint : Option String)
  | listItem (spread : Bool) (checked : Option Bool) (hint : Option String)
  | link (url : String) (title : Option String)
  | other (tag : String) (value : Option String) (hint : Option String)
deriving Repr, Inhabited, DecidableEq

/-- The nodes without children. -/
inductive Leaf where
  | code (language : Option String) (value : String)
  | html (value : String)
  | text (value : String)
  | inlineCode (value : String)
  | image (url : String) (title : Option String) (alt : String)
  | thematicBreak
  | lineBreak
deriving Repr, Inhabited, DecidableEq

/-- A syntax tree: a node and, unless it is a leaf, the nodes below it in document order. -/
inductive Node where
  | branch (head : Branch) (children : List Node)
  | leaf (content : Leaf)
deriving Repr, Inhabited

mutual

/-- Trees can be compared. -/
def Node.decEq : (first second : Node) → Decidable (first = second)
  | .branch head children, .branch head' children' =>
    if hh : head = head' then
      match Node.decEqList children children' with
      | isTrue hc => isTrue (by rw [hh, hc])
      | isFalse hc => isFalse (by intro h; cases h; exact hc rfl)
    else isFalse (by intro h; cases h; exact hh rfl)
  | .leaf content, .leaf content' =>
    if h : content = content' then isTrue (by rw [h]) else isFalse (by intro e; cases e; exact h rfl)
  | .branch _ _, .leaf _ => isFalse (by intro h; cases h)
  | .leaf _, .branch _ _ => isFalse (by intro h; cases h)

/-- Lists of trees can be compared. -/
def Node.decEqList : (first second : List Node) → Decidable (first = second)
  | [], [] => isTrue rfl
  | [], _ :: _ => isFalse (by intro h; cases h)
  | _ :: _, [] => isFalse (by intro h; cases h)
  | node :: more, node' :: more' =>
    match Node.decEq node node' with
    | isFalse hn => isFalse (by intro h; cases h; exact hn rfl)
    | isTrue hn =>
      match Node.decEqList more more' with
      | isFalse hm => isFalse (by intro h; cases h; exact hm rfl)
      | isTrue hm => isTrue (by rw [hn, hm])

end

instance : DecidableEq Node := Node.decEq

/-- The name of a container in written trees. -/
def Container.tag : Container → String
  | .root => "root"
  | .paragraph => "paragraph"
  | .blockquote => "blockquote"
  | .descriptionList => "descriptionlist"
  | .descriptionTerm => "descriptionterm"
  | .descriptionDetails => "descriptiondetails"
  | .emphasis => "emphasis"
  | .strong => "strong"
  | .deletion => "delete"

/-- The name of a node with children in written trees. -/
def Branch.tag : Branch → String
  | .container kind _ _ => kind.tag
  | .heading _ => "heading"
  | .list _ _ _ _ => "list"
  | .listItem _ _ _ => "listItem"
  | .link _ _ => "link"
  | .other tag _ _ => tag

/-- The name of a leaf in written trees. -/
def Leaf.tag : Leaf → String
  | .code _ _ => "code"
  | .html _ => "html"
  | .text _ => "text"
  | .inlineCode _ => "inlineCode"
  | .image _ _ _ => "image"
  | .thematicBreak => "thematicBreak"
  | .lineBreak => "break"

/-- The hint of a node with children, if it has one. -/
def Branch.hint : Branch → Option String
  | .container _ hint _ => hint
  | .list _ _ _ hint => hint
  | .listItem _ _ hint => hint
  | .other _ _ hint => hint
  | .heading _ => none
  | .link _ _ => none

/-- Whether this is the container of that kind. -/
def Branch.isContainer (kind : Container) : Branch → Bool
  | .container kind' _ _ => kind = kind'
  | _ => false

/-- Whether this has the name of containers of that kind. An unknown node may have it too. -/
def Branch.isNamed (kind : Container) (head : Branch) : Bool := head.tag = kind.tag

namespace Node

/-- A text leaf. -/
@[match_pattern] abbrev text (value : String) : Node := .leaf (.text value)

/-- A line break inside a paragraph. -/
@[match_pattern] abbrev lineBreak : Node := .leaf .lineBreak

/-- A container without hint and position. -/
def plain (kind : Container) (children : List Node) : Node :=
  .branch (.container kind none none) children

/-- A paragraph without position. -/
def paragraph (children : List Node) : Node := plain .paragraph children

/-- A tight list of bullets. -/
def bulletList (items : List Node) : Node := .branch (.list false none false none) items

/-- A tight list item that holds one paragraph of text. -/
def itemOfText (value : String) : Node :=
  .branch (.listItem false none none) [paragraph [.text value]]

/-- A definition list, shown as the element `dl`. -/
def descriptionList (children : List Node) : Node :=
  .branch (.container .descriptionList (some "dl") none) children

/-- A term of a definition list, shown as the element `dt`. -/
def descriptionTerm (children : List Node) : Node :=
  .branch (.container .descriptionTerm (some "dt") none) children

/-- The details of a definition, shown as the element `dd`. -/
def descriptionDetails (children : List Node) : Node :=
  .branch (.container .descriptionDetails (some "dd") none) children

/-- The name of the node in written trees. -/
def tag : Node → String
  | .branch head _ => head.tag
  | .leaf content => content.tag

/-- The nodes directly below; a leaf has none. -/
def children : Node → List Node
  | .branch _ children => children
  | .leaf _ => []

/-- The hint of the node, if it has one. -/
def hint : Node → Option String
  | .branch head _ => head.hint
  | .leaf _ => none

/-- Whether this node is the container of that kind. -/
def isContainer (kind : Container) : Node → Bool
  | .branch head _ => head.isContainer kind
  | .leaf _ => false

/-- Whether this node has the name of containers of that kind. -/
def isNamed (kind : Container) : Node → Bool
  | .branch head _ => head.isNamed kind
  | .leaf _ => false

/-- Whether this node is a list. -/
def isList : Node → Bool
  | .branch (.list _ _ _ _) _ => true
  | _ => false

/-- Whether this node is an item of a list. -/
def isListItem : Node → Bool
  | .branch (.listItem _ _ _) _ => true
  | _ => false

end Node

/-- Whether a leaf stands within a line of text. -/
def Leaf.isInline : Leaf → Bool
  | .text _ | .inlineCode _ | .image _ _ _ | .lineBreak => true
  | .code _ _ | .html _ | .thematicBreak => false

/-- Whether a container stands within a line of text. -/
def Container.isInline : Container → Bool
  | .emphasis | .strong | .deletion => true
  | _ => false

namespace Node

mutual

/-- Whether the node stands within a line of text, as opposed to a block. An unknown node does if it
has a value and all its children do. -/
def isInline : Node → Bool
  | .leaf content => content.isInline
  | .branch head children =>
    match head with
    | .container kind _ _ => kind.isInline
    | .link _ _ => true
    | .other _ value _ => allInline children && value.isSome
    | .heading _ | .list _ _ _ _ | .listItem _ _ _ => false

/-- Whether every one of the nodes stands within a line of text. -/
def allInline : List Node → Bool
  | [] => true
  | node :: more => isInline node && allInline more

end

/-- The text of a leaf. A line break has none. -/
def leafText : Leaf → String
  | .code _ value => value
  | .html value => value
  | .text value => value
  | .inlineCode value => value
  | .image _ _ alt => alt
  | .thematicBreak => ""
  | .lineBreak => ""

mutual

/-- The text of the node and all below it, in document order. The value of an unknown node stands
for its children. -/
def plainText : Node → String
  | .leaf content => leafText content
  | .branch (.other _ (some value) _) _ => value
  | .branch _ children => plainTexts children

/-- The texts of the nodes, one after the other. -/
def plainTexts : List Node → String
  | [] => ""
  | node :: more => plainText node ++ plainTexts more

end

mutual

/-- The node and all below it, each before its children. -/
def preorder : Node → List Node
  | .leaf content => [.leaf content]
  | .branch head children => .branch head children :: preorderList children

/-- The nodes and all below them, each before its children. -/
def preorderList : List Node → List Node
  | [] => []
  | node :: more => preorder node ++ preorderList more

end

mutual

/-- How many nodes the tree has. -/
def size : Node → Nat
  | .leaf _ => 1
  | .branch _ children => 1 + sizeList children

/-- How many nodes the trees have together. -/
def sizeList : List Node → Nat
  | [] => 0
  | node :: more => size node + sizeList more

end

mutual

/-- Applies `f` to every node, to the children of a node before the node itself. -/
def mapBottomUp (f : Node → Node) : Node → Node
  | .leaf content => f (.leaf content)
  | .branch head children => f (.branch head (mapBottomUpList f children))

/-- Applies `f` to every node of the trees. -/
def mapBottomUpList (f : Node → Node) : List Node → List Node
  | [] => []
  | node :: more => mapBottomUp f node :: mapBottomUpList f more

end

theorem preorderList_eq_flatMap (nodes : List Node) :
    preorderList nodes = nodes.flatMap preorder := by
  induction nodes with
  | nil => rfl
  | cons node more ih => rw [preorderList, ih, List.flatMap_cons]

theorem mem_preorder_branch {head : Branch} {children : List Node} {inner : Node} :
    inner ∈ (Node.branch head children).preorder ↔
      inner = .branch head children ∨ ∃ child ∈ children, inner ∈ child.preorder := by
  rw [preorder, List.mem_cons, preorderList_eq_flatMap, List.mem_flatMap]

theorem forall_mem_preorder_branch {holds : Node → Prop} {head : Branch} {children : List Node} :
    (∀ inner ∈ (Node.branch head children).preorder, holds inner) ↔
      holds (.branch head children) ∧ ∀ child ∈ children, ∀ inner ∈ child.preorder, holds inner := by
  rw [preorder, List.forall_mem_cons, preorderList_eq_flatMap]
  simp only [List.mem_flatMap, forall_exists_index, and_imp]
  exact and_congr_right fun _ => ⟨fun h child hc inner hi => h inner child hc hi,
    fun h inner child hc hi => h child hc inner hi⟩

theorem mem_preorder_self (node : Node) : node ∈ node.preorder := by
  cases node <;> simp [preorder]

theorem size_le_sizeList {node : Node} {nodes : List Node} (h : node ∈ nodes) :
    node.size ≤ sizeList nodes := by
  induction nodes with
  | nil => cases h
  | cons first more ih =>
      rw [sizeList]
      rcases List.mem_cons.1 h with rfl | h
      · exact Nat.le_add_right _ _
      · exact Nat.le_trans (ih h) (Nat.le_add_left _ _)

theorem size_lt_of_mem (head : Branch) {children : List Node} {child : Node}
    (h : child ∈ children) : child.size < (branch head children).size := by
  have hle := size_le_sizeList h
  rw [size]
  omega

theorem mem_preorder_trans {tree node inner : Node} (hn : node ∈ tree.preorder)
    (hi : inner ∈ node.preorder) : inner ∈ tree.preorder := by
  cases tree with
  | leaf content =>
      rw [preorder, List.mem_singleton] at hn
      rwa [hn] at hi
  | branch head children =>
      rcases mem_preorder_branch.1 hn with rfl | ⟨child, hchild, hn⟩
      · exact hi
      · have hsize := size_lt_of_mem head hchild
        exact mem_preorder_branch.2 (.inr ⟨child, hchild, mem_preorder_trans hn hi⟩)
termination_by tree.size

theorem mapBottomUpList_eq_map (f : Node → Node) (nodes : List Node) :
    mapBottomUpList f nodes = nodes.map (mapBottomUp f) := by
  induction nodes with
  | nil => rfl
  | cons node more ih => rw [mapBottomUpList, ih, List.map_cons]

/-- The text that a list item opens with: the first leaf of its first child, when these are a text
in a paragraph. -/
def firstText? : Node → Option String
  | .branch (.listItem _ _ _) (.branch (.container .paragraph _ _) (.text value :: _) :: _) =>
    some value
  | _ => none

/-- Changes the text that a list item opens with. Other nodes stay as they are. -/
def mapFirstText (f : String → String) : Node → Node
  | .branch (.listItem spread checked hint)
      (.branch (.container .paragraph inner span) (.text value :: inlines) :: blocks) =>
    .branch (.listItem spread checked hint)
      (.branch (.container .paragraph inner span) (.text (f value) :: inlines) :: blocks)
  | node => node

end Node

/-- Adds a node after its siblings. A text after a text joins it. -/
def pushChild : (siblings : List Node) → (child : Node) → List Node
  | [], child => [child]
  | [.text last], .text value => [.text (last ++ value)]
  | [last], child => [last, child]
  | first :: second :: rest, child => first :: pushChild (second :: rest) child

end DefinitionLists
