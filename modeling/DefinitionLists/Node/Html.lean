/-
Module: DefinitionLists.Node.Html
Purpose: Syntax trees as HTML: the tags and texts of a tree in order, and how they are written.
Main exports: Html.Piece, Html.escape, Html.write, Node.markup, Node.toHtml
-/
import DefinitionLists.Node

namespace DefinitionLists

namespace Html

/-- An attribute of a tag, with or without a value. -/
structure Attribute where
  name : String
  value : Option String
deriving Repr, Inhabited, DecidableEq

/-- A piece of HTML: a tag, text that is to be shown as it is, or HTML that somebody else wrote. -/
inductive Piece where
  | openTag (name : String) (attributes : List Attribute)
  | closeTag (name : String)
  | text (value : String)
  | raw (value : String)
deriving Repr, Inhabited, DecidableEq

/-- How a character of a text or of an attribute's value is written. -/
def escape (c : Char) : List Char :=
  match c with
  | '&' => ['&', 'a', 'm', 'p', ';']
  | '<' => ['&', 'l', 't', ';']
  | '>' => ['&', 'g', 't', ';']
  | '"' => ['&', 'q', 'u', 'o', 't', ';']
  | c => [c]

/-- A text with the characters of markup escaped. -/
def escaped (value : String) : List Char := value.toList.flatMap escape

/-- An attribute with the space before it. -/
def Attribute.write (self : Attribute) : List Char :=
  ' ' :: self.name.toList ++
    match self.value with
    | some value => '=' :: '"' :: escaped value ++ ['"']
    | none => []

/-- A piece as it is written. -/
def Piece.write : Piece → List Char
  | .openTag name attributes =>
    '<' :: name.toList ++ attributes.flatMap Attribute.write ++ ['>']
  | .closeTag name => '<' :: '/' :: name.toList ++ ['>']
  | .text value => escaped value
  | .raw value => value.toList

/-- The pieces as they are written, one after the other. -/
def write (pieces : List Piece) : List Char := pieces.flatMap Piece.write

/-- The end of a line. -/
def newLine : Piece := .text "\n"

/-- Pieces between a tag and its closing tag. -/
def element (name : String) (attributes : List Attribute) (content : List Piece) : List Piece :=
  .openTag name attributes :: content ++ [.closeTag name]

/-- Content on lines of its own, if `onLines` holds. -/
def onLines (onLines : Bool) (content : List Piece) : List Piece :=
  if onLines then newLine :: content ++ [newLine] else content

end Html

namespace Node

open Html

/-- An attribute that is there only if it has a value. -/
def optionalAttribute (name : String) : Option String → List Attribute
  | some value => [⟨name, some value⟩]
  | none => []

/-- The box of a task item. -/
def checkbox (checked : Bool) : Piece :=
  .openTag "input" (⟨"type", some "checkbox"⟩ ::
    (if checked then [⟨"checked", none⟩] else []) ++ [⟨"disabled", none⟩])

/-- The markup of a leaf. -/
def leafMarkup : Leaf → List Piece
  | .code language value =>
    element "pre" [] (element "code"
      (optionalAttribute "class" (language.map ("language-" ++ ·)))
      (.text value :: if value.isEmpty then [] else [newLine]))
  | .html value => [.raw value]
  | .text value => [.text value]
  | .inlineCode value => element "code" [] [.text value]
  | .image url title alt =>
    [.openTag "img" ([⟨"src", some url⟩, ⟨"alt", some alt⟩] ++ optionalAttribute "title" title)]
  | .thematicBreak => [.openTag "hr" []]
  | .lineBreak => [.openTag "br" [], newLine]

/-- The element that shows a container without hint; the root is shown by its children alone. -/
def containerElement : Container → String
  | .root => ""
  | .paragraph => "p"
  | .blockquote => "blockquote"
  | .descriptionList => "dl"
  | .descriptionTerm => "dt"
  | .descriptionDetails => "dd"
  | .emphasis => "em"
  | .strong => "strong"
  | .deletion => "del"

/-- The element of a heading: depths outside 1 to 6 count as the nearest of these. -/
def headingElement (depth : UInt8) : String :=
  "h" ++ toString (max 1 (min 6 depth.toNat))

/-- The number that an ordered list shows as its start: none for a list that starts with 1. -/
def shownStart (ordered : Bool) (start : Option UInt64) : Option String :=
  match ordered, start with
  | true, some number => if number = 1 then none else some (toString number.toNat)
  | _, _ => none

/-- Whether a tight item stays on one line: its content is one paragraph. -/
def isSingleLine (tight : Bool) : List Node → Bool
  | [node] => tight && node.isContainer .paragraph
  | _ => false

mutual

/-- The markup of a tree. In a tight list the paragraphs without hint are shown by their children
alone. -/
def render (tight : Bool) : Node → List Piece
  | .leaf content => leafMarkup content
  | .branch head children =>
    match head with
    | .container .root _ _ => renderFlow false none children
    | .container .paragraph hint _ =>
      if tight && hint.isNone then renderInlines children
      else element (hint.getD (containerElement .paragraph)) [] (renderInlines children)
    | .container kind hint _ =>
      let name := hint.getD (containerElement kind)
      if kind.isInline then element name [] (renderInlines children)
      else element name [] (onLines (!allInline children) (renderFlow false none children))
    | .heading depth => element (headingElement depth) [] (renderInlines children)
    | .list ordered start spread hint =>
      element (hint.getD (if ordered then "ol" else "ul"))
        (optionalAttribute "start" (shownStart ordered start))
        (newLine :: renderItems (!spread) children ++ [newLine])
    | .listItem spread checked hint =>
      let tight := tight && !spread
      element (hint.getD "li") []
        ((match checked with
          | some checked => [checkbox checked, .text " "]
          | none => []) ++
          onLines (!(children.isEmpty || isSingleLine tight children))
            (renderFlow tight none children))
    | .link url title =>
      element "a" (⟨"href", some url⟩ :: optionalAttribute "title" title) (renderInlines children)
    | .other _ value hint =>
      match hint with
      | some name => element name [] (onLines (!allInline children) (renderFlow tight none children))
      | none =>
        if children.isEmpty then [.text (value.getD "")] else renderFlow tight none children

/-- The markup of the nodes in order. Between two of them there is a line end, unless both stand
within a line; `afterInline` tells whether the node before them does. -/
def renderFlow (tight : Bool) (afterInline : Option Bool) : List Node → List Piece
  | [] => []
  | node :: more =>
    let within := node.isInline
    let gap := match afterInline with
      | some before => if before && within then [] else [newLine]
      | none => []
    gap ++ (render tight node ++ renderFlow tight (some within) more)

/-- The markup of the nodes in order, with nothing between them. -/
def renderInlines : List Node → List Piece
  | [] => []
  | node :: more => render false node ++ renderInlines more

/-- The markup of the nodes of a list in order, each on lines of its own. -/
def renderItems (tight : Bool) : List Node → List Piece
  | [] => []
  | [node] => render tight node
  | node :: more => render tight node ++ newLine :: renderItems tight more

end

/-- The markup of a tree. -/
def markup (tree : Node) : List Piece := render false tree

/-- The HTML of a tree. Unless it is empty it ends in a line end. -/
def toHtml (tree : Node) : String :=
  let text := write tree.markup
  if text.isEmpty || text.getLast? == some '\n' then String.ofList text
  else String.ofList (text ++ ['\n'])

end Node

end DefinitionLists
