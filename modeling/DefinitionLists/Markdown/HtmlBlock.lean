/-
Module: DefinitionLists.Markdown.HtmlBlock
Purpose: The lines that open a block of raw HTML, and how each kind of block ends.
Main exports: HtmlEnd, htmlStart?, holdsPiece
-/
import DefinitionLists.Markdown.BlockStart
import DefinitionLists.Markdown.Tag

namespace DefinitionLists.Markdown

/-- How a block of raw HTML ends: with the line that holds a text, or before a blank line. -/
inductive HtmlEnd where
  | withText (text : List Char)
  | beforeBlank
deriving Repr, Inhabited, DecidableEq

/-- Whether the piece stands somewhere in the text. -/
def holdsPiece (piece : List Char) : List Char → Bool
  | [] => piece.isEmpty
  | c :: rest => piece.isPrefixOf (c :: rest) || holdsPiece piece rest

/-- The elements whose raw text may hold anything. -/
def verbatimElements : List String := ["pre", "style", "script", "textarea"]

/-- The elements that open a block. -/
def blockElements : List String :=
  ["address", "article", "aside", "base", "basefont", "blockquote", "body", "caption", "center",
    "col", "colgroup", "dd", "details", "dialog", "dir", "div", "dl", "dt", "fieldset",
    "figcaption", "figure", "footer", "form", "frame", "frameset", "h1", "h2", "h3", "h4", "h5",
    "h6", "head", "header", "hr", "html", "iframe", "legend", "li", "link", "main", "menu",
    "menuitem", "nav", "noframes", "ol", "optgroup", "option", "p", "param", "search", "section",
    "summary", "table", "tbody", "td", "tfoot", "th", "thead", "title", "tr", "track", "ul"]

/-- The text that ends the block which the line opens by a verbatim element, a comment, an
instruction, a section of character data or a declaration. -/
def markedHtml? (rest : List Char) : Option HtmlEnd :=
  match rest with
  | '<' :: inner =>
    let isOpenTagOf (name : String) : Bool :=
      let length := name.toList.length
      (inner.take length).map Char.toLower == name.toList &&
        ((inner.drop length).head?).all (fun c => isAsciiSpace c || c == '>')
    match verbatimElements.find? isOpenTagOf with
    | some name => some (.withText ("</".toList ++ name.toList ++ [ '>' ]))
    | none =>
      if "!--".toList.isPrefixOf inner then some (.withText "-->".toList)
      else if "?".toList.isPrefixOf inner then some (.withText "?>".toList)
      else if "![CDATA[".toList.isPrefixOf inner then some (.withText "]]>".toList)
      else match inner with
        | '!' :: c :: _ => if c.isAlpha then some (.withText [ '>' ]) else none
        | _ => none
  | _ => none

/-- Whether the line opens a block by a tag of a block element. -/
def namedHtml (rest : List Char) : Bool :=
  match rest with
  | '<' :: inner =>
    let inner := if inner.head? = some '/' then inner.drop 1 else inner
    let name := inner.takeWhile Char.isAlphanum
    blockElements.contains (String.ofList (name.map Char.toLower)) &&
      match inner.drop name.length with
      | [] => true
      | c :: more => c == ' ' || c == '\t' || c == '>' || (c == '/' && more.head? == some '>')
  | _ => false

/-- Whether the line holds one tag and nothing else. -/
def loneTag (rest : List Char) : Bool :=
  match rest with
  | '<' :: inner =>
    ((afterTag? (Symbol.ofChars inner)).any
      (fun after => after.all (Symbol.isChar isInlineSpace)))
  | _ => false

/-- How the block of raw HTML ends that the line opens, if it opens one. A lone tag opens a block
only where no paragraph is open. -/
def htmlStart? (inParagraph : Bool) (rest : List Char) : Option HtmlEnd :=
  match markedHtml? rest with
  | some ending => some ending
  | none =>
    if namedHtml rest || (!inParagraph && loneTag rest) then some .beforeBlank else none

end DefinitionLists.Markdown
