/-
Module: DefinitionLists.Markdown.Tag
Purpose: Raw HTML in running text: tags with their attributes, comments, instructions, declarations.
Main exports: afterPiece?, afterTag?, afterAside?, inlineHtml?
-/
import DefinitionLists.Markdown.Content

namespace DefinitionLists.Markdown

namespace Symbol

/-- Whether the symbol is a character that satisfies `p`. -/
def isChar (p : Char → Bool) : Symbol → Bool
  | .char c => p c
  | .lineBreak _ => false

/-- Whether the symbol is white space: a blank or a line break. -/
def isSpace : Symbol → Bool
  | .char c => isInlineSpace c
  | .lineBreak _ => true

/-- The rest after white space. -/
def skipSpace (symbols : List Symbol) : List Symbol := symbols.dropWhile isSpace

end Symbol

open Markdown.Symbol

/-- The rest after the first occurrence of a piece of text without line breaks. -/
def afterPiece? (piece : List Char) : List Symbol → Option (List Symbol)
  | [] => if piece.isEmpty then some [] else none
  | symbol :: rest =>
    if (ofChars piece).isPrefixOf (symbol :: rest) then some ((symbol :: rest).drop piece.length)
    else afterPiece? piece rest

/-- The characters of the name of an attribute, its first one apart. -/
def isAttributeNameChar (c : Char) : Bool :=
  c.isAlphanum || c == '_' || c == '.' || c == ':' || c == '-'

/-- The characters of an attribute's value that is not quoted. -/
def isBareValueChar (c : Char) : Bool :=
  c != '\'' && c != '"' && c != ' ' && c != '=' && c != '>' && c != '<' && c != '`' && c != '\n' &&
    c != '\r'

/-- The rest after the value of an attribute. -/
def afterAttributeValue? : List Symbol → Option (List Symbol)
  | .char '"' :: rest => afterPiece? ['"'] rest
  | .char '\'' :: rest => afterPiece? ['\''] rest
  | .char c :: rest => if isBareValueChar c then some (rest.dropWhile (isChar isBareValueChar)) else none
  | _ => none

/-- The rest after an attribute: its name and, after an equals sign, its value. -/
def afterAttribute? : List Symbol → Option (List Symbol)
  | .char c :: rest =>
    if c.isAlpha || c == '_' || c == ':' then
      let afterName := rest.dropWhile (isChar isAttributeNameChar)
      match skipSpace afterName with
      | .char '=' :: rest => afterAttributeValue? (skipSpace rest)
      | _ => some afterName
    else none
  | _ => none

/-- The rest after the attributes and the end of a tag. White space precedes each attribute. The
number bounds how many attributes are read. -/
def afterAttributes? : Nat → List Symbol → Option (List Symbol)
  | 0, _ => none
  | bound + 1, symbols =>
    match skipSpace symbols with
    | .char '>' :: rest => some rest
    | .char '/' :: .char '>' :: rest => some rest
    | .char '/' :: _ => none
    | after =>
      if symbols.head?.any isSpace then (afterAttribute? after).bind (afterAttributes? bound) else none

/-- The rest after a tag; the symbols start after its `<`. -/
def afterTag? (symbols : List Symbol) : Option (List Symbol) :=
  let isNameChar (c : Char) : Bool := c.isAlphanum || c == '-'
  match symbols with
  | .char '/' :: .char c :: rest =>
    if c.isAlpha then
      match (rest.dropWhile (isChar isNameChar)).dropWhile (isChar isInlineSpace) with
      | .char '>' :: rest => some rest
      | _ => none
    else none
  | .char c :: rest =>
    if c.isAlpha then
      let afterName := rest.dropWhile (isChar isNameChar)
      afterAttributes? (afterName.length + 1) afterName
    else none
  | _ => none

/-- The rest after a comment, an instruction, a declaration or a section of character data; the
symbols start after the `<`. -/
def afterAside? : List Symbol → Option (List Symbol)
  | .char '?' :: rest => afterPiece? ['?', '>'] rest
  | .char '!' :: rest =>
    match rest with
    | .char '-' :: .char '-' :: rest =>
      match rest with
      | .char '>' :: rest => some rest
      | .char '-' :: .char '>' :: rest => some rest
      | _ => afterPiece? ['-', '-', '>'] rest
    | _ =>
      let opening := ['[', 'C', 'D', 'A', 'T', 'A', '[']
      if (ofChars opening).isPrefixOf rest then afterPiece? [']', ']', '>'] (rest.drop opening.length)
      else if rest.head?.any (isChar Char.isAlpha) then afterPiece? ['>'] rest
      else none
  | _ => none

/-- Raw HTML at the front of a text, its `<` apart: what it writes, and the rest. A tag is read
through the containers around it; all else keeps what stands in the document. -/
def inlineHtml? (symbols : List Symbol) : Option (List Char × List Symbol) :=
  match afterTag? symbols with
  | some rest =>
    some ('<' :: sourceWithoutMargins (symbols.take (symbols.length - rest.length)), rest)
  | none =>
    (afterAside? symbols).map (fun rest =>
      ('<' :: source (symbols.take (symbols.length - rest.length)), rest))

end DefinitionLists.Markdown
