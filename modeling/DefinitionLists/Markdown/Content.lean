/-
Module: DefinitionLists.Markdown.Content
Purpose: The text of a paragraph or heading as one run of symbols, in which a line break keeps what
  stands around it.
Main exports: Break, Symbol, TextLine, Symbol.ofLines, Symbol.ofChars, Symbol.source
-/
import DefinitionLists.Markdown.Line
import DefinitionLists.Text.Blank

namespace DefinitionLists.Markdown

/-- The end of a line inside a paragraph, up to the text of the next line. -/
structure Break where
  /-- The blanks that end the line. -/
  trail : List Char
  /-- The characters that end the line. -/
  ending : List Char
  /-- What of the next line belongs to the containers around the paragraph. -/
  margin : List Char
  /-- The blanks before the text of the next line. -/
  lead : List Char
deriving Repr, Inhabited, DecidableEq

/-- A symbol of running text. -/
inductive Symbol where
  | char (c : Char)
  | lineBreak (around : Break)
deriving Repr, Inhabited, DecidableEq

/-- A line of a paragraph. -/
structure TextLine where
  /-- What belongs to the containers around the paragraph. -/
  margin : List Char
  /-- The blanks before the text. -/
  lead : List Char
  /-- The byte offset of the text. -/
  start : Nat
  text : List Char
  ending : List Char
  /-- The byte offset after what ends the line. -/
  stop : Nat
deriving Repr, Inhabited

namespace Symbol

/-- A text without line breaks. -/
def ofChars (text : List Char) : List Symbol := text.map .char

/-- The text of consecutive lines. The blanks at the end of the last line count for nothing. -/
def ofLines : List TextLine → List Symbol
  | [] => []
  | [last] => ofChars (Text.trimEndWhile isInlineSpace last.text)
  | line :: next :: more =>
    let text := Text.trimEndWhile isInlineSpace line.text
    ofChars text ++
      .lineBreak ⟨line.text.drop text.length, line.ending, next.margin, next.lead⟩ ::
        ofLines (next :: more)

/-- The characters that stand in the document for the symbols, margins apart. -/
def sourceWithoutMargins : List Symbol → List Char
  | [] => []
  | .char c :: rest => c :: sourceWithoutMargins rest
  | .lineBreak around :: rest =>
    around.trail ++ around.ending ++ around.lead ++ sourceWithoutMargins rest

/-- The characters that stand in the document for the symbols. -/
def source : List Symbol → List Char
  | [] => []
  | .char c :: rest => c :: source rest
  | .lineBreak around :: rest =>
    around.trail ++ around.ending ++ around.margin ++ around.lead ++ source rest

end Symbol

end DefinitionLists.Markdown
