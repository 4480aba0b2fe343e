/-
Module: DefinitionLists.Markdown.Line
Purpose: The lines of a document with their byte offsets, and a cursor that takes indentation and
  markers from the front of a line.
Main exports: Line, Line.split, Cursor, Cursor.takeSpaces, Cursor.skipBlanks, isBlankRest
-/
import DefinitionLists.Text.Span

namespace DefinitionLists.Markdown

open Text (byteLength)

/-- A line of a document. It ends in a line feed, a carriage return, both, or with the document. -/
structure Line where
  /-- The byte offset of its first character. -/
  start : Nat
  /-- Its characters. -/
  text : List Char
  /-- The characters that end it. -/
  ending : List Char
  /-- All that follows it. -/
  following : List Char
deriving Repr, Inhabited

namespace Line

/-- The byte offset after the line and what ends it. -/
def stop (line : Line) : Nat :=
  line.start + byteLength line.text + line.ending.length

/-- The lines from a byte offset on; `before` holds the characters of the first of them that were
met already, the last one first, and `start` is the offset of that line. -/
def splitFrom (start : Nat) (before : List Char) : List Char → List Line
  | [] => if before.isEmpty then [] else [⟨start, before.reverse, [], []⟩]
  | '\n' :: rest =>
    let line : Line := ⟨start, before.reverse, ['\n'], rest⟩
    line :: splitFrom line.stop [] rest
  | '\r' :: '\n' :: rest =>
    let line : Line := ⟨start, before.reverse, ['\r', '\n'], rest⟩
    line :: splitFrom line.stop [] rest
  | '\r' :: rest =>
    let line : Line := ⟨start, before.reverse, ['\r'], rest⟩
    line :: splitFrom line.stop [] rest
  | c :: rest => splitFrom start (c :: before) rest

/-- The lines of a document. -/
def split (document : List Char) : List Line := splitFrom 0 [] document

/-- Whether only a carriage return ends the line. Code and HTML do not take it for the end. -/
def endsInCarriageReturn (line : Line) : Bool := line.ending == ['\r']

/-- The end of the line from `rest` on as code and HTML see it: up to and with the next line feed. -/
def rawFrom (line : Line) (rest : List Char) : List Char :=
  if line.endsInCarriageReturn then
    rest ++ line.ending ++ line.following.takeWhile (· ≠ '\n') ++
      (if line.following.contains '\n' then ['\n'] else [])
  else rest ++ line.ending

end Line

/-- The blanks that may stand within a line: spaces, tabs, vertical tabs and form feeds. -/
def isInlineSpace (c : Char) : Bool :=
  c == ' ' || c == '\t' || c == '\x0b' || c == '\x0c'

/-- Whether what is left of a line holds only blanks. -/
def isBlankRest (rest : List Char) : Bool := rest.all isInlineSpace

/-- What is left of a line after indentation and markers were taken from its front. -/
structure Cursor where
  rest : List Char
  /-- How many characters were taken; each takes one byte. -/
  taken : Nat
  /-- The column that `rest` starts at. -/
  column : Nat
  /-- How many columns are left of a tab that was taken in part. -/
  pending : Nat
deriving Repr, Inhabited, DecidableEq

namespace Cursor

/-- At the start of a line. -/
def ofLine (line : Line) : Cursor := ⟨line.text, 0, 0, 0⟩

/-- Whether nothing is left. -/
def atEnd (cursor : Cursor) : Bool := cursor.rest.isEmpty

/-- Takes columns of indentation from the front of `rest`; a tab reaches to the next column that is
a multiple of four. Returns how many of the columns wanted are not there. -/
def takeSpacesFrom (wanted : Nat) (rest : List Char) (taken column : Nat) : Nat × Cursor :=
  match rest with
  | [] => (wanted, ⟨[], taken, column, 0⟩)
  | c :: after =>
    if wanted = 0 then (0, ⟨rest, taken, column, 0⟩)
    else if c = ' ' then takeSpacesFrom (wanted - 1) after (taken + 1) (column + 1)
    else if c = '\t' then
      let width := 4 - column % 4
      if wanted < width then (0, ⟨after, taken + 1, column + width, width - wanted⟩)
      else takeSpacesFrom (wanted - width) after (taken + 1) (column + width)
    else (wanted, ⟨rest, taken, column, 0⟩)

/-- Takes up to `wanted` columns of indentation. Returns how many of them are not there. -/
def takeSpaces (wanted : Nat) (cursor : Cursor) : Nat × Cursor :=
  if wanted ≤ cursor.pending then (0, { cursor with pending := cursor.pending - wanted })
  else takeSpacesFrom (wanted - cursor.pending) cursor.rest cursor.taken cursor.column

/-- Takes one character. -/
def advance (cursor : Cursor) : Cursor :=
  match cursor.rest with
  | [] => cursor
  | _ :: rest => { cursor with rest, taken := cursor.taken + 1, column := cursor.column + 1 }

/-- Takes the given character, if it comes next. -/
def takeChar? (c : Char) (cursor : Cursor) : Option Cursor :=
  if cursor.rest.head? = some c then some cursor.advance else none

/-- Takes all spaces and tabs. -/
def skipBlanks (cursor : Cursor) : Cursor :=
  let blanks := (cursor.rest.takeWhile (fun c => c == ' ' || c == '\t')).length
  ⟨cursor.rest.drop blanks, cursor.taken + blanks, cursor.column + blanks, 0⟩

/-- Takes the mark of a block quote: `>` and, if there is one, a space after it. -/
def takeQuoteMark? (cursor : Cursor) : Option Cursor :=
  (cursor.takeChar? '>').map (fun after => (after.takeSpaces 1).2)

end Cursor

end DefinitionLists.Markdown
