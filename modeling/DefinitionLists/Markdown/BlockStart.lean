/-
Module: DefinitionLists.Markdown.BlockStart
Purpose: What the rest of a line, after its indentation, may open: rules, headings, fences, list
  items.
Main exports: isRule, headingLevel?, underlineLevel?, Fence, openingFence?, closesFence, ListMarker,
  listMark?, Cursor.listMarker?, Cursor.taskMark?, interruptsAsItem
-/
import DefinitionLists.Markdown.Line

namespace DefinitionLists.Markdown

/-- Whether the line is a thematic break: three or more of one of the characters `*`, `-` and `_`,
with spaces and tabs among them. -/
def isRule (rest : List Char) : Bool :=
  match rest with
  | c :: _ =>
    (c == '*' || c == '-' || c == '_') &&
      rest.all (fun d => d == c || d == ' ' || d == '\t') && 3 ≤ rest.count c
  | [] => false

/-- The white space characters of ASCII. -/
def isAsciiSpace (c : Char) : Bool := isInlineSpace c || c == '\n' || c == '\r'

/-- The level of a heading that starts with that many number signs. -/
def headingLevel? (rest : List Char) : Option Nat :=
  let level := (rest.takeWhile (· == '#')).length
  if 1 ≤ level ∧ level ≤ 6 ∧ ((rest.drop level).head?).all isAsciiSpace then some level else none

/-- The level of the heading that the line underlines: 1 for equals signs, 2 for hyphens. -/
def underlineLevel? (rest : List Char) : Option Nat :=
  match rest with
  | c :: _ =>
    if (c = '=' ∨ c = '-') ∧ isBlankRest (rest.dropWhile (· == c)) then
      some (if c = '=' then 1 else 2)
    else none
  | [] => none

/-- The run of characters that opens a block of code. -/
structure Fence where
  char : Char
  length : Nat
deriving Repr, Inhabited, DecidableEq

/-- The fence that a line opens with; `raw` is the whole of the line. After backticks there may be
no other backtick. -/
def openingFence? (raw : List Char) : Option Fence :=
  match raw with
  | c :: _ =>
    let length := (raw.takeWhile (· == c)).length
    if (c = '`' ∨ c = '~') ∧ 3 ≤ length ∧ (c = '~' ∨ !(raw.drop length).contains '`') then
      some ⟨c, length⟩
    else none
  | [] => none

/-- Whether the line closes a block of code that the fence opened: it holds a run of the fence's
character, not shorter than the fence, and then only spaces. -/
def closesFence (fence : Fence) (rest : List Char) : Bool :=
  fence.length ≤ (rest.takeWhile (· == fence.char)).length &&
    (rest.dropWhile (· == fence.char)).all (· == ' ')

/-- The mark of a list item: its bullet or the delimiter after its number, the number, and how far
the content of the item is indented. -/
structure ListMarker where
  char : Char
  number : Nat
  indent : Nat
deriving Repr, Inhabited, DecidableEq

/-- Whether lists of this mark are numbered. -/
def isNumberDelimiter (c : Char) : Bool := c == '.' || c == ')'

/-- The mark of a list item at the front of a text: its character, its number, and how many characters
it takes. A number has at most nine digits. -/
def listMark? (rest : List Char) : Option (Char × Nat × Nat) :=
  match rest with
  | [] => none
  | c :: _ =>
    if c = '-' ∨ c = '+' ∨ c = '*' then some (c, 0, 1)
    else
      let digits := rest.takeWhile Char.isDigit
      match rest.drop digits.length with
      | delimiter :: _ =>
        if 1 ≤ digits.length ∧ digits.length ≤ 9 ∧ isNumberDelimiter delimiter then
          some (delimiter, digits.foldl (fun n d => n * 10 + (d.toNat - '0'.toNat)) 0,
            digits.length + 1)
        else none
      | [] => none

namespace Cursor

/-- The end of a list mark: a space after it, or the end of the line. Up to four more columns belong
to the indentation of the content, unless there are more, or nothing follows. -/
def finishMarker? (char : Char) (number indent : Nat) (cursor : Cursor) :
    Option (ListMarker × Cursor) :=
  let (missing, after) := cursor.takeSpaces 1
  if missing = 0 ∨ cursor.atEnd then
    if isBlankRest after.rest then some (⟨char, number, indent⟩, after)
    else
      let (missing, content) := after.takeSpaces 4
      if missing = 0 then some (⟨char, number, indent⟩, after)
      else some (⟨char, number, indent + (4 - missing)⟩, content)
  else none

/-- Takes that many characters. -/
def advanceBy : Nat → Cursor → Cursor
  | 0, cursor => cursor
  | n + 1, cursor => advanceBy n cursor.advance

/-- The mark of a list item that the rest of the line opens with, after an indentation of `outer`
columns. A line that is a thematic break opens no item. -/
def listMarker? (outer : Nat) (cursor : Cursor) : Option (ListMarker × Cursor) :=
  match listMark? cursor.rest with
  | some (char, number, width) =>
    if !isNumberDelimiter char && isRule cursor.rest then none
    else finishMarker? char number (outer + width + 1) (cursor.advanceBy width)
  | none => none

/-- The mark of a task item: `[x]` or `[ ]` with white space after it. `ended` tells whether
something ends the line, which counts as white space. -/
def taskMark? (ended : Bool) (cursor : Cursor) : Option (Bool × Cursor) :=
  let (_, cursor) := cursor.takeSpaces 3
  match cursor.rest with
  | '[' :: state :: ']' :: rest =>
    let checked := state == 'x' || state == 'X'
    let spaced := match rest with
      | c :: _ => isAsciiSpace c
      | [] => ended
    if (checked || isInlineSpace state) && spaced then some (checked, cursor.advanceBy 3) else none
  | _ => none

end Cursor

/-- Whether a list item that the line opens interrupts a paragraph. Within the paragraph's own
container only bullets and the number 1 do, and not if the item and the line after it are blank. -/
def interruptsAsItem (inContainer nextIsBlank : Bool) (rest : List Char) : Bool :=
  match listMark? rest with
  | some (char, number, width) =>
    let after := rest.drop width
    (after.head?).all (fun c => c == ' ' || c == '\t') &&
      (!inContainer ||
        (!isNumberDelimiter char || number == 1) && !(isBlankRest after && nextIsBlank))
  | none => false

end DefinitionLists.Markdown
