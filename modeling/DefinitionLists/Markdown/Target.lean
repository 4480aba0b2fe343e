/-
Module: DefinitionLists.Markdown.Target
Purpose: What links point to: labels, destinations and titles as they are written, and definitions
  of labels at the start of paragraphs.
Main exports: Target, Targets, unescape, label?, destination?, title?, inlineTarget?, definition?
-/
import DefinitionLists.Markdown.Tag
import DefinitionLists.Text.CaseFolding
import DefinitionLists.Text.Entity
import DefinitionLists.Text.Punctuation

namespace DefinitionLists.Markdown

open Markdown.Symbol Text

/-- Where a link leads to. -/
structure Target where
  url : List Char
  /-- Empty if there is no title. -/
  title : List Char
deriving Repr, Inhabited, DecidableEq

/-- The targets that a document defines, by folded label. -/
abbrev Targets := List (List Char × Target)

namespace Targets

/-- The target of a label. Case does not matter. -/
def find? (targets : Targets) (label : List Char) : Option Target := targets.lookup (foldCase label)

/-- Adds a target for a label, unless the label has one. -/
def define (targets : Targets) (label : List Char) (target : Target) : Targets :=
  if (targets.find? label).isSome then targets else (foldCase label, target) :: targets

end Targets

/-- Resolves escapes and entities, and drops carriage returns. The number bounds the steps. -/
def unescapeFrom : Nat → List Char → List Char
  | 0, _ => []
  | _ + 1, [] => []
  | bound + 1, '\\' :: c :: rest =>
    if isAsciiPunctuation c then c :: unescapeFrom bound rest
    else '\\' :: unescapeFrom bound (c :: rest)
  | bound + 1, '&' :: rest =>
    match entity? rest with
    | some (chars, length) => chars ++ unescapeFrom bound (rest.drop length)
    | none => '&' :: unescapeFrom bound rest
  | bound + 1, c :: rest => if c = '\r' then unescapeFrom bound rest else c :: unescapeFrom bound rest

/-- The text with escapes and entities resolved and without carriage returns. -/
def unescape (text : List Char) : List Char := unescapeFrom text.length text

/-- The largest number of characters of a label. -/
def maxLabelLength : Nat := 999

/-- The text of a label up to its closing bracket, and the rest after that. Runs of white space
become one space. `length` counts what was read and `written` holds it, the last character first. -/
def labelFrom (length : Nat) (written : List Char) : List Symbol → Option (List Char × List Symbol)
  | [] => none
  | .lineBreak _ :: rest =>
    if maxLabelLength < length then none
    else labelFrom (length + 1) (if written.head? = some ' ' then written else ' ' :: written) rest
  | .char '\\' :: .char c :: rest =>
    if maxLabelLength < length then none else labelFrom (length + 2) (c :: '\\' :: written) rest
  | .char c :: rest =>
    if maxLabelLength < length ∨ c = '[' then none
    else if c = ']' then some (written.reverse, rest)
    else if isInlineSpace c then
      labelFrom (length + 1) (if written.head? = some ' ' then written else ' ' :: written) rest
    else labelFrom (length + 1) (c :: written) rest

/-- A label, from after its opening bracket up to and with the closing one. A blank text is no
label. -/
def label? (symbols : List Symbol) : Option (List Char × List Symbol) :=
  match labelFrom 0 [] symbols with
  | some (written, rest) =>
    let label := trimEndWhile (· == ' ') (written.dropWhile (· == ' '))
    if label.isEmpty then none else some (label, rest)
  | none => none

/-- A destination in angle brackets, from after the first of them; `written` holds what was read,
the last character first. -/
def pointedDestination? (written : List Char) : List Symbol → Option (List Char × List Symbol)
  | .char '>' :: rest => some (written.reverse, rest)
  | .char '\\' :: .char c :: rest =>
    if isAsciiPunctuation c then pointedDestination? (c :: '\\' :: written) rest
    else pointedDestination? ('\\' :: written) (.char c :: rest)
  | .char c :: rest =>
    if c = '<' ∨ c = '\n' ∨ c = '\r' then none else pointedDestination? (c :: written) rest
  | _ => none

/-- A destination without angle brackets: up to a blank or control character or a closing
parenthesis of its own. At most `maxDepth` parentheses and one more may be open at a time; `depth`
counts them, and `written` holds what was read, the last character first. -/
def bareDestination? (maxDepth depth : Nat) (written : List Char) :
    List Symbol → Option (List Char × List Symbol)
  | .char '\\' :: .char c :: rest =>
    if isAsciiPunctuation c then bareDestination? maxDepth depth (c :: '\\' :: written) rest
    else bareDestination? maxDepth depth ('\\' :: written) (.char c :: rest)
  | .char c :: rest =>
    if c ≤ ' ' then if depth = 0 then some (written.reverse, .char c :: rest) else none
    else if c = '(' then
      if maxDepth < depth then none
      else bareDestination? maxDepth (depth + 1) (c :: written) rest
    else if c = ')' then
      if depth = 0 then some (written.reverse, .char c :: rest)
      else bareDestination? maxDepth (depth - 1) (c :: written) rest
    else bareDestination? maxDepth depth (c :: written) rest
  | rest => if depth = 0 then some (written.reverse, rest) else none

/-- The destination of a link as it is written, and the rest. -/
def destination? (maxDepth : Nat) (symbols : List Symbol) : Option (List Char × List Symbol) :=
  match symbols with
  | .char '<' :: rest => pointedDestination? [] rest
  | _ => bareDestination? maxDepth 0 [] symbols

/-- A title up to its closing character, and the rest; `refused` may not stand in it. `written`
holds what was read, the last character first. -/
def titleFrom (closing : Char) (refused : Option Char) (written : List Char) :
    List Symbol → Option (List Char × List Symbol)
  | [] => none
  | .lineBreak around :: rest =>
    titleFrom closing refused ('\n' :: around.trail.reverse ++ written) rest
  | .char '\\' :: .char c :: rest => titleFrom closing refused (c :: '\\' :: written) rest
  | .char c :: rest =>
    if c = closing then some (unescape written.reverse, rest)
    else if refused = some c then none
    else titleFrom closing refused (c :: written) rest

/-- The title of a link: a text in quotes or parentheses. `nested` tells whether an opening
parenthesis may stand in a title in parentheses. -/
def title? (nested : Bool) : List Symbol → Option (List Char × List Symbol)
  | .char '"' :: rest => titleFrom '"' none [] rest
  | .char '\'' :: rest => titleFrom '\'' none [] rest
  | .char '(' :: rest => titleFrom ')' (if nested then none else some '(') [] rest
  | _ => none

/-- How deep parentheses may nest in the destination of a link in running text. -/
def maxLinkDepth : Nat := 32

/-- The target written in parentheses after the text of a link, and the rest. -/
def inlineTarget? : List Symbol → Option (Target × List Symbol)
  | .char '(' :: rest =>
    match destination? maxLinkDepth (skipSpace rest) with
    | some (url, rest) =>
      let (title, rest) := match title? false (skipSpace rest) with
        | some (title, rest) => (title, rest)
        | none => ([], rest)
      match skipSpace rest with
      | .char ')' :: rest => some (⟨unescape url, title⟩, rest)
      | _ => none
    | none => none
  | _ => none

/-- What follows blanks and the end of a line. -/
def afterBlankLineEnd? (symbols : List Symbol) : Option (List Symbol) :=
  match symbols.dropWhile (isChar isInlineSpace) with
  | [] => some []
  | .lineBreak _ :: rest => some rest
  | _ => none

/-- The definition of a label at the start of a paragraph, and the lines after it: the label in
brackets, a colon, a destination, and perhaps a title. If what stands on a line of its own reads as
no title, the definition ends before it. -/
def definition? : List Symbol → Option (List Char × Target × List Symbol)
  | .char '[' :: rest =>
    match label? rest with
    | some (label, .char ':' :: rest) =>
      match destination? 1 (skipSpace rest) with
      | some (url, afterUrl) =>
        if afterUrl.length = (skipSpace rest).length then none
        else
          let bare := (afterBlankLineEnd? afterUrl).map (fun rest => (label, ⟨unescape url, []⟩, rest))
          let afterSpace := skipSpace afterUrl
          if afterSpace.length = afterUrl.length then bare
          else match title? true afterSpace with
            | some (title, rest) =>
              match afterBlankLineEnd? rest with
              | some rest => some (label, ⟨unescape url, title⟩, rest)
              | none => bare
            | none => bare
      | none => none
    | _ => none
  | _ => none

end DefinitionLists.Markdown
