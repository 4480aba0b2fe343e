/-
Module: DefinitionLists.Prenormalization
Purpose: Spacing out the lines of a document so that its definitions read as lists and paragraphs of
  their own.
Main exports: definitionMarker?, LineState, prenormalize, Node.prenormalize
-/
import DefinitionLists.Marker
import DefinitionLists.Node.Markdown
import DefinitionLists.Text.Lines

namespace DefinitionLists

open Text (joinLines splitLines trim)

/-- Spaces and tabs. -/
def isIndentation (c : Char) : Bool := c == ' ' || c == '\t'

/-- The marker of a marker definition line: indentation, a colon, and a marker that a space or tab
follows. -/
def definitionMarker? (line : List Char) : Option Marker :=
  match line.dropWhile isIndentation with
  | ':' :: rest =>
    let text := rest.dropWhile isIndentation
    match Marker.match? text with
    | some found =>
      let gap := (text.take (text.length - found.rest.length)).getLast?
      if gap.any isIndentation then some found.marker else none
    | none => none
  | _ => none

/-- The line without its indentation, its colon, and one space or tab after that. -/
def dropColon (line : List Char) : List Char :=
  match line.dropWhile isIndentation with
  | ':' :: c :: rest => if isIndentation c then rest else c :: rest
  | ':' :: [] => []
  | _ => line

/-- The line that repeats the item of a marker definition line. -/
def seedLine (marker : Marker) (line : List Char) : List Char :=
  let indent := match marker with
    | .ordinal _ => 4
    | .bullet _ => 2
  List.replicate indent ' ' ++ dropColon line

/-- Whether the line is a fence: three backticks or tildes after blanks. -/
def isFenceLine (line : List Char) : Bool :=
  "```".toList.isPrefixOf (trim line) || "~~~".toList.isPrefixOf (trim line)

/-- What is known before a line. -/
structure LineState where
  inFence : Bool := false
  /-- Whether a plain definition line was met after the last blank line. -/
  inDefinition : Bool := false
  previousIsDefinition : Bool := false
deriving Repr, Inhabited, DecidableEq

/-- The lines that a line becomes, and what is known after it. A line outside of fences with a marker
definition gets its item repeated below it; a plain definition line gets a blank line above it,
unless a term stands there that follows a definition. -/
def LineState.take (state : LineState) (line : List Char) : List (List Char) × LineState :=
  if isFenceLine line then ([line], ⟨!state.inFence, false, false⟩)
  else if state.inFence then ([line], state)
  else match definitionMarker? line with
    | some marker => ([line, seedLine marker line], ⟨false, false, false⟩)
    | none =>
      if [':', ' '].isPrefixOf line then
        let lines := if state.inDefinition && !state.previousIsDefinition then [line] else [[], line]
        (lines, ⟨false, true, true⟩)
      else ([line], ⟨false, state.inDefinition && !(trim line).isEmpty, false⟩)

/-- The lines that lines become. -/
def LineState.takeAll (state : LineState) : List (List Char) → List (List Char)
  | [] => []
  | line :: more =>
    let (lines, state) := state.take line
    lines ++ takeAll state more

/-- The document with its definition lines set apart, and those that open lists repeated as items. -/
def prenormalize (source : List Char) : List Char :=
  joinLines (LineState.takeAll {} (splitLines source))

/-- Replaces what a root holds by the tree of the prenormalized document, and returns the text of that.
Nothing happens if there is no text or the tree is no root. -/
def Node.prenormalize (extended : Bool) (source : List Char) (tree : Node) :
    Node × Option (List Char) :=
  match tree with
  | .branch (.container .root hint span) children =>
    if source.isEmpty then (.branch (.container .root hint span) children, none)
    else
      let text := DefinitionLists.prenormalize source
      (.branch (.container .root hint (some ⟨0, Text.byteLength text⟩))
        (Node.ofMarkdown extended text).children, some text)
  | tree => (tree, none)

end DefinitionLists
