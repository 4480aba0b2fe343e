/-
Module: DefinitionLists.Definition.Entry
Purpose: The lines of a paragraph grouped into terms and their definitions.
Main exports: definitionBody?, isDefinitionLine, Entry, splitEntries
-/
import DefinitionLists.Text.Blank

namespace DefinitionLists

open Text (isBlank trimStart)

/-- What a definition line says: the text after its colon and the blanks that follow. There is at
least one such blank. -/
def definitionBody? : List Char → Option (List Char)
  | ':' :: c :: rest => if isBlank c then some (trimStart (c :: rest)) else none
  | _ => none

/-- Whether the line is a definition line. -/
def isDefinitionLine (line : List Char) : Bool := (definitionBody? line).isSome

/-- The lines of a term, and the texts of its definitions. A paragraph that opens with a definition
line has an entry without a term. -/
structure Entry where
  term : List (List Char)
  details : List (List Char)
deriving Repr, Inhabited, DecidableEq

namespace Entry

/-- The entry with one more definition. -/
def define (entry : Entry) (body : List Char) : Entry :=
  { entry with details := entry.details ++ [body] }

/-- Adds a line to the last of some texts. -/
def continueLast (line : List Char) : List (List Char) → List (List Char)
  | [] => []
  | [last] => [last ++ '\n' :: line]
  | first :: more => first :: continueLast line more

/-- The entry with one more line in its last definition. -/
def continueDetails (entry : Entry) (line : List Char) : Entry :=
  { entry with details := continueLast line entry.details }

end Entry

/-- Groups lines after the entries that were found, the last one first, and after the lines of a term
that has no definition yet. A plain line belongs to a term if no definition comes before it or if one
follows directly; otherwise it continues the definition before it. -/
def splitEntriesFrom (found : List Entry) (term : List (List Char)) :
    List (List Char) → List Entry
  | [] => found.reverse
  | line :: more =>
    match definitionBody? line, found, term with
    | some body, last :: earlier, [] => splitEntriesFrom (last.define body :: earlier) [] more
    | some body, found, term => splitEntriesFrom (⟨term, [body]⟩ :: found) [] more
    | none, [], term => splitEntriesFrom [] (term ++ [line]) more
    | none, last :: earlier, term =>
      if more.head?.any isDefinitionLine then
        splitEntriesFrom (last :: earlier) (term ++ [line]) more
      else splitEntriesFrom (last.continueDetails line :: earlier) term more

/-- The entries of a paragraph's lines. There are none if no line is a definition line. -/
def splitEntries (lines : List (List Char)) : List Entry := splitEntriesFrom [] [] lines

end DefinitionLists
