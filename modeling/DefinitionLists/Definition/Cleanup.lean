/-
Module: DefinitionLists.Definition.Cleanup
Purpose: Removing what other steps leave behind: marker fragments at the ends of lines, items that
  were written twice, and items without children.
Main exports: cutFragment, cutFragments, cleanList, removeEmptyItems, Node.cleanUp
-/
import DefinitionLists.Node.Visit
import DefinitionLists.Text.Lines

namespace DefinitionLists

open Text (joinLines splitLines)

/-- The line without the fragment at its end: its last colon, if a space and a bullet follow, and all
after that. -/
def cutFragment (line : List Char) : List Char :=
  let after := (line.reverse.takeWhile (· ≠ ':')).reverse
  match line.reverse.dropWhile (· ≠ ':'), after with
  | _ :: before, ' ' :: c :: _ => if c = '-' ∨ c = '+' ∨ c = '*' then before.reverse else line
  | _, _ => line

/-- The text with the fragment at the end of each line cut off. -/
def cutFragments (text : List Char) : List Char := joinLines ((splitLines text).map cutFragment)

/-- A list in details with the fragments in its items' texts cut off, and without its first item if
`seeded`. -/
def cleanList (seeded : Bool) : Node → Node
  | .branch (.list ordered start spread hint) items =>
    let items := items.map (Node.mapFirstText (fun text => String.ofList (cutFragments text.toList)))
    .branch (.list ordered start spread hint) (if seeded then items.drop 1 else items)
  | node => node

mutual

/-- The node without the items below it that have no children or only such items, and how many nodes
were removed. -/
def removeEmptyItems : Node → Node × Nat
  | .leaf content => (.leaf content, 0)
  | .branch head children =>
    let (kept, removed) := removeEmptyItemsAmong children
    (.branch head kept, removed)

/-- The nodes without empty items, at this level and below, and how many were removed. -/
def removeEmptyItemsAmong : List Node → List Node × Nat
  | [] => ([], 0)
  | node :: more =>
    let (node, below) := removeEmptyItems node
    let (kept, later) := removeEmptyItemsAmong more
    if node.isListItem && node.children.isEmpty then (kept, below + later + 1)
    else (node :: kept, below + later)

end

/-- Cleans the lists in details, which are told by their name, then removes empty items. `seeded` tells
that lists at the start of details got an item twice: where details open with a list, the lists in them
lose their first item. -/
def Node.cleanUp (seeded : Bool) (tree : Node) : Node :=
  let cleaned := tree.edit (fun place =>
    match place.here with
    | node :: after =>
      if place.parent.isNamed .descriptionDetails then
        cleanList (seeded && place.siblings.head?.any Node.isList) node :: after
      else node :: after
    | [] => [])
  (removeEmptyItems cleaned).1

end DefinitionLists
