/-
Module: DefinitionLists.Definition.Details
Purpose: The lists inside of details: items gathered from bare items and marked text, and the kind of
  each list settled by the markers that its items still carry.
Main exports: splitItem, gatherItems, Node.gatherDetails, resolveKind, Node.resolveKinds
-/
import DefinitionLists.Marker
import DefinitionLists.Node.Visit
import DefinitionLists.Text.Lines

namespace DefinitionLists

open Text (splitLines)

/-- Whether a line inside an item starts an item of its own: with a bullet, or with a number marker
without blanks before it. -/
def isItemLine (line : List Char) : Bool := startsWithMarker .bullets line || isOrdinalItem line

/-- The texts of the items that the lines of one item make up. `current` is the text of the item that
the lines come after. -/
def splitItemLines (current : List Char) : List (List Char) → List (List Char)
  | [] => [current]
  | line :: more =>
    if isItemLine line then current :: splitItemLines (stripMarkers .bullets line) more
    else splitItemLines (current ++ '\n' :: line) more

/-- The items that an item makes up whose first text has lines that start items. All that follows
the text stays with the first of them. -/
def splitItem (item : Node) : List Node :=
  match item.firstText? with
  | none => [item]
  | some text =>
    match splitLines text.toList with
    | [] => [item]
    | first :: later =>
      match splitItemLines first later with
      | [] => [item]
      | own :: others =>
        item.mapFirstText (fun _ => String.ofList own) ::
          others.map (fun text => .itemOfText (String.ofList text))

/-- The items that a child of details stands for, if it is an item or a text with a bullet. -/
def looseItems? : Node → Option (List Node)
  | .branch (.listItem spread checked hint) children =>
    some (splitItem (.branch (.listItem spread checked hint) children))
  | .text value =>
    if startsWithMarker .bullets value.toList then
      some [.itemOfText (String.ofList (stripMarkers .bullets value.toList))]
    else none
  | _ => none

/-- A list of the items, unless there are none. -/
def listOf (items : List Node) : List Node := if items.isEmpty then [] else [.bulletList items]

/-- The children of details with each run of items in a list; `items` is the run before them. -/
def gatherItems (items : List Node) : List Node → List Node
  | [] => listOf items
  | child :: more =>
    match looseItems? child with
    | some new => gatherItems (items ++ new) more
    | none => listOf items ++ child :: gatherItems [] more

/-- The node with its items gathered, if it is details. -/
def gatherHere : Node → Node
  | .branch head children =>
    if head.isContainer .descriptionDetails then .branch head (gatherItems [] children)
    else .branch head children
  | node => node

/-- Gathers the bare items and marked texts in all details of the tree into lists. -/
def Node.gatherDetails (tree : Node) : Node := tree.mapBottomUp gatherHere

/-- The list with its kind settled: it is numbered if it was, or if the text of an item is a numbered
item. The texts of its items lose their markers. -/
def resolveKind : Node → Node
  | .branch (.list ordered start spread hint) items =>
    let numbered := items.any (fun item =>
      item.firstText?.any (fun text => isOrdinalItem text.toList))
    .branch (.list (ordered || numbered) start spread hint)
      (items.map (Node.mapFirstText (fun text => String.ofList (stripMarkers .any text.toList))))
  | node => node

/-- Settles the kind of every list in details, which are told by their name. -/
def Node.resolveKinds (tree : Node) : Node :=
  tree.edit (fun place =>
    match place.here with
    | node :: after =>
      if place.parent.isNamed .descriptionDetails then resolveKind node :: after
      else node :: after
    | [] => [])

end DefinitionLists
