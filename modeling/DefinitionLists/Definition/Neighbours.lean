/-
Module: DefinitionLists.Definition.Neighbours
Purpose: What stands next to a definition list and belongs to it: a list right after it, stray lists
  and paragraphs, and other definition lists.
Main exports: Node.absorbSiblingLists, Node.absorbOrphans, Node.joinAdjacent
-/
import DefinitionLists.Node.Visit

namespace DefinitionLists

/-- Adds items to the first list among the nodes, if there is one. -/
def extendFirstList? (items : List Node) : List Node → Option (List Node)
  | [] => none
  | .branch (.list ordered start spread hint) own :: more =>
    some (.branch (.list ordered start spread hint) (own ++ items) :: more)
  | node :: more => (extendFirstList? items more).map (node :: ·)

/-- The children of details with a list taken in: its items join the first list there is, or the
list comes last. -/
def takeInList (list : Node) (children : List Node) : List Node :=
  (extendFirstList? list.children children).getD (children ++ [list])

/-- Takes a list into the last of the nodes, if that is details. -/
def takeIntoLastDetails? (list : Node) : List Node → Option (List Node)
  | [] => none
  | [.branch (.container .descriptionDetails hint span) children] =>
    some [.branch (.container .descriptionDetails hint span) (takeInList list children)]
  | [_] => none
  | first :: second :: more => (takeIntoLastDetails? list (second :: more)).map (first :: ·)

/-- Moves a list that follows a definition list into its last details. -/
def absorbSiblingList : List Node → List Node
  | .branch (.container .descriptionList hint span) children :: next :: after =>
    let kept := .branch (.container .descriptionList hint span) children :: next :: after
    if next.isList then
      match takeIntoLastDetails? next children with
      | some children => .branch (.container .descriptionList hint span) children :: after
      | none => kept
    else kept
  | here => here

/-- Moves each list that follows a definition list into the last details of the definition list. -/
def Node.absorbSiblingLists (tree : Node) : Node :=
  tree.edit (fun place => absorbSiblingList place.here)

/-- Whether the node goes with a definition list before it. -/
def isOrphan (node : Node) : Bool := node.isList || node.isContainer .paragraph

/-- Moves the lists and paragraphs that follow a definition list into new details at its end. -/
def absorbOrphanRun : List Node → List Node
  | .branch (.container .descriptionList hint span) children :: after =>
    match after.takeWhile isOrphan with
    | [] => .branch (.container .descriptionList hint span) children :: after
    | run =>
      .branch (.container .descriptionList hint span) (children ++ [.descriptionDetails run]) ::
        after.dropWhile isOrphan
  | here => here

/-- Moves the lists and paragraphs that follow each definition list into new details at its end. -/
def Node.absorbOrphans (tree : Node) : Node :=
  tree.edit (fun place => absorbOrphanRun place.here)

/-- A definition list of the children, unless there are none. -/
def definitionListOf (children : List Node) : List Node :=
  if children.isEmpty then [] else [.descriptionList children]

/-- The nodes with each run of definition lists joined to one; `pending` holds the children of the
run before them. -/
def joinRuns (pending : List Node) : List Node → List Node
  | [] => definitionListOf pending
  | .branch (.container .descriptionList _ _) children :: more => joinRuns (pending ++ children) more
  | node :: more => definitionListOf pending ++ node :: joinRuns [] more

/-- Joins the definition lists directly below a root that stand side by side. Other trees stay as
they are. -/
def Node.joinAdjacent : Node → Node
  | .branch (.container .root hint span) children =>
    .branch (.container .root hint span) (joinRuns [] children)
  | node => node

end DefinitionLists
