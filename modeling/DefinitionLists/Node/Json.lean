/-
Module: DefinitionLists.Node.Json
Purpose: The written form of syntax trees.
Main exports: Node.toJson
-/
import DefinitionLists.Json
import DefinitionLists.Node

namespace DefinitionLists

namespace Node

/-- The members of a hint, if there is one. -/
def hintMembers : Option String → List (String × Json)
  | none => []
  | some name => [("data", .object [("hName", .string name)])]

/-- A byte offset. -/
def offsetJson (offset : Nat) : Json :=
  .object [("offset", .number (UInt64.ofNat offset))]

/-- The members of a position, if there is one. -/
def spanMembers : Option Span → List (String × Json)
  | none => []
  | some span =>
    [("position", .object [("start", offsetJson span.start), ("end", offsetJson span.stop)])]

/-- A string that may be missing. -/
def optionJson : Option String → Json
  | none => .null
  | some value => .string value

/-- The members of a node with children, in the order in which they are written, from its children
on. A node of unknown kind writes its children only if it has any. -/
def branchMembers (children : List Json) : Branch → List (String × Json)
  | .container _ hint span =>
    hintMembers hint ++ ("children", .array children) :: spanMembers span
  | .heading depth => [("depth", .number depth.toUInt64), ("children", .array children)]
  | .list ordered start spread hint =>
    ("ordered", .bool ordered) :: (start.map (fun n => ("start", Json.number n))).toList ++
      ("spread", .bool spread) :: hintMembers hint ++ [("children", .array children)]
  | .listItem spread checked hint =>
    ("spread", .bool spread) :: ("checked", (checked.map Json.bool).getD .null) ::
      hintMembers hint ++ [("children", .array children)]
  | .link url title =>
    [("url", .string url), ("title", optionJson title), ("children", .array children)]
  | .other _ value hint =>
    (value.map (fun text => ("value", Json.string text))).toList ++ hintMembers hint ++
      (if children.isEmpty then [] else [("children", .array children)])

/-- The members of a leaf, in the order in which they are written. -/
def leafMembers : Leaf → List (String × Json)
  | .code language value => [("lang", optionJson language), ("value", .string value)]
  | .html value => [("value", .string value)]
  | .text value => [("value", .string value)]
  | .inlineCode value => [("value", .string value)]
  | .image url title alt =>
    [("url", .string url), ("title", optionJson title), ("alt", .string alt)]
  | .thematicBreak => []
  | .lineBreak => []

mutual

/-- The tree as a JSON value: an object for each node, its tag first. -/
def toJson : Node → Json
  | .branch head children =>
    .object (("type", .string head.tag) :: branchMembers (toJsonList children) head)
  | .leaf content => .object (("type", .string content.tag) :: leafMembers content)

/-- The trees as JSON values. -/
def toJsonList : List Node → List Json
  | [] => []
  | node :: more => toJson node :: toJsonList more

end

end Node

end DefinitionLists
