/-
Module: DefinitionLists.Node.Action
Purpose: What a visitor may do at a place without looking into the nodes: go on, pass over siblings, or
  remove some of them.
Main exports: Action, Action.perform
-/
import DefinitionLists.Node.Visit

namespace DefinitionLists

/-- What to do at a node. Counts are from the node on, the node itself being number 0. -/
inductive Action where
  /-- Go on into the node. -/
  | descend
  /-- Go on past the node. -/
  | skip
  /-- Remove the node and look at what takes its place. -/
  | remove
  /-- Remove the next sibling and go on into the node. -/
  | removeNext
  /-- Remove the siblings from one number up to, not including, another, and go on into the node that
  is at this place then. -/
  | removeRun (first last : Nat)
  /-- Go on with the sibling of that number, or with the next one if the number is 0. -/
  | jump (count : Nat)
deriving Repr, Inhabited, DecidableEq

/-- What an action does at a place: how to go on, and with which siblings. -/
def Action.perform (action : Action) (place : Place) : Step × List Node :=
  match action with
  | .descend => (.descend, place.here)
  | .skip => (.jump 1, place.here)
  | .remove => (.jump 0, place.here.drop 1)
  | .removeNext => (.descend, place.here.take 1 ++ place.here.drop 2)
  | .removeRun first last =>
    (.descend, place.here.take first ++ place.here.drop (max first last))
  | .jump count => (.jump (max count 1), place.here)

end DefinitionLists
