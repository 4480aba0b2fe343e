/-
Module: DefinitionLists.Node.Visit
Purpose: A pre-order visit of the nodes below a tree that may rearrange siblings as it goes.
Main exports: Place, Step, Visitor, Node.visit, Node.edit
-/
import DefinitionLists.Node

namespace DefinitionLists

/-- Where a visit stands: at the first of `here`, which it shares a parent with the nodes of `before`.
The nearest earlier sibling comes first in `before`. -/
structure Place where
  parent : Branch
  before : List Node
  here : List Node
deriving Repr, Inhabited

/-- All siblings in order. -/
def Place.siblings (place : Place) : List Node := place.before.reverse ++ place.here

/-- How a visit goes on, counted from the siblings that the visitor left at its place. -/
inductive Step where
  /-- Into the node at this place, and then on to the node after it. -/
  | descend
  /-- Past that many siblings, without going into them. -/
  | jump (count : Nat)
deriving Repr, Inhabited, DecidableEq

/-- A visitor may replace the siblings from its place on, says how to go on, and may count or record
what it saw. -/
abbrev Visitor (σ : Type) := Place → σ → Step × List Node × σ

namespace Node

/-- Visits the siblings of a place and all below them, with at most `fuel` places from the first to
the last of any chain of visits; what is not reached stays as it is. -/
def visitFrom {σ : Type} (visitor : Visitor σ) : (fuel : Nat) → Place → σ → List Node × σ
  | 0, place, state => (place.siblings, state)
  | fuel + 1, place, state =>
    if place.here.isEmpty then (place.siblings, state)
    else
      let (step, here, state) := visitor place state
      match step with
      | .jump count =>
        visitFrom visitor fuel
          { place with before := (here.take count).reverse ++ place.before, here := here.drop count }
          state
      | .descend =>
        match here with
        | [] => (place.before.reverse, state)
        | .leaf content :: after =>
          visitFrom visitor fuel { place with before := .leaf content :: place.before, here := after }
            state
        | .branch head children :: after =>
          let (children, state) := visitFrom visitor fuel ⟨head, [], children⟩ state
          visitFrom visitor fuel
            { place with before := .branch head children :: place.before, here := after } state

/-- Enough for a visitor that looks at no node twice and adds at most one node for each that it
finds. -/
def visitBudget (tree : Node) : Nat := 2 * tree.size + 1

/-- Visits every node below the tree, each before its children; the node itself is not visited. -/
def visit {σ : Type} (visitor : Visitor σ) (tree : Node) (state : σ) : Node × σ :=
  match tree with
  | .leaf content => (.leaf content, state)
  | .branch head children =>
    let (children, state) := visitFrom visitor tree.visitBudget ⟨head, [], children⟩ state
    (.branch head children, state)

/-- A visit that changes the siblings from each place on and always goes on into the node there. -/
def edit (change : Place → List Node) (tree : Node) : Node :=
  (tree.visit (fun place state => (.descend, change place, state)) ()).1

end Node

end DefinitionLists
