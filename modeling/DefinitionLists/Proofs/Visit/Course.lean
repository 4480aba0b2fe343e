/-
Module: DefinitionLists.Proofs.Visit.Course
Purpose: The course of a visit that has no bound: the places that it comes to, one after the other, and
  what becomes of the siblings. A visit with a bound takes this course to its end if each change leaves
  less to visit than there was, by a measure that the bound is not below.
Main exports: Course, Course.deterministic, Course.map_bare, Shrinks, Node.placesVisited,
  Shrinks.course_edit
-/
import DefinitionLists.Proofs.HollowItems
import DefinitionLists.Proofs.Visit

namespace DefinitionLists

namespace Node

theorem sizeList_append (first second : List Node) :
    sizeList (first ++ second) = sizeList first + sizeList second := by
  induction first with
  | nil => simp [sizeList]
  | cons node more ih => rw [List.cons_append, sizeList, sizeList, ih, Nat.add_assoc]

theorem preorderList_append (first second : List Node) :
    preorderList (first ++ second) = preorderList first ++ preorderList second := by
  rw [preorderList_eq_flatMap, preorderList_eq_flatMap, preorderList_eq_flatMap, List.flatMap_append]

theorem preorder_eq_cons (node : Node) : node.preorder = node :: preorderList node.children := by
  cases node <;> rfl

mutual

/-- A tree has as many nodes as its size tells. -/
theorem length_preorder : ∀ node : Node, node.preorder.length = node.size
  | .leaf _ => rfl
  | .branch _ children => by
      rw [preorder, List.length_cons, length_preorderList children, size, Nat.add_comm]

theorem length_preorderList : ∀ nodes : List Node, (preorderList nodes).length = sizeList nodes
  | [] => rfl
  | node :: more => by
      rw [preorderList, List.length_append, length_preorder node, length_preorderList more, sizeList]

end

end Node

open Node (bare editFrom editFrom_cons editWithin noting notesFrom notesFrom_cons notesWithin
  preorderList sizeList visitBudget)

/-- The course of a visit that changes the siblings from each place on by `change` and goes on into the
node that it finds there afterwards: from a place, over the places that it comes to, to what the
siblings from that place on become. -/
inductive Course (change : Place → List Node) : Place → List Place → List Node → Prop where
  | done (parent : Branch) (before : List Node) : Course change ⟨parent, before, []⟩ [] []
  | leaf {parent : Branch} {before rest after result : List Node} {node : Node} {content : Leaf}
      {places : List Place}
      (step : change ⟨parent, before, node :: rest⟩ = .leaf content :: after)
      (later : Course change ⟨parent, .leaf content :: before, after⟩ places result) :
      Course change ⟨parent, before, node :: rest⟩ (⟨parent, before, node :: rest⟩ :: places)
        (.leaf content :: result)
  | branch {parent head : Branch} {before rest children inside after result : List Node} {node : Node}
      {below places : List Place}
      (step : change ⟨parent, before, node :: rest⟩ = .branch head children :: after)
      (inner : Course change ⟨head, [], children⟩ below inside)
      (later : Course change ⟨parent, .branch head inside :: before, after⟩ places result) :
      Course change ⟨parent, before, node :: rest⟩
        (⟨parent, before, node :: rest⟩ :: (below ++ places)) (.branch head inside :: result)

namespace Course

variable {change : Place → List Node} {place : Place} {places : List Place} {result : List Node}

/-- There is no other course from the same place. -/
theorem deterministic {places' : List Place} {result' : List Node}
    (h : Course change place places result) (h' : Course change place places' result') :
    places = places' ∧ result = result' := by
  induction h generalizing places' result' with
  | done parent before =>
      cases h'
      exact ⟨rfl, rfl⟩
  | leaf step later ih =>
      cases h' with
      | leaf step' later' =>
          rw [step] at step'
          cases step'
          obtain ⟨rfl, rfl⟩ := ih later'
          exact ⟨rfl, rfl⟩
      | branch step' =>
          rw [step] at step'
          cases step'
  | branch step inner later ihi ihl =>
      cases h' with
      | leaf step' =>
          rw [step] at step'
          cases step'
      | branch step' inner' later' =>
          rw [step] at step'
          cases step'
          obtain ⟨rfl, rfl⟩ := ihi inner'
          obtain ⟨rfl, rfl⟩ := ihl later'
          exact ⟨rfl, rfl⟩

/-- Each node that is left is visited once, before the nodes below it and after all before it. -/
theorem map_bare (h : Course change place places result) :
    places.map (fun place => (change place).head?.map bare) =
      (preorderList result).map (fun node => some node.bare) := by
  induction h with
  | done => rfl
  | leaf step _ ih =>
      rw [List.map_cons, step, ih]
      rfl
  | branch step _ _ ihi ihl =>
      rw [List.map_cons, List.map_append, step, ihi, ihl, preorderList, List.map_append]
      rfl

end Course

/-! ### Visits with a bound -/

/-- Whether each change leaves a node at its place, and has less come after it and less below this node
than there was to visit before, by some measure. -/
def Shrinks (change : Place → List Node) (measure : List Node → Nat) : Prop :=
  ∀ parent before node rest, ∃ first after,
    change ⟨parent, before, node :: rest⟩ = first :: after ∧
      measure first.children < measure (node :: rest) ∧ measure after < measure (node :: rest)

/-- The places that a visit comes to that changes the siblings from each of them on. -/
def Node.placesVisited (change : Place → List Node) (tree : Node) : List Place :=
  (tree.visit (noting change fun place => [place]) []).2

namespace Shrinks

variable {change : Place → List Node} {measure : List Node → Nat} (h : Shrinks change measure)

include h

/-- With fuel for all that there is to visit the course comes to its end. -/
theorem course_editFrom {fuel : Nat} {place : Place} (hf : measure place.here ≤ fuel) :
    ∃ result, editFrom change fuel place = place.before.reverse ++ result ∧
      Course change place (notesFrom change (fun place => [place]) fuel place) result := by
  induction fuel generalizing place with
  | zero =>
      obtain ⟨parent, before, here⟩ := place
      cases here with
      | nil => exact ⟨[], by simp [editFrom, Place.siblings], .done parent before⟩
      | cons node rest =>
          obtain ⟨first, after, -, -, hlater⟩ := h parent before node rest
          simp only at hf
          omega
  | succ fuel ih =>
      obtain ⟨parent, before, here⟩ := place
      cases here with
      | nil => exact ⟨[], by simp [editFrom], .done parent before⟩
      | cons node rest =>
          obtain ⟨first, after, hchange, hinner, hlater⟩ := h parent before node rest
          simp only at hf
          rw [editFrom_cons hchange, notesFrom_cons hchange, List.singleton_append]
          cases first with
          | leaf content =>
              obtain ⟨result, hedit, hcourse⟩ := @ih ⟨parent, .leaf content :: before, after⟩
                (show measure after ≤ fuel by omega)
              refine ⟨.leaf content :: result, ?_, .leaf hchange hcourse⟩
              rw [editWithin, hedit]
              simp
          | branch head children =>
              rw [Node.children] at hinner
              obtain ⟨inside, hinside, hbelow⟩ := @ih ⟨head, [], children⟩
                (show measure children ≤ fuel by omega)
              rw [List.reverse_nil, List.nil_append] at hinside
              obtain ⟨result, hedit, hcourse⟩ := @ih ⟨parent, .branch head inside :: before, after⟩
                (show measure after ≤ fuel by omega)
              refine ⟨.branch head inside :: result, ?_, ?_⟩
              · rw [editWithin, hinside, hedit]
                simp
              · rw [editWithin, hinside]
                exact .branch hchange hbelow hcourse

/-- A visit of a tree takes its course if the measure goes with the size of the tree. -/
theorem course_edit (hm : ∀ nodes, measure nodes ≤ 2 * sizeList nodes) (head : Branch)
    (children : List Node) :
    Course change ⟨head, [], children⟩ ((Node.branch head children).placesVisited change)
      ((Node.branch head children).edit change).children := by
  have hfuel : measure children ≤ visitBudget (.branch head children) := by
    have := hm children
    rw [visitBudget, Node.size]
    omega
  obtain ⟨result, hedit, hcourse⟩ :=
    @course_editFrom _ _ h _ ⟨head, [], children⟩ hfuel
  rw [Node.edit_branch, Node.children, hedit, Node.placesVisited, Node.visit,
    Node.visitFrom_noting]
  exact hcourse

end Shrinks

end DefinitionLists
