/-
Module: DefinitionLists.Proofs.Node.Height
Purpose: How many containers are open at once in the written form of a tree, told from the tree, and how
  that goes with the height of the tree.
Main exports: Node.openWhenWritten, Node.nesting_toJson, Node.height, Node.openWhenWritten_bounds
-/
import DefinitionLists.Node.Json
import DefinitionLists.Proofs.Json.Nesting

namespace DefinitionLists

open Json (memberNesting elementNesting)

/-- How many containers are open at once in what is written of a node besides its children: one for a
hint, two for a position. -/
def Branch.openWhenWritten : Branch → Nat
  | .container _ _ (some _) => 2
  | head => if head.hint.isSome then 1 else 0

theorem Branch.openWhenWritten_le (head : Branch) : head.openWhenWritten ≤ 2 := by
  unfold openWhenWritten
  split
  · exact Nat.le_refl _
  · split <;> omega

/-- Whether a node is written without an array of its children. -/
def Branch.omitsChildren (children : List Node) : Branch → Bool
  | .other _ _ _ => children.isEmpty
  | _ => false

namespace Node

mutual

/-- How many containers are open at once in the written form of a tree. Each node takes one, and its
children are in another one. -/
def openWhenWritten : Node → Nat
  | .leaf _ => 1
  | .branch head children =>
    max head.openWhenWritten
      (if head.omitsChildren children then 0 else openWhenAllWritten children + 1) + 1

/-- How many containers are open at once in the written form of some trees. -/
def openWhenAllWritten : List Node → Nat
  | [] => 0
  | node :: more => max (openWhenWritten node) (openWhenAllWritten more)

end

mutual

/-- How many nodes stand around one another in a tree, at most. -/
def height : Node → Nat
  | .leaf _ => 1
  | .branch _ children => heightOfAll children + 1

/-- How many nodes stand around one another in some trees, at most. -/
def heightOfAll : List Node → Nat
  | [] => 0
  | node :: more => max (height node) (heightOfAll more)

end

/-! ### The written form -/

theorem memberNesting_append (first second : List (String × Json)) :
    memberNesting (first ++ second) = max (memberNesting first) (memberNesting second) := by
  induction first with
  | nil => simp [memberNesting]
  | cons member more ih =>
      obtain ⟨name, value⟩ := member
      rw [List.cons_append, memberNesting, memberNesting, ih, Nat.max_assoc]

theorem memberNesting_leafMembers (content : Leaf) : memberNesting (leafMembers content) = 0 := by
  cases content with
  | code language value => cases language <;> rfl
  | image url title alt => cases title <;> rfl
  | _ => rfl

theorem memberNesting_hintMembers (hint : Option String) :
    memberNesting (hintMembers hint) = if hint.isSome then 1 else 0 := by
  cases hint <;> rfl

theorem memberNesting_spanMembers (span : Option Span) :
    memberNesting (spanMembers span) = if span.isSome then 2 else 0 := by
  cases span <;> rfl

/-- What is written of a node is as deep as its hint or position, or as its children. -/
theorem memberNesting_branchMembers (head : Branch) (children : List Node) :
    memberNesting (branchMembers (toJsonList children) head) = max head.openWhenWritten
      (if head.omitsChildren children then 0 else elementNesting (toJsonList children) + 1) := by
  cases head with
  | container kind hint span =>
      simp only [branchMembers, memberNesting_append, memberNesting, memberNesting_hintMembers,
        memberNesting_spanMembers, Json.nesting, Branch.omitsChildren]
      cases span <;> cases hint <;> simp [Branch.openWhenWritten, Branch.hint]
      all_goals omega
  | heading depth =>
      simp [branchMembers, memberNesting, Json.nesting, Branch.openWhenWritten, Branch.hint,
        Branch.omitsChildren]
  | list ordered start spread hint =>
      simp only [branchMembers, memberNesting_append, memberNesting, memberNesting_hintMembers,
        Json.nesting, Branch.omitsChildren]
      cases start <;> cases hint <;>
        simp [memberNesting, Json.nesting, Branch.openWhenWritten, Branch.hint]
  | listItem spread checked hint =>
      simp only [branchMembers, memberNesting_append, memberNesting, memberNesting_hintMembers,
        Json.nesting, Branch.omitsChildren]
      cases checked <;> cases hint <;> simp [Json.nesting, Branch.openWhenWritten, Branch.hint]
  | link url title =>
      cases title <;>
        simp [branchMembers, memberNesting, Json.nesting, optionJson, Branch.openWhenWritten,
          Branch.hint, Branch.omitsChildren]
  | other tag value hint =>
      have hvalue : memberNesting (value.map fun text => ("value", Json.string text)).toList = 0 := by
        cases value <;> rfl
      simp only [branchMembers, memberNesting_append, memberNesting_hintMembers, hvalue,
        Branch.omitsChildren]
      cases children with
      | nil => cases hint <;> rfl
      | cons child more =>
          cases hint <;>
            simp [toJsonList, memberNesting, Json.nesting, Branch.openWhenWritten, Branch.hint]

mutual

/-- The written form of a tree has as many containers around one another as the tree tells. -/
theorem nesting_toJson : ∀ tree : Node, tree.toJson.nesting = tree.openWhenWritten
  | .leaf content => by
      rw [toJson, Json.nesting, memberNesting, memberNesting_leafMembers]
      rfl
  | .branch head children => by
      rw [toJson, Json.nesting, memberNesting, memberNesting_branchMembers,
        elementNesting_toJsonList children, openWhenWritten, Json.nesting, Nat.zero_max]

theorem elementNesting_toJsonList : ∀ nodes : List Node,
    elementNesting (toJsonList nodes) = openWhenAllWritten nodes
  | [] => rfl
  | node :: more => by
      rw [toJsonList, elementNesting, nesting_toJson node, elementNesting_toJsonList more,
        openWhenAllWritten]

end

/-! ### Height -/

theorem eq_nil_of_omitsChildren {head : Branch} {children : List Node}
    (h : head.omitsChildren children = true) : children = [] := by
  cases head with
  | other tag value hint => exact List.isEmpty_iff.1 h
  | _ => cases h

mutual

/-- Each node takes two containers on the way to the innermost one, which takes up to three. -/
theorem openWhenWritten_bounds : ∀ tree : Node,
    2 * tree.height ≤ tree.openWhenWritten + 1 ∧ tree.openWhenWritten ≤ 2 * tree.height + 1
  | .leaf content => by
      rw [height, openWhenWritten]
      omega
  | .branch head children => by
      have hhead := head.openWhenWritten_le
      have hchildren := openWhenAllWritten_bounds children
      rw [height, openWhenWritten]
      split
      · next homits =>
          have hnone := eq_nil_of_omitsChildren homits
          rw [hnone, heightOfAll]
          omega
      · omega

theorem openWhenAllWritten_bounds : ∀ nodes : List Node,
    2 * heightOfAll nodes ≤ openWhenAllWritten nodes + 1 ∧
      openWhenAllWritten nodes ≤ 2 * heightOfAll nodes + 1
  | [] => by
      rw [heightOfAll, openWhenAllWritten]
      omega
  | node :: more => by
      have hnode := openWhenWritten_bounds node
      have hmore := openWhenAllWritten_bounds more
      rw [heightOfAll, openWhenAllWritten]
      omega

end

end Node

end DefinitionLists
