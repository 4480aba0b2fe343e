/-
Module: DefinitionLists.Proofs.Node.Text
Purpose: The text of a tree in terms of its parts.
Main exports: Branch.hasValue, Node.plainText_branch, Node.plainText_branch_congr,
  Node.toList_plainTexts
-/
import DefinitionLists.Node

namespace DefinitionLists

/-- Whether the value of a node stands for its children in the text. -/
def Branch.hasValue : Branch → Bool
  | .other _ (some _) _ => true
  | _ => false

namespace Node

@[simp] theorem plainTexts_nil : plainTexts [] = "" := rfl

@[simp] theorem plainTexts_cons (node : Node) (more : List Node) :
    plainTexts (node :: more) = node.plainText ++ plainTexts more := rfl

@[simp] theorem plainTexts_append (first second : List Node) :
    plainTexts (first ++ second) = plainTexts first ++ plainTexts second := by
  induction first with
  | nil => simp
  | cons node more ih => simp [ih, String.append_assoc]

@[simp] theorem plainText_container (kind : Container) (hint : Option String)
    (span : Option Span) (children : List Node) :
    (branch (.container kind hint span) children).plainText = plainTexts children := rfl

theorem plainText_list (ordered spread : Bool) (start : Option UInt64) (hint : Option String)
    (items : List Node) :
    (branch (.list ordered start spread hint) items).plainText = plainTexts items := rfl

/-- Children of the same text make nodes of the same text. -/
theorem plainText_branch_congr {head : Branch} {children children' : List Node}
    (h : plainTexts children = plainTexts children') :
    (branch head children).plainText = (branch head children').plainText := by
  cases head with
  | other tag value hint =>
      cases value with
      | none => exact h
      | some value => rfl
  | _ => exact h

theorem plainText_branch (head : Branch) (children : List Node) (h : head.hasValue = false) :
    (branch head children).plainText = plainTexts children := by
  cases head with
  | other tag value hint =>
      cases value with
      | none => rfl
      | some value => cases h
  | _ => rfl

theorem plainText_of_hasValue {head : Branch} (h : head.hasValue = true)
    (children children' : List Node) :
    (branch head children).plainText = (branch head children').plainText := by
  cases head with
  | other tag value hint =>
      cases value with
      | none => cases h
      | some value => rfl
  | _ => cases h

theorem toList_plainTexts (nodes : List Node) :
    (plainTexts nodes).toList = nodes.flatMap fun node => node.plainText.toList := by
  induction nodes with
  | nil => rfl
  | cons node more ih => rw [plainTexts, String.toList_append, ih, List.flatMap_cons]

end Node

end DefinitionLists
