/-
Module: DefinitionLists.Proofs.Adjacent
Purpose: What may stand right after a definition list below a root, once the last two stages ran.
Main exports: Stage.isContainer_root_apply, ApartFrom, isChain_joinRuns, isChain_of_transform
-/
import DefinitionLists.Proofs.Neighbours.JoinedRuns
import DefinitionLists.Proofs.Neighbours.Orphans

namespace DefinitionLists

/-! ### Stages leave a root a root -/

namespace Node

/-- A visit changes what is below a node, never the node's own kind. -/
theorem isContainer_edit (change : Place → List Node) (kind : Container) (tree : Node) :
    (tree.edit change).isContainer kind = tree.isContainer kind :=
  isContainer_eq_of_head? (head?_edit change tree) kind

theorem isContainer_root_prenormalize {extended : Bool} {source : List Char} {tree : Node}
    (h : tree.isContainer .root = true) :
    (tree.prenormalize extended source).1.isContainer .root = true := by
  unfold Node.prenormalize
  split
  · split
    · exact h
    · rfl
  · exact h

end Node

theorem Stage.isContainer_root_apply {extended : Bool} {work : Work} (stage : Stage)
    (h : work.tree.isContainer .root = true) :
    (stage.apply extended work).1.tree.isContainer .root = true := by
  by_cases hstage : stage = .prenormalizer
  · rw [hstage]
    exact Node.isContainer_root_prenormalize h
  · exact (Node.isContainer_eq_of_head? (Stage.head?_apply extended work hstage) .root).trans h

/-! ### Joining definition lists -/

/-- A definition list has nothing right after it that could have become part of it. -/
def ApartFrom (first next : Node) : Prop :=
  first.isContainer .descriptionList = true →
    next.isContainer .descriptionList = false ∧ next.isList = false ∧
      next.isContainer .paragraph = false

/-- Besides another definition list, only what counts as an orphan may not follow a definition list. -/
theorem apartFrom_of_isOrphan {first next : Node}
    (hl : next.isContainer .descriptionList = false) (ho : isOrphan next = false) :
    ApartFrom first next := by
  intro _
  unfold isOrphan at ho
  rw [Bool.or_eq_false_iff] at ho
  exact ⟨hl, ho.1, ho.2⟩

/-- Joined definition lists keep apart from what comes after them if those that they are joined of have
no orphan right after them. -/
theorem isChain_joinRuns {pending nodes : List Node} (h : nodes.IsChain NoOrphanAfter)
    (hp : pending ≠ [] → ∀ next ∈ nodes.head?, isOrphan next = false) :
    (joinRuns pending nodes).IsChain ApartFrom := by
  have hafter := @isChain_joinRuns_of_afterList (isOrphan · = false) pending nodes h hp
  refine hafter.imp fun first next happart hlist => ?_
  obtain ⟨hnext, horphan⟩ := happart hlist
  exact apartFrom_of_isOrphan hnext horphan hlist

/-- In what the standard converter makes of a root, no definition list below the root is followed
directly by another one, by a list or by a paragraph. -/
theorem isChain_of_transform {hint : Option String} {span : Option Span} {children : List Node}
    {source : List Char} {result : Node}
    (h : Converter.standard.transform (.branch (.container .root hint span) children) source =
      .ok result) :
    result.isContainer .root = true ∧ result.children.IsChain ApartFrom := by
  obtain ⟨done, hrun, rfl⟩ := Converter.transform_eq_ok_iff.1 h
  -- the last two stages are the ones that space the blocks; the others only have to leave a root
  have hstages : Converter.standard.stages =
      [.prenormalizer, .builder, .detailMerger, .siblingList, .listKind, .cleanup] ++
        [.orphanAbsorber, .coalescer] := rfl
  rw [hstages] at hrun
  obtain ⟨cleaned, hfirst, hlast⟩ := runStages_append_eq_ok hrun
  have hstart : (Node.branch (.container .root hint span) children).isContainer .root = true := rfl
  have hroot : cleaned.tree.isContainer .root = true :=
    @tree_of_runStages (fun tree => tree.isContainer .root = true) _ _ _ _
      (fun stage _ _ hwork => stage.isContainer_root_apply hwork) hstart hfirst
  have hdone : done.tree = cleaned.tree.absorbOrphans.joinAdjacent := by
    cases hlast
    rfl
  -- joining runs of text cannot bring together what the stage before it keeps apart
  have hchain := isChain_absorbOrphans cleaned.tree
  have habsorbed : cleaned.tree.absorbOrphans.isContainer .root = true :=
    (Node.isContainer_edit _ .root cleaned.tree).trans hroot
  obtain ⟨hint, span, blocks, heq⟩ := Node.eq_branch_of_isContainer habsorbed
  rw [heq] at hchain
  rw [hdone, heq]
  exact ⟨rfl, isChain_joinRuns hchain (by simp)⟩

/-- An empty definition list takes in the list after it, and the one before both takes in all. -/
theorem isChain_of_empty_definition_list :
    ∃ result, Converter.standard.transform (.branch (.container .root none none)
        [.descriptionList [.descriptionTerm [.text "T"]], .descriptionList [],
          .bulletList [.itemOfText "a"], .leaf .thematicBreak]) [] = .ok result ∧
      result.isContainer .root = true ∧ result.children.IsChain ApartFrom := by
  have htransform : Converter.standard.transform (.branch (.container .root none none)
        [.descriptionList [.descriptionTerm [.text "T"]], .descriptionList [],
          .bulletList [.itemOfText "a"], .leaf .thematicBreak]) [] =
      .ok (.plain .root [.descriptionList [.descriptionTerm [.text "T"],
        .descriptionDetails [.bulletList [.itemOfText "a"]]], .leaf .thematicBreak]) := by
    decide +kernel
  exact ⟨_, htransform, isChain_of_transform htransform⟩

end DefinitionLists
