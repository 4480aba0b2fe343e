/-
Module: DefinitionLists.Proofs.Unchanged
Purpose: Visits and stages that change nothing where no definition list stands, or where only
  containers do.
Main exports: editFrom_of_allHeads, Branch.isNoDefinitionList, Stage.apply_of_prose,
  runStages_of_inert, Branch.isAnyContainer, cleanUp_of_containers
-/
import DefinitionLists.Proofs.FilledItems
import DefinitionLists.Proofs.InDetails
import DefinitionLists.Proofs.Outline.Stages
import DefinitionLists.Proofs.Positions

namespace DefinitionLists

open Node (allHeadsIn allProse edit_branch editFrom editFrom_cons editWithin)

/-! ### Visits -/

/-- A visit changes nothing among nodes whose heads all leave the siblings as they are. -/
theorem editFrom_of_allHeads {change : Place → List Node} {good : Branch → Bool}
    (hchange : ∀ place : Place, allHeadsIn good place.here = true → change place = place.here)
    (fuel : Nat) (place : Place) (h : allHeadsIn good place.here = true) :
    editFrom change fuel place = place.siblings := by
  induction fuel generalizing place with
  | zero => rfl
  | succ fuel ih =>
      obtain ⟨parent, before, here⟩ := place
      cases here with
      | nil => simp [editFrom, Place.siblings]
      | cons node rest =>
          have hsame := hchange ⟨parent, before, node :: rest⟩ h
          obtain ⟨hnode, hrest⟩ := (Node.allHeadsIn_cons node rest).1 h
          have hwithin : editWithin change fuel node = node := by
            cases node with
            | leaf content => rfl
            | branch head children =>
                have hchildren := ((Node.allHeads_branch head children).1 hnode).2
                exact congrArg (Node.branch head) (ih ⟨head, [], children⟩ hchildren)
          rw [editFrom_cons hsame, hwithin, ih ⟨parent, node :: before, rest⟩ hrest]
          simp [Place.siblings]

/-- Whether a node with children is no definition list. -/
def Branch.isNoDefinitionList (head : Branch) : Bool := !head.isContainer .descriptionList

/-- Without a definition list no list moves. -/
theorem absorbSiblingList_of_allHeads (place : Place)
    (h : allHeadsIn Branch.isNoDefinitionList place.here = true) :
    absorbSiblingList place.here = place.here := by
  unfold absorbSiblingList
  split
  · next heq =>
      rw [heq] at h
      simp [Branch.isNoDefinitionList, Branch.isContainer] at h
  · rfl

theorem absorbOrphanRun_of_allHeads (place : Place)
    (h : allHeadsIn Branch.isNoDefinitionList place.here = true) :
    absorbOrphanRun place.here = place.here := by
  unfold absorbOrphanRun
  split
  · next heq =>
      rw [heq] at h
      simp [Branch.isNoDefinitionList, Branch.isContainer] at h
  · rfl

theorem allHeadsIn_isNoDefinitionList {nodes : List Node} (h : allProse nodes = true) :
    allHeadsIn Branch.isNoDefinitionList nodes = true := by
  refine Node.allHeadsIn_mono (fun head hhead => ?_) h
  have hnone : head.isContainer .descriptionList = false :=
    isContainer_of_not_isSpecial (by simpa using hhead) rfl
  simp [Branch.isNoDefinitionList, hnone]

/-! ### Stages -/

section Stages

variable {hint : Option String} {span : Option Span} {blocks : List Node}
  (h : allProse blocks = true)

include h

/-- A visit that only changes siblings after definition lists changes nothing in prose. -/
theorem edit_of_allProse {change : Place → List Node}
    (hchange : ∀ place : Place, allHeadsIn Branch.isNoDefinitionList place.here = true →
      change place = place.here) (head : Branch) :
    (Node.branch head blocks).edit change = .branch head blocks := by
  rw [edit_branch, editFrom_of_allHeads hchange _ _ (allHeadsIn_isNoDefinitionList h)]
  rfl

/-- A visit that only rewrites in details changes nothing in prose. -/
theorem edit_inDetails_of_allProse (rewrite : Bool → Node → Node) :
    (Node.branch (.container .root hint span) blocks).edit (inDetails rewrite) =
      .branch (.container .root hint span) blocks := by
  have hroot : (Branch.container .root hint span).isNamed .descriptionDetails = false := rfl
  have hvisit := visit_prose rewrite (fun _ _ => ([] : List Unit))
    (Node.visitBudget (.branch (.container .root hint span) blocks)) hroot [] h
  rw [edit_branch, hvisit.1]
  rfl

theorem gatherDetails_of_allProse :
    (Node.branch (.container .root hint span) blocks).gatherDetails =
      .branch (.container .root hint span) blocks := by
  simp [Node.gatherDetails, Node.mapBottomUp, gatherHere, Branch.isContainer,
    mapBottomUpList_gatherHere_of_allProse h]

theorem joinRuns_of_allProse : joinRuns [] blocks = blocks := by
  induction blocks with
  | nil => rfl
  | cons block more ih =>
      obtain ⟨hblock, hmore⟩ := (Node.allProse_cons block more).1 h
      unfold joinRuns
      split
      · next heq => cases heq
      · next heq =>
          cases heq
          simp [Branch.isSpecial, Container.isSpecial] at hblock
      · next heq =>
          cases heq
          rw [ih hmore]
          rfl

/-- Where no definition list stands, no stage after the builder changes anything but cleaning. -/
theorem Stage.apply_of_prose {stage : Stage} (hs : stage ∈ Stage.late) (hc : stage ≠ .cleanup)
    (extended : Bool) {work : Work} (hw : work.tree = .branch (.container .root hint span) blocks) :
    stage.apply extended work = (work, none) := by
  have hchanged (f : Node → Node) (hf : f work.tree = work.tree) :
      ((work.onTree f, none) : Work × Option SpanFault) = (work, none) := by
    rw [Work.onTree, hf]
  have hlate : stage = .detailMerger ∨ stage = .siblingList ∨ stage = .listKind ∨ stage = .cleanup ∨
      stage = .orphanAbsorber ∨ stage = .coalescer := by simpa [Stage.late] using hs
  rcases hlate with rfl | rfl | rfl | rfl | rfl | rfl
  · exact hchanged Node.gatherDetails (by rw [hw, gatherDetails_of_allProse h])
  · exact hchanged Node.absorbSiblingLists
      (by rw [hw]; exact edit_of_allProse h absorbSiblingList_of_allHeads _)
  · exact hchanged Node.resolveKinds
      (by rw [hw]; exact edit_inDetails_of_allProse h fun _ => resolveKind)
  · exact absurd rfl hc
  · exact hchanged Node.absorbOrphans
      (by rw [hw]; exact edit_of_allProse h absorbOrphanRun_of_allHeads _)
  · exact hchanged Node.joinAdjacent (by rw [hw, Node.joinAdjacent, joinRuns_of_allProse h])

end Stages

/-! ### Trees of containers -/

/-- Whether a node with children is a container: no list, and no item of one. -/
def Branch.isAnyContainer : Branch → Bool
  | .container _ _ _ => true
  | _ => false

/-- A container is no list and no item. -/
theorem isList_of_isAnyContainer {node : Node} (h : node.allHeads Branch.isAnyContainer = true) :
    node.isList = false ∧ node.isListItem = false := by
  cases node with
  | leaf content => exact ⟨rfl, rfl⟩
  | branch head children =>
      have hhead := ((Node.allHeads_branch head children).1 h).1
      cases head with
      | container kind hint span => exact ⟨rfl, rfl⟩
      | heading | list | listItem | link | other => cases hhead

mutual

theorem filled_of_isAnyContainer :
    ∀ {node : Node}, node.allHeads Branch.isAnyContainer = true → node.Filled
  | .leaf _, _ => Node.allFilled_nil
  | .branch head children, h => allFilled_of_isAnyContainer ((Node.allHeads_branch head children).1 h).2

/-- Where there is no item, none is empty. -/
theorem allFilled_of_isAnyContainer :
    ∀ {nodes : List Node}, allHeadsIn Branch.isAnyContainer nodes = true → Node.AllFilled nodes
  | [], _ => Node.allFilled_nil
  | node :: more, h => by
      obtain ⟨hnode, hmore⟩ := (Node.allHeadsIn_cons node more).1 h
      have hitem := (isList_of_isAnyContainer hnode).2
      exact Node.allFilled_cons.2 ⟨by simp [hitem], filled_of_isAnyContainer hnode,
        allFilled_of_isAnyContainer hmore⟩

end

theorem resolveKind_of_isList {node : Node} (h : node.isList = false) : resolveKind node = node := by
  unfold resolveKind
  split
  · cases h
  · rfl

theorem isList_resolveKind (node : Node) : (resolveKind node).isList = node.isList := by
  unfold resolveKind
  split
  · rfl
  · rfl

theorem cleanList_of_isList (seeded : Bool) {node : Node} (h : node.isList = false) :
    cleanList seeded node = node := by
  unfold cleanList
  split
  · cases h
  · rfl

section Containers

variable {root : Branch} {nodes : List Node} (h : allHeadsIn Branch.isAnyContainer nodes = true)

include h

/-- A visit that changes nothing among containers leaves a tree of them as it is. -/
theorem edit_of_containers {change : Place → List Node}
    (hchange : ∀ place : Place, allHeadsIn Branch.isAnyContainer place.here = true →
      change place = place.here) : (Node.branch root nodes).edit change = .branch root nodes := by
  rw [edit_branch, editFrom_of_allHeads hchange _ _ h]
  rfl

/-- There is no list to take in. -/
theorem absorbSiblingLists_of_containers :
    (Node.branch root nodes).absorbSiblingLists = .branch root nodes := by
  refine edit_of_containers h fun place hplace => ?_
  unfold absorbSiblingList
  split
  · next hint span children next after heq =>
      rw [heq] at hplace
      have hlater := ((Node.allHeadsIn_cons _ _).1 hplace).2
      have hnext := (isList_of_isAnyContainer ((Node.allHeadsIn_cons next after).1 hlater).1).1
      rw [hnext, heq]
      rfl
  · rfl

/-- A visit that only rewrites lists in details finds none. -/
theorem edit_inDetails_of_containers {rewrite : Bool → Node → Node}
    (hrewrite : ∀ opens node, node.isList = false → rewrite opens node = node) :
    (Node.branch root nodes).edit (inDetails rewrite) = .branch root nodes := by
  refine edit_of_containers h fun place hplace => ?_
  unfold inDetails
  split
  · next node after heq =>
      rw [heq] at hplace ⊢
      have hnode := (isList_of_isAnyContainer ((Node.allHeadsIn_cons node after).1 hplace).1).1
      rw [hrewrite _ node hnode, ite_self]
  · next heq => rw [heq]

/-- Where there is no list, no list is numbered. -/
theorem resolveKinds_of_containers : (Node.branch root nodes).resolveKinds = .branch root nodes :=
  @edit_inDetails_of_containers root nodes h (fun _ => resolveKind) fun _ _ => resolveKind_of_isList

/-- Cleaning finds nothing to cut or to remove. -/
theorem cleanUp_of_containers (seeded : Bool) :
    (Node.branch root nodes).cleanUp seeded = .branch root nodes := by
  have hcleaned : (Node.branch root nodes).edit (inDetails fun opens => cleanList (seeded && opens)) =
      .branch root nodes := edit_inDetails_of_containers h fun _ _ => cleanList_of_isList _
  have hfilled : (Node.branch root nodes).Filled := allFilled_of_isAnyContainer h
  have hcleanUp : (Node.branch root nodes).cleanUp seeded = (removeEmptyItems ((Node.branch root
      nodes).edit (inDetails fun opens => cleanList (seeded && opens)))).1 := rfl
  rw [hcleanUp, hcleaned, Node.removeEmptyItems_of_filled hfilled]

end Containers

/-- Stages that all leave a document as it is are run without a trace. -/
theorem runStages_of_inert {extended : Bool} {work : Work} {stages : List Stage}
    (h : ∀ stage ∈ stages, stage.apply extended work = (work, none)) :
    runStages extended work stages = .ok work := by
  induction stages with
  | nil => rfl
  | cons stage more ih =>
      obtain ⟨hstage, hmore⟩ := List.forall_mem_cons.1 h
      simp only [runStages, hstage, ih hmore]

end DefinitionLists
