/-
Module: DefinitionLists.Proofs.FilledItems
Purpose: Trees in which no item of a list is empty. Cleaning makes every tree one of them, and the
  stages that come after it leave it one.
Main exports: Node.Filled, Node.filled_removeEmptyItems, Node.filled_absorbOrphans,
  Node.filled_joinAdjacent, filled_of_transform
-/
import DefinitionLists.Proofs.Outline.Stages

namespace DefinitionLists

namespace Node

/-- Whether every item among the nodes and below them has children. -/
def AllFilled (nodes : List Node) : Prop :=
  ∀ item ∈ preorderList nodes, item.isListItem = true → item.children ≠ []

/-- Whether every item below the node has children. The node itself may be an item without any. -/
def Filled (tree : Node) : Prop := AllFilled tree.children

theorem allFilled_nil : AllFilled [] := by
  intro item hi
  simp [preorderList] at hi

theorem allFilled_append {first second : List Node} :
    AllFilled (first ++ second) ↔ AllFilled first ∧ AllFilled second := by
  simp only [AllFilled, preorderList_eq_flatMap, List.flatMap_append, List.mem_append]
  constructor
  · intro h
    exact ⟨fun item hi => h item (.inl hi), fun item hi => h item (.inr hi)⟩
  · rintro ⟨hf, hs⟩ item (hi | hi)
    · exact hf item hi
    · exact hs item hi

theorem allFilled_cons {node : Node} {more : List Node} : AllFilled (node :: more) ↔
    (node.isListItem = true → node.children ≠ []) ∧ AllFilled node.children ∧ AllFilled more := by
  have hmore : AllFilled (node :: more) ↔ AllFilled [node] ∧ AllFilled more :=
    @allFilled_append [node] more
  have hnode : AllFilled [node] ↔
      (node.isListItem = true → node.children ≠ []) ∧ AllFilled node.children := by
    cases node with
    | leaf content => simp [AllFilled, preorderList, preorder, children]
    | branch head children =>
        simp only [AllFilled, preorderList, preorder, List.append_nil, List.forall_mem_cons,
          Node.children]
  rw [hmore, hnode, and_assoc]

theorem allFilled_iff {nodes : List Node} : AllFilled nodes ↔
    ∀ node ∈ nodes, (node.isListItem = true → node.children ≠ []) ∧ node.Filled := by
  induction nodes with
  | nil => exact iff_of_true allFilled_nil (by simp)
  | cons node more ih => rw [allFilled_cons, ih, List.forall_mem_cons, and_assoc, Filled]

theorem allFilled_branch_cons {head : Branch} {children more : List Node} :
    AllFilled (.branch head children :: more) ↔
      ((Node.branch head children).isListItem = true → children ≠ []) ∧ AllFilled children ∧
        AllFilled more :=
  allFilled_cons

theorem allFilled_leaf (content : Leaf) : AllFilled [.leaf content] :=
  allFilled_cons.2 ⟨by simp [isListItem], allFilled_nil, allFilled_nil⟩

/-- A container is no item, so only what is in it counts. -/
theorem allFilled_container {kind : Container} {hint : Option String} {span : Option Span}
    {children more : List Node} : AllFilled (.branch (.container kind hint span) children :: more) ↔
      AllFilled children ∧ AllFilled more := by
  rw [allFilled_branch_cons]
  simp [isListItem]

/-! ### Cleaning -/

mutual

/-- An item that has lost all its children is removed itself, since those below it are looked at first.
-/
theorem filled_removeEmptyItems : ∀ node : Node, (removeEmptyItems node).1.Filled
  | .leaf _ => allFilled_nil
  | .branch _ children => allFilled_removeEmptyItemsAmong children

/-- An item goes if nothing is left in it, and what goes is below no item that stays. -/
theorem allFilled_removeEmptyItemsAmong :
    ∀ nodes : List Node, AllFilled (removeEmptyItemsAmong nodes).1
  | [] => allFilled_nil
  | node :: more => by
      have hnode : AllFilled (removeEmptyItems node).1.children := filled_removeEmptyItems node
      have hmore := allFilled_removeEmptyItemsAmong more
      simp only [removeEmptyItemsAmong]
      split
      · exact hmore
      · next hkept => exact allFilled_cons.2 ⟨by simpa using hkept, hnode, hmore⟩

end

mutual

/-- A tree without empty items stays as it is. -/
theorem removeEmptyItems_of_filled :
    ∀ {node : Node}, node.Filled → removeEmptyItems node = (node, 0)
  | .leaf _, _ => rfl
  | .branch _ children, h => by
      have hchildren : removeEmptyItemsAmong children = (children, 0) :=
        removeEmptyItemsAmong_of_allFilled h
      rw [removeEmptyItems, hchildren]

/-- Where no item is empty, none is removed. -/
theorem removeEmptyItemsAmong_of_allFilled :
    ∀ {nodes : List Node}, AllFilled nodes → removeEmptyItemsAmong nodes = (nodes, 0)
  | [], _ => rfl
  | node :: more, h => by
      obtain ⟨hitem, hchildren, hmore⟩ := allFilled_cons.1 h
      have hkept : ¬ (node.isListItem && node.children.isEmpty) = true := by
        simpa using hitem
      rw [removeEmptyItemsAmong, removeEmptyItems_of_filled hchildren,
        removeEmptyItemsAmong_of_allFilled hmore]
      simp only
      rw [if_neg hkept]

end

theorem filled_cleanUp (seeded : Bool) (tree : Node) : (tree.cleanUp seeded).Filled :=
  filled_removeEmptyItems _

/-! ### Neighbours

The stages after cleaning move whole nodes and wrap some. An item keeps its children filled, and
keeps at least one child, for the definition list that takes in its neighbours stays. -/

/-- Whether nodes come out filled if they go in filled, and do not come out empty otherwise. -/
def KeepsFilled (nodes nodes' : List Node) : Prop :=
  (AllFilled nodes → AllFilled nodes') ∧ (nodes ≠ [] → nodes' ≠ [])

theorem KeepsFilled.append {before after after' : List Node} (h : KeepsFilled after after') :
    KeepsFilled (before ++ after) (before ++ after') := by
  constructor
  · intro hf
    rw [allFilled_append] at hf ⊢
    exact ⟨hf.1, h.1 hf.2⟩
  · cases before with
    | nil => exact h.2
    | cons first more => simp

theorem KeepsFilled.branch {head : Branch} {children children' after : List Node}
    (h : KeepsFilled children children') :
    KeepsFilled (.branch head children :: after) (.branch head children' :: after) := by
  constructor
  · intro hf
    rw [allFilled_branch_cons] at hf ⊢
    obtain ⟨hitem, hchildren, hafter⟩ := hf
    refine ⟨fun hhead => h.2 (hitem ?_), h.1 hchildren, hafter⟩
    cases head <;> simp_all [isListItem]
  · simp

/-- What a definition list takes up goes into details, which are no item. -/
theorem keepsFilled_absorbOrphanRun (here : List Node) :
    KeepsFilled here (absorbOrphanRun here) := by
  unfold absorbOrphanRun
  split
  · next hint span parts after =>
      split
      · exact ⟨id, id⟩
      · refine ⟨fun hf => ?_, by simp⟩
        obtain ⟨-, hparts, hafter⟩ := allFilled_branch_cons.1 hf
        rw [← List.takeWhile_append_dropWhile (p := isOrphan) (l := after), allFilled_append] at hafter
        have hdetails : AllFilled [descriptionDetails (after.takeWhile isOrphan)] :=
          allFilled_branch_cons.2 ⟨by simp [isListItem], hafter.1, allFilled_nil⟩
        exact allFilled_branch_cons.2
          ⟨by simp [isListItem], allFilled_append.2 ⟨hparts, hdetails⟩, hafter.2⟩
  · exact ⟨id, id⟩

theorem filled_absorbOrphans {tree : Node} (h : tree.Filled) : tree.absorbOrphans.Filled := by
  cases tree with
  | leaf content => exact h
  | branch head children =>
      rw [absorbOrphans, edit_branch]
      refine (editFrom_related KeepsFilled (fun _ => ⟨id, id⟩) (fun hf hs => ?_)
        KeepsFilled.append KeepsFilled.branch
        (fun place => keepsFilled_absorbOrphanRun place.here) _ ⟨head, [], children⟩).1 h
      exact ⟨hs.1 ∘ hf.1, hs.2 ∘ hf.2⟩

theorem allFilled_definitionListOf {parts : List Node} (h : AllFilled parts) :
    AllFilled (definitionListOf parts) := by
  unfold definitionListOf
  split
  · exact allFilled_nil
  · exact allFilled_branch_cons.2 ⟨by simp [isListItem], h, allFilled_nil⟩

theorem allFilled_joinRuns {pending nodes : List Node} (hp : AllFilled pending)
    (hn : AllFilled nodes) : AllFilled (joinRuns pending nodes) := by
  fun_induction joinRuns pending nodes with
  | case1 pending => exact allFilled_definitionListOf hp
  | case2 pending hint span parts more ih =>
      obtain ⟨-, hparts, hmore⟩ := allFilled_branch_cons.1 hn
      exact ih (allFilled_append.2 ⟨hp, hparts⟩) hmore
  | case3 pending node more _ ih =>
      obtain ⟨hitem, hchildren, hmore⟩ := allFilled_cons.1 hn
      exact allFilled_append.2 ⟨allFilled_definitionListOf hp,
        allFilled_cons.2 ⟨hitem, hchildren, ih allFilled_nil hmore⟩⟩

theorem filled_joinAdjacent {tree : Node} (h : tree.Filled) : tree.joinAdjacent.Filled := by
  unfold joinAdjacent
  split
  · exact allFilled_joinRuns allFilled_nil h
  · exact h

end Node

/-- Unless the settings disable cleaning, a converted tree has no item without children below its
top, whatever the tree was, and whatever other stages ran. -/
theorem filled_of_transform {settings : Settings} {converter : Converter}
    (h : settings.converter = .ok converter)
    (hc : Stage.cleanup.name ∉ settings.disabled.map normalizeKey) {tree result : Node}
    {source : List Char} (ht : converter.transform tree source = .ok result) : result.Filled := by
  obtain ⟨hstages, -⟩ := Settings.converter_eq_ok h
  obtain ⟨before, after, hsplit, hafter⟩ := Settings.stages_around_cleanup hstages hc
  obtain ⟨done, hrun, rfl⟩ := Converter.transform_eq_ok_iff.1 ht
  rw [hsplit] at hrun
  obtain ⟨reached, -, hrun⟩ := runStages_append_eq_ok hrun
  have hcleaned : (reached.onTree (Node.cleanUp reached.prenormalized)).tree.Filled :=
    Node.filled_cleanUp _ _
  refine tree_of_runStages (fun stage hs work hwork => ?_) hcleaned hrun
  rcases hafter stage hs with rfl | rfl
  · exact Node.filled_absorbOrphans hwork
  · exact Node.filled_joinAdjacent hwork

/-- Two items that hold only one another and an empty one go, and the definition list before the
list takes in the item with text that is left. -/
theorem filled_of_nested_empty_items :
    ∃ converter, Settings.converter {} = .ok converter ∧
      Stage.cleanup.name ∉ ([] : List String).map normalizeKey ∧
      ∃ result, converter.transform (.plain .root [.descriptionList [],
          .bulletList [.branch (.listItem false none none) [.branch (.listItem false none none) []],
            .itemOfText "a"]]) [] = .ok result ∧ result.Filled := by
  have htransform : Converter.standard.transform (.plain .root [.descriptionList [],
      .bulletList [.branch (.listItem false none none) [.branch (.listItem false none none) []],
        .itemOfText "a"]]) [] =
      .ok (.plain .root [.descriptionList [.descriptionDetails [.bulletList [.itemOfText "a"]]]]) := by
    decide +kernel
  have hconverter : Settings.converter {} = .ok .standard := rfl
  exact ⟨.standard, hconverter, by simp, _, htransform,
    filled_of_transform hconverter (by simp) htransform⟩

end DefinitionLists
