/-
Module: DefinitionLists.Proofs.Outline.Stages
Purpose: Every stage keeps documents outlined, so what a converter makes of a text is outlined.
Main exports: Stage.outlined_apply, outlined_of_runStages, outlined_of_process
-/
import DefinitionLists.Proofs.Heads.Stages
import DefinitionLists.Proofs.InDetails
import DefinitionLists.Proofs.Outline.Formation
import DefinitionLists.Proofs.Run

namespace DefinitionLists

open Node (allProse)

/-! ### The rewriting of the text -/

/-- No definition list stands in what is read from Markdown. -/
theorem Node.outlined_ofMarkdown (extended : Bool) (text : List Char) :
    (ofMarkdown extended text).Outlined := by
  obtain ⟨blocks, heq, hprose⟩ := ofMarkdown_root extended text
  refine ⟨none, _, blocks, heq, fun block hb => .inl ?_⟩
  exact allProse_iff.1 hprose block hb

theorem Node.outlined_prenormalize {extended : Bool} {source : List Char} {tree : Node}
    (h : tree.Outlined) : (tree.prenormalize extended source).1.Outlined := by
  obtain ⟨hint, span, blocks, rfl, hblocks⟩ := h
  unfold Node.prenormalize
  simp only
  split
  · exact ⟨hint, span, blocks, rfl, hblocks⟩
  · refine ⟨hint, _, _, rfl, fun block hb => .inl ?_⟩
    exact allProse_iff.1 (allProse_ofMarkdown extended _) block hb

/-! ### Items gathered in details -/

mutual

/-- Prose has no details, so there is nothing to gather in it. -/
theorem mapBottomUp_gatherHere_of_isProse :
    ∀ {node : Node}, node.isProse = true → node.mapBottomUp gatherHere = node
  | .leaf _, _ => rfl
  | .branch head children, h => by
      obtain ⟨hhead, hchildren⟩ := (Node.isProse_branch _ _).1 h
      have hdetails : head.isContainer .descriptionDetails = false := by
        cases head with
        | container kind hint span =>
            cases kind <;> simp_all [Branch.isSpecial, Container.isSpecial, Branch.isContainer]
        | _ => rfl
      simp [Node.mapBottomUp, gatherHere, hdetails, mapBottomUpList_gatherHere_of_allProse hchildren]

theorem mapBottomUpList_gatherHere_of_allProse :
    ∀ {nodes : List Node}, allProse nodes = true → Node.mapBottomUpList gatherHere nodes = nodes
  | [], _ => rfl
  | node :: more, h => by
      obtain ⟨hnode, hmore⟩ := (Node.allProse_cons _ _).1 h
      rw [Node.mapBottomUpList, mapBottomUp_gatherHere_of_isProse hnode,
        mapBottomUpList_gatherHere_of_allProse hmore]

end

theorem Parts.gatherDetails {reached : Reached} {parts : List Node} (h : Parts reached parts) :
    Parts reached (parts.map (Node.mapBottomUp gatherHere)) := by
  refine h.map (fun inlines hinlines => ?_) (fun blocks hblocks => ?_)
  · simp [Node.descriptionTerm, Node.mapBottomUp, gatherHere, Branch.isContainer,
      mapBottomUpList_gatherHere_of_allProse hinlines]
  · refine ⟨gatherItems [] blocks, ?_,
      allHeadsIn_gatherItems Branch.allowsLists_prose Node.allHeadsIn_nil hblocks⟩
    simp [Node.descriptionDetails, Node.mapBottomUp, gatherHere, Branch.isContainer,
      mapBottomUpList_gatherHere_of_allProse hblocks]

theorem Node.outlined_gatherDetails {tree : Node} (h : tree.Outlined) :
    tree.gatherDetails.Outlined := by
  rw [outlined_iff_fits] at h ⊢
  obtain ⟨hint, span, blocks, rfl, hblocks⟩ := h
  refine ⟨hint, span, blocks.map (mapBottomUp gatherHere), ?_, fun block hb => ?_⟩
  · simp [gatherDetails, mapBottomUp, gatherHere, Branch.isContainer, mapBottomUpList_eq_map]
  · obtain ⟨old, hold, rfl⟩ := List.mem_map.1 hb
    cases hblocks old hold with
    | prose prose =>
        rw [mapBottomUp_gatherHere_of_isProse prose]
        exact .prose prose
    | definitions whole =>
        have hparts := whole.gatherDetails
        rw [← mapBottomUpList_eq_map] at hparts
        simpa [descriptionList, mapBottomUp, gatherHere, Branch.isContainer]
          using IsBlock.definitions hparts

/-! ### Visits -/

/-- A visit that keeps the siblings at each place fitting keeps documents outlined. -/
theorem Node.outlined_edit {change : Place → List Node}
    (hchange : ∀ place : Place, Fits place.parent place.siblings →
      Fits place.parent (place.before.reverse ++ change place))
    {tree : Node} (h : tree.Outlined) : (tree.edit change).Outlined := by
  rw [outlined_iff_fits] at h ⊢
  obtain ⟨hint, span, blocks, rfl, hblocks⟩ := h
  rw [edit_branch]
  exact ⟨hint, span, _, rfl, editFrom_fits hchange Fits.inner Fits.replace _
    ⟨.container .root hint span, [], blocks⟩ hblocks⟩

/-- A definition list at a place may be replaced by one with other parts, and nodes after it may go
away. -/
theorem Fits.changeDefinitionList {parent : Branch} {hint : Option String} {span : Option Span}
    {before parts parts' after after' : List Node}
    (h : Fits parent (before ++ .branch (.container .descriptionList hint span) parts :: after))
    (hsub : ∀ node ∈ after', node ∈ after)
    (hparts : Parts .start parts → (∀ node ∈ after, IsBlock node) → Parts .start parts') :
    Fits parent (before ++ .branch (.container .descriptionList hint span) parts' :: after') := by
  have hwhole : Parts .start parts := h.inner
  obtain ⟨hroot, rfl, rfl⟩ := h.definitionList
  cases parent with
  | container kind hint span =>
      have hkind : Container.root = kind := by simpa [Branch.isContainer] using hroot
      subst hkind
      intro block hb
      rcases List.mem_append.1 hb with hb | hb
      · exact h block (by simp [hb])
      · rcases List.mem_cons.1 hb with rfl | hb
        · exact .definitions (hparts hwhole fun node hn => h node (by simp [hn]))
        · exact h block (by simp [hsub block hb])
  | _ => simp [Branch.isContainer] at hroot

/-- A list taken into the last details leaves the order of parts as it was. -/
theorem Parts.takeIntoLastDetails {reached : Reached} {list : Node} {parts parts' : List Node}
    (hl : list.isProse = true) (hp : Parts reached parts)
    (h : takeIntoLastDetails? list parts = some parts') : Parts reached parts' := by
  fun_induction takeIntoLastDetails? list parts generalizing reached parts' with
  | case1 => cases h
  | case2 hint span children =>
      cases h
      cases hp with
      | details named prose rest => exact .details named (allHeadsIn_takeInList hl prose) .done
  | case3 => cases h
  | case4 first second more ih =>
      obtain ⟨rest', hrest, rfl⟩ := Option.map_eq_some_iff.1 h
      cases hp with
      | term free prose rest => exact .term free prose (ih rest hrest)
      | details named prose rest => exact .details named prose (ih rest hrest)

theorem IsBlock.isProse {node : Node} (h : IsBlock node)
    (hl : node.isContainer .descriptionList = false) : node.isProse = true := by
  cases h with
  | prose prose => exact prose
  | definitions _ => simp [Node.isContainer, Branch.isContainer, Node.descriptionList] at hl

theorem fits_absorbSiblingList (place : Place) (h : Fits place.parent place.siblings) :
    Fits place.parent (place.before.reverse ++ absorbSiblingList place.here) := by
  obtain ⟨parent, before, here⟩ := place
  simp only [Place.siblings] at h ⊢
  unfold absorbSiblingList
  split
  · next hint span parts next after =>
      simp only
      split
      · next hnext =>
          split
          · next parts' heq =>
              refine h.changeDefinitionList (fun node hn => by simp [hn]) fun hparts hafter => ?_
              refine hparts.takeIntoLastDetails ((hafter next (by simp)).isProse ?_) heq
              cases next with
              | leaf content => rfl
              | branch head children => cases head <;> simp_all [Node.isList, Node.isContainer,
                  Branch.isContainer]
          · exact h
      · exact h
  · exact h

theorem fits_absorbOrphanRun (place : Place) (h : Fits place.parent place.siblings) :
    Fits place.parent (place.before.reverse ++ absorbOrphanRun place.here) := by
  obtain ⟨parent, before, here⟩ := place
  simp only [Place.siblings] at h ⊢
  unfold absorbOrphanRun
  split
  · next hint span parts after =>
      split
      · exact h
      · next run hrun =>
          refine h.changeDefinitionList
            (fun node hn => (List.dropWhile_sublist _).subset hn) fun hparts hafter => ?_
          refine hparts.append (.details (by simp) (Node.allProse_iff.2 fun node hn => ?_) .done)
          have horphan : isOrphan node = true := List.all_eq_true.1 List.all_takeWhile node hn
          refine (hafter node ((List.takeWhile_sublist _).subset hn)).isProse ?_
          cases node with
          | leaf content => rfl
          | branch head children =>
              cases head with
              | container kind hint span =>
                  cases kind <;> simp_all [isOrphan, Node.isList, Node.isContainer,
                    Branch.isContainer]
              | _ => rfl
  · exact h

/-- A change of a node that stands in details, to other prose. -/
theorem Fits.changeInDetails {parent : Branch} {node node' : Node} {before after : List Node}
    (h : Fits parent (before ++ node :: after))
    (hd : parent.isNamed .descriptionDetails = true)
    (hn : node.isProse = true → node'.isProse = true) :
    Fits parent (before ++ node' :: after) := by
  have hprose (children : List Node) : Fits parent children ↔ allProse children = true := by
    unfold Fits
    split
    · simp at hd
    · simp at hd
    · rfl
  rw [hprose, Node.allProse_append, Node.allProse_cons] at h ⊢
  exact ⟨h.1, hn h.2.1, h.2.2⟩

theorem isProse_resolveKind {node : Node} (h : node.isProse = true) :
    (resolveKind node).isProse = true :=
  Node.allHeads_resolveKind Branch.allowsLists_prose h

theorem isProse_cleanList {seeded : Bool} {node : Node} (h : node.isProse = true) :
    (cleanList seeded node).isProse = true :=
  Node.allHeads_cleanList Branch.allowsLists_prose h

/-! ### Empty items -/

theorem allProse_removeEmptyItemsAmong {nodes : List Node} (h : allProse nodes = true) :
    allProse (removeEmptyItemsAmong nodes).1 = true :=
  allHeadsIn_removeEmptyItemsAmong h

theorem Parts.removeEmptyItemsAmong {reached : Reached} {parts : List Node}
    (h : Parts reached parts) : Parts reached (removeEmptyItemsAmong parts).1 := by
  induction h with
  | done => exact .done
  | term free prose _ ih => exact .term free (allProse_removeEmptyItemsAmong prose) ih
  | details named prose _ ih => exact .details named (allProse_removeEmptyItemsAmong prose) ih

theorem isBlock_removeEmptyItemsAmong {blocks : List Node} (h : ∀ block ∈ blocks, IsBlock block) :
    ∀ block ∈ (removeEmptyItemsAmong blocks).1, IsBlock block := by
  induction blocks with
  | nil => simp [removeEmptyItemsAmong]
  | cons block more ih =>
      obtain ⟨hblock, hmore⟩ := List.forall_mem_cons.1 h
      have hfirst : IsBlock (removeEmptyItems block).1 := by
        cases hblock with
        | prose prose => exact .prose (Node.allHeads_removeEmptyItems prose)
        | definitions whole => exact .definitions whole.removeEmptyItemsAmong
      simp only [removeEmptyItemsAmong]
      split
      · exact ih hmore
      · exact List.forall_mem_cons.2 ⟨hfirst, ih hmore⟩

theorem outlined_removeEmptyItems {tree : Node} (h : tree.Outlined) :
    (removeEmptyItems tree).1.Outlined := by
  rw [outlined_iff_fits] at h ⊢
  obtain ⟨hint, span, blocks, rfl, hblocks⟩ := h
  exact ⟨hint, span, _, rfl, isBlock_removeEmptyItemsAmong hblocks⟩

/-! ### Joined definition lists -/

/-- Definition lists that are joined are whole, since each of them ends in details. -/
theorem isBlock_joinRuns {pending blocks : List Node} (hp : pending ≠ [] → Parts .start pending)
    (h : ∀ block ∈ blocks, IsBlock block) : ∀ block ∈ joinRuns pending blocks, IsBlock block := by
  have hlist {parts : List Node} (hparts : parts ≠ [] → Parts .start parts) :
      ∀ block ∈ definitionListOf parts, IsBlock block := by
    intro block hb
    unfold definitionListOf at hb
    split at hb
    · cases hb
    · next hne =>
        rw [List.mem_singleton.1 hb]
        exact .definitions (hparts (by simpa using hne))
  fun_induction joinRuns pending blocks with
  | case1 pending => exact hlist hp
  | case2 pending hint span parts more ih =>
      obtain ⟨hblock, hmore⟩ := List.forall_mem_cons.1 h
      have hparts : Parts .start parts := by
        cases hblock with
        | prose prose => simp [Branch.isSpecial, Container.isSpecial] at prose
        | definitions whole => exact whole
      refine ih (fun _ => ?_) hmore
      cases pending with
      | nil => exact hparts
      | cons part rest => exact (hp (by simp)).append hparts.afterDetails
  | case3 pending node more _ ih =>
      obtain ⟨hblock, hmore⟩ := List.forall_mem_cons.1 h
      intro block hb
      rcases List.mem_append.1 hb with hb | hb
      · exact hlist hp block hb
      · rcases List.mem_cons.1 hb with rfl | hb
        · exact hblock
        · exact ih (by simp) hmore block hb

theorem Node.outlined_joinAdjacent {tree : Node} (h : tree.Outlined) :
    tree.joinAdjacent.Outlined := by
  rw [outlined_iff_fits] at h ⊢
  obtain ⟨hint, span, blocks, rfl, hblocks⟩ := h
  exact ⟨hint, span, _, rfl, isBlock_joinRuns (by simp) hblocks⟩

/-! ### All stages -/

/-- A visit that turns prose in details into prose keeps documents outlined. -/
theorem Node.outlined_editInDetails (rewrite : Bool → Node → Node)
    (hprose : ∀ opens {node : Node}, node.isProse = true → (rewrite opens node).isProse = true)
    {tree : Node} (h : tree.Outlined) : (tree.edit (inDetails rewrite)).Outlined := by
  refine outlined_edit (fun place hfits => ?_) h
  obtain ⟨parent, before, here⟩ := place
  unfold inDetails
  cases here with
  | nil => exact hfits
  | cons node after =>
      simp only [Place.siblings] at hfits ⊢
      split
      · next hd => exact hfits.changeInDetails hd (hprose _)
      · exact hfits

theorem Node.outlined_resolveKinds {tree : Node} (h : tree.Outlined) :
    tree.resolveKinds.Outlined :=
  outlined_editInDetails (fun _ => resolveKind) (fun _ _ => isProse_resolveKind) h

theorem Node.outlined_cleanUp {seeded : Bool} {tree : Node} (h : tree.Outlined) :
    (tree.cleanUp seeded).Outlined :=
  outlined_removeEmptyItems (outlined_editInDetails
    (fun opens => cleanList (seeded && opens)) (fun _ _ => isProse_cleanList) h)

/-- No stage takes a document out of its outline, in whatever order the stages come. -/
theorem Stage.outlined_apply {extended : Bool} {work : Work} (stage : Stage)
    (h : work.tree.Outlined) : (stage.apply extended work).1.tree.Outlined := by
  cases stage with
  | prenormalizer => exact Node.outlined_prenormalize h
  | builder => exact Node.outlined_formDefinitions h
  | detailMerger => exact Node.outlined_gatherDetails h
  | siblingList => exact Node.outlined_edit fits_absorbSiblingList h
  | listKind => exact Node.outlined_resolveKinds h
  | cleanup => exact Node.outlined_cleanUp h
  | orphanAbsorber => exact Node.outlined_edit fits_absorbOrphanRun h
  | coalescer => exact Node.outlined_joinAdjacent h

theorem outlined_of_runStages {extended : Bool} {work done : Work} {stages : List Stage}
    (h : work.tree.Outlined) (hr : runStages extended work stages = .ok done) :
    done.tree.Outlined :=
  tree_of_runStages (fun stage _ _ hwork => stage.outlined_apply hwork) h hr

theorem Converter.outlined_process {converter : Converter} {source : List Char} {tree : Node}
    (h : converter.process source = .ok tree) : tree.Outlined := by
  obtain ⟨done, hdone, rfl⟩ := Converter.process_eq_ok_iff.1 h
  exact outlined_of_runStages (Node.outlined_ofMarkdown _ _) hdone

/-- Whatever the settings, a converted document has its definition lists directly below the root,
each shown as `dl` and made of groups of one term and its details, and no part of a definition list
stands elsewhere. -/
theorem outlined_of_process {settings : Settings} {source : List Char} {tree : Node}
    (h : process settings source = .ok tree) : tree.Outlined := by
  unfold process at h
  split at h
  · next converter _ =>
      cases hp : converter.process source with
      | error fault =>
          rw [hp] at h
          cases h
      | ok tree' =>
          rw [hp] at h
          cases h
          exact Converter.outlined_process hp
  · cases h

/-- A term and two definition lines make one list of one group. -/
theorem outlined_of_two_definitions :
    ∃ tree, process {} "Term\n: first\n: second\n".toList = .ok tree ∧ tree.Outlined := by
  have hprocess : process {} "Term\n: first\n: second\n".toList =
      .ok (.branch (.container .root none (some ⟨0, 24⟩)) [.descriptionList (Group.nodes
        ⟨[.text "Term"], [.branch (.container .paragraph none (some ⟨0, 5⟩)) [.text "first"]],
          [[.branch (.container .paragraph none (some ⟨0, 6⟩)) [.text "second"]]]⟩)]) := by
    decide +kernel
  exact ⟨_, hprocess, outlined_of_process hprocess⟩

end DefinitionLists
