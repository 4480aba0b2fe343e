/-
Module: DefinitionLists.Proofs.Seeds.Text
Purpose: The text of a document from cleaning on: only dropped items take characters away. With it,
  when the lines that the advanced variant repeats leave more in the text than the basic one has.
Main exports: plainText_removeEmptyItems, plainText_afterCleanup, Node.cutLists,
  Node.Outlined.count_cutLists, count_plainText_le_iff
-/
import DefinitionLists.Proofs.Node.Text
import DefinitionLists.Proofs.Seeds

namespace DefinitionLists

open Node (allProse plainTexts)

/-! ### Changes that keep the text -/

/-- Only the children of an item have text. -/
theorem Node.plainText_of_isListItem {node : Node} (h : node.isListItem = true) :
    node.plainText = plainTexts node.children := by
  obtain ⟨spread, checked, hint, children, rfl⟩ := eq_item_of_isListItem h
  rfl

mutual

/-- Items that hold nothing have no text. -/
theorem plainText_removeEmptyItems : ∀ node : Node,
    (removeEmptyItems node).1.plainText = node.plainText
  | .leaf _ => rfl
  | .branch _ children => Node.plainText_branch_congr (plainTexts_removeEmptyItemsAmong children)

theorem plainTexts_removeEmptyItemsAmong : ∀ nodes : List Node,
    plainTexts (removeEmptyItemsAmong nodes).1 = plainTexts nodes
  | [] => rfl
  | node :: more => by
      have hnode := plainText_removeEmptyItems node
      have hmore := plainTexts_removeEmptyItemsAmong more
      simp only [removeEmptyItemsAmong]
      split
      · next hempty =>
          rw [Bool.and_eq_true, List.isEmpty_iff] at hempty
          rw [Node.plainText_of_isListItem hempty.1, hempty.2] at hnode
          rw [hmore, Node.plainTexts_cons, ← hnode, Node.plainTexts_nil, String.empty_append]
      · rw [Node.plainTexts_cons, Node.plainTexts_cons, hnode, hmore]

end

theorem plainTexts_absorbOrphanRun (here : List Node) :
    plainTexts (absorbOrphanRun here) = plainTexts here := by
  unfold absorbOrphanRun
  split
  · next hint span children after =>
      split
      · rfl
      · next run _ =>
          have hafter := congrArg plainTexts
            (List.takeWhile_append_dropWhile (p := isOrphan) (l := after))
          rw [Node.plainTexts_append] at hafter
          simp [Node.descriptionDetails, ← hafter, String.append_assoc]
  · rfl

/-- Taking in runs keeps the text. -/
theorem plainText_absorbOrphans (tree : Node) : tree.absorbOrphans.plainText = tree.plainText := by
  cases tree with
  | leaf content => rfl
  | branch head children =>
      unfold Node.absorbOrphans
      rw [Node.edit_branch]
      refine Node.plainText_branch_congr (Eq.symm ?_)
      refine Node.editFrom_related (fun nodes nodes' => plainTexts nodes = plainTexts nodes')
        (fun _ => rfl) Eq.trans (fun h => ?_) (fun h => ?_)
        (fun place => (plainTexts_absorbOrphanRun place.here).symm) _ ⟨head, [], children⟩
      · simp [h]
      · simp [Node.plainText_branch_congr h]

theorem plainTexts_definitionListOf (children : List Node) :
    plainTexts (definitionListOf children) = plainTexts children := by
  unfold definitionListOf
  split
  · next h => simp [List.isEmpty_iff.1 h]
  · simp [Node.descriptionList]

theorem plainTexts_joinRuns (pending nodes : List Node) :
    plainTexts (joinRuns pending nodes) = plainTexts pending ++ plainTexts nodes := by
  fun_induction joinRuns pending nodes with
  | case1 pending => simp [plainTexts_definitionListOf]
  | case2 pending hint span children more ih => simp [ih, String.append_assoc]
  | case3 pending node more _ ih => simp [ih, plainTexts_definitionListOf]

/-- Joining definition lists keeps the text. -/
theorem plainText_joinAdjacent (tree : Node) : tree.joinAdjacent.plainText = tree.plainText := by
  unfold Node.joinAdjacent
  split
  · exact Node.plainText_branch_congr (by simp [plainTexts_joinRuns])
  · rfl

/-- No text is lost or made after cleaning. -/
theorem plainText_afterCleanup (variant : Variant) (tree : Node) :
    (afterCleanup variant tree).plainText = tree.plainText := by
  cases variant with
  | basic => exact plainText_joinAdjacent tree
  | advanced => exact (plainText_joinAdjacent _).trans (plainText_absorbOrphans tree)

/-! ### What cleaning drops -/

/-- The tree with the fragments cut off in the lists in details, and no item dropped. -/
def Node.cutLists (tree : Node) : Node := tree.edit (inDetails fun _ => cleanList false)

/-- The text of a list that loses its first item lacks that item, and nothing else. -/
theorem count_cleanList (c : Char) (seeded : Bool) (node : Node) :
    (cleanList false node).plainText.toList.count c =
      (cleanList seeded node).plainText.toList.count c +
        (plainTexts ((seedOf seeded node).map Seed.item)).toList.count c := by
  cases node with
  | leaf content => rfl
  | branch head children =>
      cases head with
      | list ordered start spread hint =>
          cases h : children.map cutItem with
          | nil => cases seeded <;> simp [cleanList_list, seedOf, Node.plainText_list, h]
          | cons item later =>
              cases seeded
              · simp [cleanList_list, seedOf, Node.plainText_list, h]
              · simp [cleanList_list, seedOf, Node.plainText_list, h, Nat.add_comm]
      | _ => rfl

/-- Where characters go node by node, they go in all. -/
theorem count_plainTexts_map {c : Char} {f g : Node → Node} {noted : Node → List Seed}
    (nodes : List Node)
    (h : ∀ node ∈ nodes, (f node).plainText.toList.count c = (g node).plainText.toList.count c +
      (plainTexts ((noted node).map Seed.item)).toList.count c) :
    (plainTexts (nodes.map f)).toList.count c = (plainTexts (nodes.map g)).toList.count c +
      (plainTexts ((nodes.flatMap noted).map Seed.item)).toList.count c := by
  induction nodes with
  | nil => rfl
  | cons node more ih =>
      have hnode := h node (by simp)
      have hmore := ih fun other ho => h other (by simp [ho])
      simp only [List.map_cons, List.flatMap_cons, List.map_append, Node.plainTexts_cons,
        Node.plainTexts_append, String.toList_append, List.count_append]
      omega

theorem count_rewriteBlock (c : Char) (seeded : Bool) {block : Node} (h : IsBlock block) :
    (rewriteBlock (fun _ => cleanList false) block).plainText.toList.count c =
      (rewriteBlock (fun opens => cleanList (seeded && opens)) block).plainText.toList.count c +
        (plainTexts ((notedInBlock (fun opens => seedOf (seeded && opens)) block).map
          Seed.item)).toList.count c := by
  cases h with
  | prose prose =>
      have hlist : block.isContainer .descriptionList = false :=
        Node.isContainer_of_isProse prose rfl
      cases block with
      | leaf content => rfl
      | branch head children =>
          simp_all [rewriteBlock, notedInBlock, Node.isContainer]
  | @definitions parts whole =>
      refine count_plainTexts_map parts fun part hpart => ?_
      obtain ⟨children, -, rfl | rfl⟩ := whole.mem hpart
      · rfl
      · exact count_plainTexts_map children fun child _ => count_cleanList c _ child

/-- What cleaning takes from the text of an outlined document is the text of the items it drops. -/
theorem Node.Outlined.count_cutLists {tree : Node} (h : tree.Outlined) (seeded : Bool) (c : Char) :
    tree.cutLists.plainText.toList.count c =
      (tree.cleanUpNoting seeded).1.plainText.toList.count c +
        (plainTexts ((tree.cleanUpNoting seeded).2.map Seed.item)).toList.count c := by
  obtain ⟨hint, span, blocks, rfl, hblocks⟩ := outlined_iff_fits.1 h
  have hcut : Node.cutLists (.branch (.container .root hint span) blocks) =
      .branch (.container .root hint span)
        (blocks.map (rewriteBlock fun _ => cleanList false)) := by
    unfold cutLists
    rw [edit_eq_visit_noting _ (notedInDetails fun _ _ => ([] : List Seed)),
      visit_root _ _ (fun _ node => isList_cleanList false node)
        (fun _ _ hnode => isProse_cleanList hnode) hblocks]
  rw [hcut, cleanUpNoting_root hblocks, plainText_removeEmptyItems]
  exact count_plainTexts_map blocks fun block hb => count_rewriteBlock c seeded (hblocks block hb)

/-! ### What the repeated lines leave -/

/-- The variants differ by nothing but the text that they start from, up to cleaning. -/
theorem reachingCleanup_of_prenormalize_eq {extended : Bool} {source : List Char}
    {work work' : Work} (hs : prenormalize source = source)
    (h : reachingCleanup .advanced extended source = .ok work)
    (h' : reachingCleanup .basic extended source = .ok work') : work.tree = work'.tree := by
  cases source with
  | nil =>
      rw [reachingCleanup_nil] at h
      cases h
      cases extended <;> cases h' <;> rfl
  | cons c rest =>
      rw [reachingCleanup_advanced extended (by simp), hs, runStages_forming] at h
      rw [reachingCleanup_basic, runStages_forming] at h'
      simp only at h h'
      split at h
      · next tree heq =>
          rw [heq] at h'
          cases h
          cases h'
          rfl
      · cases h

/-- The advanced variant has no more of a character than the basic one exactly if what the repeated
lines add to the document that reaches cleaning is made up for by the items that cleaning drops. -/
theorem count_plainText_le_iff {extended : Bool} {source : List Char} {work work' : Work}
    (h : reachingCleanup .advanced extended source = .ok work)
    (h' : reachingCleanup .basic extended source = .ok work') :
    ∃ tree tree', Converter.process ⟨extended, Variant.advanced.stages⟩ source = .ok tree ∧
      Converter.process ⟨extended, Variant.basic.stages⟩ source = .ok tree' ∧
      (∀ c, tree.plainText.toList.count c ≤ tree'.plainText.toList.count c ↔
        work.tree.cutLists.plainText.toList.count c ≤ work'.tree.cutLists.plainText.toList.count c +
          (plainTexts ((work.tree.cleanUpNoting work.prenormalized).2.map
            Seed.item)).toList.count c) ∧
      (prenormalize source = source →
        ∀ c, tree.plainText.toList.count c ≤ tree'.plainText.toList.count c) := by
  have hflag : work'.prenormalized = false := prenormalized_of_forming h'
  have hcount (c : Char) := (outlined_of_reachingCleanup h).count_cutLists work.prenormalized c
  have hcount' (c : Char) := (outlined_of_reachingCleanup h').count_cutLists false c
  refine ⟨_, _, by rw [Converter.process_eq_map, h]; rfl,
    by rw [Converter.process_eq_map, h']; rfl, ?_⟩
  simp only [plainText_afterCleanup, ← Node.cleanUpNoting_fst, hflag]
  have hnone : (work'.tree.cleanUpNoting false).2 = [] := by
    refine List.eq_nil_iff_forall_not_mem.2 fun seed hseed => ?_
    simpa using ((mem_cleanUpNoting_iff (outlined_of_reachingCleanup h')).1 hseed).1
  simp only [hnone, List.map_nil, Node.plainTexts_nil, String.toList_empty, List.count_nil,
    Nat.add_zero] at hcount'
  refine ⟨fun c => ?_, fun hs c => ?_⟩
  · rw [hcount c, hcount' c]
    omega
  · have := hcount c
    rw [← hcount' c, ← reachingCleanup_of_prenormalize_eq hs h h']
    omega

/-- What the repeated line adds is made up for by the item that cleaning drops. -/
theorem count_plainText_le_of_marked_line :
    prenormalize "T\n: - a\n".toList ≠ "T\n: - a\n".toList ∧
      ∃ tree tree', Converter.process ⟨true, Variant.advanced.stages⟩ "T\n: - a\n".toList = .ok tree ∧
        Converter.process ⟨true, Variant.basic.stages⟩ "T\n: - a\n".toList = .ok tree' ∧
        ∀ c, tree.plainText.toList.count c ≤ tree'.plainText.toList.count c := by
  have hadvanced : (reachingCleanup .advanced true "T\n: - a\n".toList).map (fun work =>
      (work.tree.cutLists.plainText,
        plainTexts ((work.tree.cleanUpNoting work.prenormalized).2.map Seed.item))) =
      .ok ("Taa", "a") := by
    decide +kernel
  have hbasic : (reachingCleanup .basic true "T\n: - a\n".toList).map
      (fun work => work.tree.cutLists.plainText) = .ok "Ta" := by
    decide +kernel
  obtain ⟨work, hwork, htexts⟩ := exists_ok_of_map_eq_ok hadvanced
  obtain ⟨work', hwork', htext'⟩ := exists_ok_of_map_eq_ok hbasic
  obtain ⟨htext, hdropped⟩ := Prod.mk.inj htexts
  obtain ⟨tree, tree', htree, htree', hiff, -⟩ := count_plainText_le_iff hwork hwork'
  refine ⟨by decide +kernel, tree, tree', htree, htree', fun c => (hiff c).2 ?_⟩
  rw [htext, htext', hdropped, ← List.count_append]
  exact Nat.le_refl _

/-- A marked definition line under a heading is repeated, but makes no definition list, so that its
repetition stays. -/
theorem not_forall_count_plainText_le : ¬ ∀ (extended : Bool) (source : List Char)
    (tree tree' : Node),
    Converter.process ⟨extended, Variant.advanced.stages⟩ source = .ok tree →
      Converter.process ⟨extended, Variant.basic.stages⟩ source = .ok tree' →
        ∀ c, c.isAlphanum = true →
          tree.plainText.toList.count c ≤ tree'.plainText.toList.count c := by
  intro hall
  have hadvanced : (Converter.process ⟨true, Variant.advanced.stages⟩ "# H\n: - x\n".toList).map
      (fun tree => tree.plainText.toList.count 'x') = .ok 2 := by
    decide +kernel
  have hbasic : (Converter.process ⟨true, Variant.basic.stages⟩ "# H\n: - x\n".toList).map
      (fun tree => tree.plainText.toList.count 'x') = .ok 1 := by
    decide +kernel
  obtain ⟨tree, htree, hcount⟩ := exists_ok_of_map_eq_ok hadvanced
  obtain ⟨tree', htree', hcount'⟩ := exists_ok_of_map_eq_ok hbasic
  have hle := hall true _ tree tree' htree htree' 'x' (by decide)
  simp only [hcount, hcount'] at hle
  omega

end DefinitionLists
