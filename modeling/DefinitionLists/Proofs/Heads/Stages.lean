/-
Module: DefinitionLists.Proofs.Heads.Stages
Purpose: What every step on the way to definition lists keeps of the nodes of a tree: if all of them are
  of some kind, they still are, as long as that kind has room for lists and for the parts of
  definition lists.
Main exports: allHeadsIn_gatherItems, Branch.AllowsDefinitions, Node.allHeads_edit,
  Stage.allHeads_apply
-/
import DefinitionLists.Proofs.Fragments
import DefinitionLists.Proofs.Heads
import DefinitionLists.Proofs.Visit
import DefinitionLists.Stage

namespace DefinitionLists

open Node (allHeads allHeadsIn)

variable {good : Branch → Bool}

/-! ### Texts of items -/

@[simp] theorem Node.allHeads_mapFirstText (f : String → String) (node : Node) :
    (node.mapFirstText f).allHeads good = node.allHeads good := by
  unfold mapFirstText
  split
  · simp [allHeads, allHeadsIn]
  · rfl

theorem allHeadsIn_map_mapFirstText (f : String → String) {items : List Node}
    (h : allHeadsIn good items = true) : allHeadsIn good (items.map (Node.mapFirstText f)) = true := by
  rw [Node.allHeadsIn_iff] at h ⊢
  intro node hn
  obtain ⟨item, hi, rfl⟩ := List.mem_map.1 hn
  rw [Node.allHeads_mapFirstText]
  exact h item hi

/-! ### Items and lists -/

theorem allHeadsIn_extendFirstList {items nodes nodes' : List Node}
    (hi : allHeadsIn good items = true) (hn : allHeadsIn good nodes = true)
    (h : extendFirstList? items nodes = some nodes') : allHeadsIn good nodes' = true := by
  fun_induction extendFirstList? items nodes generalizing nodes' with
  | case1 => cases h
  | case2 ordered start spread hint own more =>
      cases h
      simp_all [Node.allHeadsIn_append]
  | case3 node more _ ih =>
      obtain ⟨more', hmore, rfl⟩ := Option.map_eq_some_iff.1 h
      simp only [Node.allHeadsIn_cons] at hn ⊢
      exact ⟨hn.1, ih hn.2 hmore⟩

theorem allHeadsIn_takeInList {list : Node} {children : List Node} (hl : list.allHeads good = true)
    (hc : allHeadsIn good children = true) : allHeadsIn good (takeInList list children) = true := by
  unfold takeInList
  cases h : extendFirstList? list.children children with
  | none => simp [Node.allHeadsIn_append, hl, hc]
  | some children' =>
      refine allHeadsIn_extendFirstList ?_ hc h
      cases list with
      | leaf content => exact Node.allHeadsIn_nil
      | branch head children => exact ((Node.allHeads_branch _ _).1 hl).2

section Lists

variable (hg : Branch.AllowsLists good)
include hg

theorem Node.allHeads_itemOfText (value : String) : (itemOfText value).allHeads good = true := by
  have hparagraph : (paragraph [.text value]).allHeads good = true :=
    allHeads_paragraph hg (by simp)
  simp [itemOfText, hg.item, hparagraph]

theorem allHeadsIn_splitItem {item : Node} (h : item.allHeads good = true) :
    allHeadsIn good (splitItem item) = true := by
  unfold splitItem
  split
  · simp [h]
  · split
    · simp [h]
    · split
      · simp [h]
      · next others _ =>
          rw [Node.allHeadsIn_cons, Node.allHeads_mapFirstText]
          refine ⟨h, Node.allHeadsIn_iff.2 fun node hn => ?_⟩
          obtain ⟨text, -, rfl⟩ := List.mem_map.1 hn
          exact Node.allHeads_itemOfText hg _

theorem allHeadsIn_listOf {items : List Node} (h : allHeadsIn good items = true) :
    allHeadsIn good (listOf items) = true := by
  unfold listOf
  split
  · exact Node.allHeadsIn_nil
  · simp [Node.bulletList, hg.list, h]

theorem allHeadsIn_looseItems {node : Node} {items : List Node} (hn : node.allHeads good = true)
    (h : looseItems? node = some items) : allHeadsIn good items = true := by
  unfold looseItems? at h
  split at h
  · cases h
    exact allHeadsIn_splitItem hg hn
  · split at h
    · cases h
      simp [Node.allHeads_itemOfText hg]
    · cases h
  · cases h

theorem allHeadsIn_gatherItems {items children : List Node} (hi : allHeadsIn good items = true)
    (hc : allHeadsIn good children = true) : allHeadsIn good (gatherItems items children) = true := by
  induction children generalizing items with
  | nil => exact allHeadsIn_listOf hg hi
  | cons child more ih =>
      obtain ⟨hchild, hmore⟩ := (Node.allHeadsIn_cons _ _).1 hc
      unfold gatherItems
      split
      · next new heq =>
          exact ih (Node.allHeadsIn_append.2 ⟨hi, allHeadsIn_looseItems hg hchild heq⟩) hmore
      · have hlist := allHeadsIn_listOf hg hi
        have hrest := ih Node.allHeadsIn_nil hmore
        exact Node.allHeadsIn_append.2 ⟨hlist, (Node.allHeadsIn_cons _ _).2 ⟨hchild, hrest⟩⟩

theorem Node.allHeads_gatherHere {node : Node} (h : node.allHeads good = true) :
    (gatherHere node).allHeads good = true := by
  unfold gatherHere
  split
  · split
    · obtain ⟨hhead, hchildren⟩ := (allHeads_branch _ _).1 h
      exact (allHeads_branch _ _).2 ⟨hhead, allHeadsIn_gatherItems hg allHeadsIn_nil hchildren⟩
    · exact h
  · exact h

theorem Node.allHeads_resolveKind {node : Node} (h : node.allHeads good = true) :
    (resolveKind node).allHeads good = true := by
  unfold resolveKind
  split
  · rw [allHeads_branch] at h
    simp [hg.list, allHeadsIn_map_mapFirstText _ h.2]
  · exact h

theorem Node.allHeads_cleanList {seeded : Bool} {node : Node} (h : node.allHeads good = true) :
    (cleanList seeded node).allHeads good = true := by
  unfold cleanList
  split
  · next items =>
      rw [allHeads_branch] at h
      have hitems := allHeadsIn_map_mapFirstText
        (fun text => String.ofList (cutFragments text.toList)) h.2
      refine (allHeads_branch _ _).2 ⟨hg.list _ _ _ _, ?_⟩
      split
      · exact allHeadsIn_of_subset hitems fun node hn => List.mem_of_mem_drop hn
      · exact hitems
  · exact h

end Lists

/-! ### Empty items -/

mutual

theorem Node.allHeads_removeEmptyItems :
    ∀ {node : Node}, node.allHeads good = true → (removeEmptyItems node).1.allHeads good = true
  | .leaf _, _ => rfl
  | .branch head children, h => by
      obtain ⟨hhead, hchildren⟩ := (Node.allHeads_branch _ _).1 h
      exact (Node.allHeads_branch _ _).2 ⟨hhead, allHeadsIn_removeEmptyItemsAmong hchildren⟩

theorem allHeadsIn_removeEmptyItemsAmong : ∀ {nodes : List Node},
    allHeadsIn good nodes = true → allHeadsIn good (removeEmptyItemsAmong nodes).1 = true
  | [], _ => rfl
  | node :: more, h => by
      obtain ⟨hnode, hmore⟩ := (Node.allHeadsIn_cons _ _).1 h
      have hkept := allHeadsIn_removeEmptyItemsAmong hmore
      simp only [removeEmptyItemsAmong]
      split
      · exact hkept
      · exact (Node.allHeadsIn_cons _ _).2 ⟨Node.allHeads_removeEmptyItems hnode, hkept⟩

end

/-! ### Visits -/

/-- What a change of siblings keeps, a visit with it keeps. -/
theorem Node.allHeads_edit {change : Place → List Node}
    (hchange : ∀ place : Place, allHeadsIn good place.here = true →
      allHeadsIn good (change place) = true)
    {tree : Node} (h : tree.allHeads good = true) : (tree.edit change).allHeads good = true := by
  cases tree with
  | leaf content => exact h
  | branch head children =>
      obtain ⟨hhead, hchildren⟩ := (allHeads_branch _ _).1 h
      rw [edit_branch, allHeads_branch]
      refine ⟨hhead, ?_⟩
      -- at every place the visit comes to, the siblings before it and those after it are all allowed
      refine @editFrom_fits change (fun _ nodes => allHeadsIn good nodes = true) ?_ ?_ ?_ _
        ⟨head, [], children⟩ hchildren
      · intro place hplace
        obtain ⟨hbefore, hhere⟩ := allHeadsIn_append.1 hplace
        exact allHeadsIn_append.2 ⟨hbefore, hchange place hhere⟩
      · intro parent head before children after hnodes
        obtain ⟨-, hnode⟩ := allHeadsIn_append.1 hnodes
        exact ((allHeads_branch _ _).1 ((allHeadsIn_cons _ _).1 hnode).1).2
      · intro parent head before children children' after hnodes hchildren'
        obtain ⟨hbefore, hafter⟩ := allHeadsIn_append.1 hnodes
        obtain ⟨hnode, hmore⟩ := (allHeadsIn_cons _ _).1 hafter
        have hhead := ((allHeads_branch _ _).1 hnode).1
        exact allHeadsIn_append.2
          ⟨hbefore, (allHeadsIn_cons _ _).2 ⟨(allHeads_branch _ _).2 ⟨hhead, hchildren'⟩, hmore⟩⟩

mutual

theorem Node.allHeads_mapBottomUp {f : Node → Node}
    (hf : ∀ {node : Node}, node.allHeads good = true → (f node).allHeads good = true) :
    ∀ {node : Node}, node.allHeads good = true → (node.mapBottomUp f).allHeads good = true
  | .leaf content, h => hf h
  | .branch head children, h => by
      obtain ⟨hhead, hchildren⟩ := (Node.allHeads_branch _ _).1 h
      exact hf ((Node.allHeads_branch _ _).2 ⟨hhead, Node.allHeadsIn_mapBottomUpList hf hchildren⟩)

theorem Node.allHeadsIn_mapBottomUpList {f : Node → Node}
    (hf : ∀ {node : Node}, node.allHeads good = true → (f node).allHeads good = true) :
    ∀ {nodes : List Node}, allHeadsIn good nodes = true →
      allHeadsIn good (Node.mapBottomUpList f nodes) = true
  | [], _ => Node.allHeadsIn_nil
  | node :: more, h => by
      obtain ⟨hnode, hmore⟩ := (Node.allHeadsIn_cons _ _).1 h
      exact (Node.allHeadsIn_cons _ _).2
        ⟨Node.allHeads_mapBottomUp hf hnode, Node.allHeadsIn_mapBottomUpList hf hmore⟩

end

/-- A visit that rewrites the nodes in details. -/
theorem Node.allHeads_editInDetails {rewrite : Place → Node → Node}
    (hrewrite : ∀ (place : Place) {node : Node}, node.allHeads good = true →
      (rewrite place node).allHeads good = true)
    {tree : Node} (h : tree.allHeads good = true) :
    (tree.edit fun place =>
      match place.here with
      | node :: after =>
        if place.parent.isNamed .descriptionDetails then rewrite place node :: after
        else node :: after
      | [] => []).allHeads good = true := by
  refine allHeads_edit (fun place hhere => ?_) h
  split
  · next node after heq =>
      rw [heq, allHeadsIn_cons] at hhere
      split
      · exact (allHeadsIn_cons _ _).2 ⟨hrewrite place hhere.1, hhere.2⟩
      · exact (allHeadsIn_cons _ _).2 hhere
  · exact allHeadsIn_nil

/-! ### Neighbours -/

theorem allHeadsIn_takeIntoLastDetails {list : Node} {parts parts' : List Node}
    (hl : list.allHeads good = true) (hp : allHeadsIn good parts = true)
    (h : takeIntoLastDetails? list parts = some parts') : allHeadsIn good parts' = true := by
  fun_induction takeIntoLastDetails? list parts generalizing parts' with
  | case1 => cases h
  | case2 hint span children =>
      cases h
      rw [Node.allHeadsIn_cons, Node.allHeads_branch] at hp ⊢
      exact ⟨⟨hp.1.1, allHeadsIn_takeInList hl hp.1.2⟩, Node.allHeadsIn_nil⟩
  | case3 => cases h
  | case4 first second more ih =>
      obtain ⟨rest', hrest, rfl⟩ := Option.map_eq_some_iff.1 h
      rw [Node.allHeadsIn_cons] at hp ⊢
      exact ⟨hp.1, ih hp.2 hrest⟩

theorem allHeadsIn_absorbSiblingList {here : List Node} (h : allHeadsIn good here = true) :
    allHeadsIn good (absorbSiblingList here) = true := by
  unfold absorbSiblingList
  split
  · next hint span parts next after =>
      simp only
      split
      · split
        · next parts' heq =>
            simp only [Node.allHeadsIn_cons, Node.allHeads_branch] at h ⊢
            obtain ⟨⟨hhead, hparts⟩, hnext, hafter⟩ := h
            exact ⟨⟨hhead, allHeadsIn_takeIntoLastDetails hnext hparts heq⟩, hafter⟩
        · exact h
      · exact h
  · exact h

/-- A kind of nodes that also the parts of definition lists are of which stages make. -/
structure Branch.AllowsDefinitions (good : Branch → Bool) : Prop extends AllowsLists good where
  descriptionList : good (.container .descriptionList (some "dl") none) = true
  descriptionTerm : good (.container .descriptionTerm (some "dt") none) = true
  descriptionDetails : good (.container .descriptionDetails (some "dd") none) = true

section Definitions

variable (hg : Branch.AllowsDefinitions good)
include hg

theorem allHeadsIn_absorbOrphanRun {here : List Node} (h : allHeadsIn good here = true) :
    allHeadsIn good (absorbOrphanRun here) = true := by
  unfold absorbOrphanRun
  split
  · next hint span parts after =>
      split
      · exact h
      · obtain ⟨hlist, hafter⟩ := (Node.allHeadsIn_cons _ _).1 h
        obtain ⟨hhead, hparts⟩ := (Node.allHeads_branch _ _).1 hlist
        have hrun : allHeadsIn good (after.takeWhile isOrphan) = true :=
          Node.allHeadsIn_of_subset hafter (List.takeWhile_sublist _).subset
        have hrest : allHeadsIn good (after.dropWhile isOrphan) = true :=
          Node.allHeadsIn_of_subset hafter (List.dropWhile_sublist _).subset
        simp [Node.allHeadsIn_append, Node.descriptionDetails, hhead, hparts,
          hg.descriptionDetails, hrun, hrest]
  · exact h

theorem allHeadsIn_definitionListOf {parts : List Node} (h : allHeadsIn good parts = true) :
    allHeadsIn good (definitionListOf parts) = true := by
  unfold definitionListOf
  split
  · exact Node.allHeadsIn_nil
  · simp [Node.descriptionList, hg.descriptionList, h]

theorem allHeadsIn_joinRuns {pending blocks : List Node} (hp : allHeadsIn good pending = true)
    (h : allHeadsIn good blocks = true) : allHeadsIn good (joinRuns pending blocks) = true := by
  fun_induction joinRuns pending blocks with
  | case1 pending => exact allHeadsIn_definitionListOf hg hp
  | case2 pending hint span parts more ih =>
      obtain ⟨hlist, hmore⟩ := (Node.allHeadsIn_cons _ _).1 h
      exact ih (Node.allHeadsIn_append.2 ⟨hp, ((Node.allHeads_branch _ _).1 hlist).2⟩) hmore
  | case3 pending node more _ ih =>
      obtain ⟨hnode, hmore⟩ := (Node.allHeadsIn_cons _ _).1 h
      refine Node.allHeadsIn_append.2 ⟨allHeadsIn_definitionListOf hg hp, ?_⟩
      exact (Node.allHeadsIn_cons _ _).2 ⟨hnode, ih Node.allHeadsIn_nil hmore⟩

theorem Node.allHeads_joinAdjacent {tree : Node} (h : tree.allHeads good = true) :
    tree.joinAdjacent.allHeads good = true := by
  unfold joinAdjacent
  split
  · obtain ⟨hhead, hchildren⟩ := (allHeads_branch _ _).1 h
    exact (allHeads_branch _ _).2 ⟨hhead, allHeadsIn_joinRuns hg allHeadsIn_nil hchildren⟩
  · exact h

end Definitions

/-! ### Forming definition lists -/

section Formation

open Text (byteLength lines trimStart weight)

variable {extended : Bool} {bound : Nat} (hg : Branch.AllowsDefinitions good)
  (hread : ∀ text : List Char, byteLength text ≤ bound →
    allHeadsIn good (Node.ofMarkdown extended text).children = true)
include hread

theorem allHeadsIn_termInlines {text : List Char} (h : byteLength text ≤ bound) :
    allHeadsIn good (termInlines extended text) = true := by
  have hblocks := hread text h
  unfold termInlines
  split
  · next heq =>
      rw [heq, Node.allHeadsIn_cons, Node.allHeads_branch] at hblocks
      exact hblocks.1.2
  · simp

include hg

theorem allHeadsIn_detailsNodes {details : List (List Char)}
    (h : ∀ body ∈ details, byteLength body ≤ bound) :
    allHeadsIn good (detailsNodes extended details) = true := by
  rw [Node.allHeadsIn_iff]
  intro node hnode
  obtain ⟨body, hbody, rfl⟩ := List.mem_map.1 hnode
  exact (Node.allHeads_branch _ _).2 ⟨hg.descriptionDetails, hread body (h body hbody)⟩

theorem allHeadsIn_entryNodes {entry : Entry} (h : entry.FitsIn bound) :
    allHeadsIn good (entry.nodes extended) = true := by
  rw [Entry.nodes, Node.allHeadsIn_cons, Node.descriptionTerm, Node.allHeads_branch]
  exact ⟨⟨hg.descriptionTerm, allHeadsIn_termInlines hread h.term⟩,
    allHeadsIn_detailsNodes hg hread h.details⟩

theorem allHeadsIn_flatMap_entryNodes {entries : List Entry}
    (h : ∀ entry ∈ entries, entry.FitsIn bound) :
    allHeadsIn good (entries.flatMap (Entry.nodes extended)) = true := by
  rw [Node.allHeadsIn_iff]
  intro node hnode
  obtain ⟨entry, hentry, hnode⟩ := List.mem_flatMap.1 hnode
  exact Node.allHeadsIn_iff.1 (allHeadsIn_entryNodes hg hread (h entry hentry)) node hnode

/-- Terms and details are read from pieces of the paragraph's text, so that they fit in the same bound.
-/
theorem allHeadsIn_takeParagraph {state : Formation} {paragraph : Node} {texts : List (List Char)}
    (hw : weight texts ≤ bound + 1) (hm : allHeadsIn good state.made = true)
    (hp : paragraph.allHeads good = true) :
    allHeadsIn good (state.takeParagraph extended paragraph texts).made = true := by
  have hfits : ∀ entry ∈ splitEntries texts, entry.FitsIn bound :=
    fun entry hentry => fitsIn_of_mem_splitEntries hw hentry
  have hlist {parts made : List Node} (hparts : allHeadsIn good parts = true)
      (hmade : allHeadsIn good made = true) :
      allHeadsIn good (.descriptionList parts :: made) = true := by
    simp [Node.descriptionList, hg.descriptionList, hparts, hmade]
  generalize hnext : state.takeParagraph extended paragraph texts = next
  rcases Formation.made_of_takeParagraph hnext with hstays | ⟨first, more, hentries, hcases⟩
  · rw [hstays]
    exact (Node.allHeadsIn_cons _ _).2 ⟨hp, hm⟩
  · rw [hentries, List.forall_mem_cons] at hfits
    have hmore := allHeadsIn_flatMap_entryNodes hg hread hfits.2
    have hdetails := allHeadsIn_detailsNodes hg hread hfits.1.details
    -- a new definition list, one that goes on, or one whose term was already waiting
    rcases hcases with hmade | ⟨hint, span, children, made, hbefore, hmade⟩ |
      ⟨hint, span, term, made, hbefore, hmade⟩
    · rw [hmade]
      exact hlist (Node.allHeadsIn_append.2 ⟨allHeadsIn_entryNodes hg hread hfits.1, hmore⟩) hm
    · rw [hbefore, Node.allHeadsIn_cons, Node.allHeads_branch] at hm
      rw [hmade]
      simp [Node.allHeadsIn_append, hm.1.1, hm.1.2, hdetails, hmore, hm.2]
    · rw [hbefore, Node.allHeadsIn_cons, Node.allHeads_branch] at hm
      rw [hmade]
      apply hlist _ hm.2
      simp [Node.allHeadsIn_append, Node.descriptionTerm, hg.descriptionTerm, hm.1.2, hdetails, hmore]

/-- A paragraph is taken apart into texts that are read again, so these have to be within the bound. -/
theorem allHeadsIn_take {source : List Char} {state state' : Formation} {child : Node}
    (hm : allHeadsIn good state.made = true) (hc : child.allHeads good = true)
    (htext : ∀ hint span children text, child = .branch (.container .paragraph hint span) children →
      paragraphText source span children = .ok text → byteLength text ≤ bound)
    (h : state.take extended source child = .ok state') : allHeadsIn good state'.made = true := by
  unfold Formation.take at h
  split at h
  · next hint span children =>
      split at h
      · next text heq =>
          cases h
          have hlength := htext hint span children text rfl heq
          have hlines := Text.weight_lines_le text
          have htrimmed := Text.weight_map_trimStart_le (lines text)
          exact allHeadsIn_takeParagraph hg hread (by omega) hm hc
      · cases h
  · cases h
    exact (Node.allHeadsIn_cons _ _).2 ⟨hc, hm⟩

/-- Each child of the root is taken up on its own. -/
theorem allHeadsIn_foldlM_take {source : List Char} {state state' : Formation}
    {children : List Node} (hm : allHeadsIn good state.made = true)
    (hc : allHeadsIn good children = true)
    (htext : ∀ hint span inlines text,
      .branch (.container .paragraph hint span) inlines ∈ children →
        paragraphText source span inlines = .ok text → byteLength text ≤ bound)
    (h : children.foldlM (Formation.take extended source) state = .ok state') :
    allHeadsIn good state'.made = true := by
  induction children generalizing state with
  | nil =>
      cases h
      exact hm
  | cons child more ih =>
      obtain ⟨hchild, hmore⟩ := (Node.allHeadsIn_cons _ _).1 hc
      rw [List.foldlM_cons] at h
      cases ht : state.take extended source child with
      | error fault =>
          rw [ht] at h
          cases h
      | ok next =>
          rw [ht] at h
          have hnext := allHeadsIn_take hg hread hm hchild
            (fun hint span inlines text heq => htext hint span inlines text (by simp [heq])) ht
          exact ih hnext hmore (fun hint span inlines text hmem =>
            htext hint span inlines text (List.mem_cons_of_mem _ hmem)) h

theorem Node.allHeads_formDefinitions {source : List Char} {tree : Node}
    (htext : ∀ hint span inlines text,
      .branch (.container .paragraph hint span) inlines ∈ tree.children →
        paragraphText source span inlines = .ok text → byteLength text ≤ bound)
    (h : tree.allHeads good = true) :
    (tree.formDefinitions extended source).1.allHeads good = true := by
  unfold formDefinitions
  split
  · next hint span children =>
      obtain ⟨hhead, hchildren⟩ := (allHeads_branch _ _).1 h
      simp only
      split
      · next state hstate =>
          have hmade := allHeadsIn_foldlM_take hg hread allHeadsIn_nil hchildren htext hstate
          have hreverse := allHeadsIn_of_subset hmade fun node hn => List.mem_reverse.1 hn
          exact (allHeads_branch _ _).2 ⟨hhead, hreverse⟩
      · exact (allHeads_branch _ _).2 ⟨hhead, allHeadsIn_nil⟩
  · exact h

end Formation

/-! ### All stages -/

/-- The stages that read no text keep nodes of a kind. -/
theorem Stage.allHeads_apply (hg : Branch.AllowsDefinitions good) {extended : Bool} {work : Work}
    {stage : Stage} (hp : stage ≠ .prenormalizer) (hb : stage ≠ .builder)
    (h : work.tree.allHeads good = true) :
    (stage.apply extended work).1.tree.allHeads good = true := by
  cases stage with
  | prenormalizer => exact absurd rfl hp
  | builder => exact absurd rfl hb
  | detailMerger => exact Node.allHeads_mapBottomUp (Node.allHeads_gatherHere hg.toAllowsLists) h
  | siblingList => exact Node.allHeads_edit (fun _ hhere => allHeadsIn_absorbSiblingList hhere) h
  | listKind =>
      exact Node.allHeads_editInDetails (fun _ => Node.allHeads_resolveKind hg.toAllowsLists) h
  | cleanup =>
      exact Node.allHeads_removeEmptyItems
        (Node.allHeads_editInDetails (fun _ => Node.allHeads_cleanList hg.toAllowsLists) h)
  | orphanAbsorber => exact Node.allHeads_edit (fun _ hhere => allHeadsIn_absorbOrphanRun hg hhere) h
  | coalescer => exact Node.allHeads_joinAdjacent hg h

end DefinitionLists
