/-
Module: DefinitionLists.Proofs.Cleaning.FirstItems
Purpose: Which items cleaning takes away where lines were repeated: the first one of every list in details
  that open with a list, not only that of the list which opens them.
Main exports: HasSingleSeed, Node.HasSingleSeeds, DropsAlike, dropsAlike_iff,
  cleanUp_drops_opening_items_iff
-/
import DefinitionLists.Proofs.Cleaning.Sweep

namespace DefinitionLists

open Node (isHollow mapBottomUp withoutAmong)

/-! ### Hollow nodes -/

namespace Node

/-- Two lists of nodes are left with the same if they are node by node. -/
theorem withoutAmong_cons_inj {first first' : Node} {more more' : List Node}
    (h : first.isHollow = first'.isHollow) :
    withoutAmong isHollow (first :: more) = withoutAmong isHollow (first' :: more') ↔
      (first.isHollow = false → first.without isHollow = first'.without isHollow) ∧
        withoutAmong isHollow more = withoutAmong isHollow more' := by
  rw [withoutAmong, withoutAmong, ← h]
  cases first.isHollow with
  | true => simp
  | false => simp

/-- Two rewrites that agree on which nodes are hollow leave the same nodes exactly if they agree on the
others. -/
theorem withoutAmong_map_inj {f g : Node → Node} {nodes : List Node}
    (h : ∀ node ∈ nodes, (f node).isHollow = (g node).isHollow) :
    withoutAmong isHollow (nodes.map f) = withoutAmong isHollow (nodes.map g) ↔
      ∀ node ∈ nodes, (f node).isHollow = false →
        (f node).without isHollow = (g node).without isHollow := by
  induction nodes with
  | nil => simp
  | cons node more ih =>
      obtain ⟨hnode, hmore⟩ := List.forall_mem_cons.1 h
      rw [List.map_cons, List.map_cons, withoutAmong_cons_inj hnode, ih hmore, List.forall_mem_cons]

/-- Only hollow nodes go. -/
theorem length_withoutAmong (nodes : List Node) :
    (withoutAmong isHollow nodes).length = nodes.countP (fun node => !node.isHollow) := by
  rw [withoutAmong_eq, List.length_map, List.countP_eq_length_filter]

/-- Only children of details change, and what makes an item hollow has no details in it. -/
theorem isHollow_dropSeeds (later : Bool) (node : Node) :
    (node.dropSeeds later).isHollow = node.isHollow :=
  isHollow_mapBottomUp (changesDetails_dropSeedsHere later) node

/-- As many nodes are kept, whichever first items go below them. -/
theorem countP_map_dropSeeds (later : Bool) (nodes : List Node) :
    (nodes.map (dropSeeds later)).countP (fun node => !node.isHollow) =
      nodes.countP (fun node => !node.isHollow) := by
  rw [List.countP_map]
  exact List.countP_congr fun node _ => by simp [isHollow_dropSeeds]

end Node

theorem isHollow_dropSeed (node : Node) : (dropSeed node).isHollow = node.isHollow := by
  unfold dropSeed
  split
  · simp [Node.isHollow, Node.preorder, Node.isListItem]
  · rfl

/-! ### Single seeds -/

/-- Whether a node, if it has the name of details and opens with a list, has no later list that begins
with an item which holds anything. -/
def HasSingleSeed (details : Node) : Prop :=
  details.isNamed .descriptionDetails = true → opensWithList details.children = true →
    ∀ list ∈ details.children.tail, list.isList = true →
      ∀ item ∈ list.children.head?, item.isHollow = true

/-- Whether all details of a tree that open with a list have but the first item of that list to lose. -/
def Node.HasSingleSeeds (tree : Node) : Prop := ∀ node ∈ tree.preorder, HasSingleSeed node

/-- Whether it makes no difference for a tree if later lists lose their first items too, once hollow
items are gone. -/
def DropsAlike (tree : Node) : Prop :=
  (tree.dropSeeds true).without isHollow = (tree.dropSeeds false).without isHollow

theorem hasSingleSeeds_leaf (content : Leaf) : (Node.leaf content).HasSingleSeeds := by
  intro node hnode hdetails
  rw [List.mem_singleton.1 hnode] at hdetails
  cases hdetails

/-- The condition on a tree is one on its root and one on each tree right below it. -/
theorem hasSingleSeeds_branch {head : Branch} {children : List Node} :
    (Node.branch head children).HasSingleSeeds ↔
      HasSingleSeed (.branch head children) ∧ ∀ child ∈ children, child.HasSingleSeeds := by
  simp only [Node.HasSingleSeeds, Node.mem_preorder_branch]
  constructor
  · intro h
    exact ⟨h _ (.inl rfl), fun child hchild node hnode => h node (.inr ⟨child, hchild, hnode⟩)⟩
  · rintro ⟨hown, hinner⟩ node (rfl | ⟨child, hchild, hnode⟩)
    · exact hown
    · exact hinner child hchild node hnode

/-! ### One node after the other -/

section Trees

variable {head : Branch}

/-- Where details do not open with a list, or there are none, all first items stay. -/
theorem dropSeeds_of_not_opening {children : List Node}
    (h : head.isNamed .descriptionDetails = true → opensWithList children = false)
    (later : Bool) : (Node.branch head children).dropSeeds later =
      .branch head (children.map (Node.dropSeeds later)) := by
  cases hd : head.isNamed .descriptionDetails with
  | false =>
      exact Node.mapBottomUp_of_not_details (changesDetails_dropSeedsHere later) hd children
  | true =>
      rw [Node.dropSeeds, mapBottomUp, Node.mapBottomUpList_eq_map, dropSeedsHere, if_pos hd]
      cases children with
      | nil => rfl
      | cons first more =>
          have hfirst : (mapBottomUp (dropSeedsHere later) first).isList = false :=
            (Node.isList_mapBottomUp (changesDetails_dropSeedsHere later) first).trans (h hd)
          -- the first child is no list, and without an opening list the later ones lose nothing either
          rw [List.map_cons, dropSeedsAmong, hfirst, Bool.and_false, dropSeed_of_not_isList hfirst]
          rfl

/-- A list loses its first item before or after the lists below lose theirs. -/
theorem dropSeed_dropSeeds (later : Bool) (node : Node) :
    dropSeed (node.dropSeeds later) = (dropSeed node).dropSeeds later :=
  (dropSeed_mapBottomUp (changesDetails_dropSeedsHere later) node).symm

/-- What opens details loses its first item, and later lists do if `later`. -/
theorem dropSeeds_of_opening (hd : head.isNamed .descriptionDetails = true) {first : Node}
    (hl : first.isList = true) (later : Bool) (more : List Node) :
    (Node.branch head (first :: more)).dropSeeds later =
      .branch head ((dropSeed first).dropSeeds later ::
        more.map fun node => (if later then dropSeed node else node).dropSeeds later) := by
  have hfirst : (mapBottomUp (dropSeedsHere later) first).isList = true :=
    (Node.isList_mapBottomUp (changesDetails_dropSeedsHere later) first).trans hl
  rw [Node.dropSeeds, mapBottomUp, Node.mapBottomUpList_eq_map, dropSeedsHere, if_pos hd,
    List.map_cons, dropSeedsAmong, hfirst, Bool.and_true, ← Node.dropSeeds, dropSeed_dropSeeds]
  cases later with
  | false => rfl
  | true =>
      rw [if_pos rfl, List.map_map]
      exact congrArg (fun nodes => Node.branch head (_ :: nodes))
        (List.map_congr_left fun node _ => dropSeed_dropSeeds true node)

theorem dropsAlike_of_isHollow {node : Node} (h : node.isHollow = true) : DropsAlike node := by
  cases node with
  | leaf content => cases h
  | branch head children =>
      have hitem := ((Node.isHollow_branch head children).1 h).1
      have hd : head.isNamed .descriptionDetails = true → opensWithList children = false := by
        intro hdetails
        have hnot : head.isNamed .descriptionDetails = false := Node.not_isDetails_of_isListItem hitem
        rw [hnot] at hdetails
        cases hdetails
      have hleft (later : Bool) :
          ((Node.branch head children).dropSeeds later).without isHollow = .branch head [] := by
        have hhollow := (Node.isHollow_dropSeeds later (.branch head children)).trans h
        rw [dropSeeds_of_not_opening hd] at hhollow ⊢
        exact Node.without_of_isHollow hhollow
      rw [DropsAlike, hleft, hleft]

/-- Siblings that all lose items in the same way. -/
theorem withoutAmong_map_dropSeeds {nodes : List Node} :
    withoutAmong isHollow (nodes.map (Node.dropSeeds true)) =
        withoutAmong isHollow (nodes.map (Node.dropSeeds false)) ↔ ∀ node ∈ nodes, DropsAlike node := by
  have hhollow (node : Node) : (node.dropSeeds true).isHollow = (node.dropSeeds false).isHollow :=
    (node.isHollow_dropSeeds true).trans (node.isHollow_dropSeeds false).symm
  rw [Node.withoutAmong_map_inj fun node _ => hhollow node]
  refine forall₂_congr fun node _ => ⟨fun h => ?_, fun h _ => h⟩
  cases hnode : node.isHollow with
  | true => exact dropsAlike_of_isHollow hnode
  | false => exact h ((node.isHollow_dropSeeds true).trans hnode)

theorem dropsAlike_of_not_opening {children : List Node}
    (h : head.isNamed .descriptionDetails = true → opensWithList children = false) :
    DropsAlike (.branch head children) ↔ ∀ child ∈ children, DropsAlike child := by
  rw [DropsAlike, dropSeeds_of_not_opening h, dropSeeds_of_not_opening h, Node.without, Node.without,
    Node.branch.injEq, ← withoutAmong_map_dropSeeds]
  exact and_iff_right rfl

/-- A later list is left with the same without its first item if there is nothing to lose. -/
theorem without_dropSeed_iff {node : Node} :
    ((dropSeed node).dropSeeds true).without isHollow = (node.dropSeeds false).without isHollow ↔
      (node.isList = true → ∀ item ∈ node.children.head?, item.isHollow = true) ∧
        DropsAlike node := by
  cases hlist : node.isList with
  | false => simp [dropSeed_of_not_isList hlist, DropsAlike]
  | true =>
      obtain ⟨ordered, start, spread, hint, items, rfl⟩ := Node.eq_list_of_isList hlist
      have hd (nodes : List Node) : (Branch.list ordered start spread hint).isNamed
          .descriptionDetails = true → opensWithList nodes = false := fun hdetails => by
        cases hdetails
      cases items with
      | nil => simp [DropsAlike, dropSeed, Node.children]
      | cons item more =>
          have hdrop : dropSeed (.branch (.list ordered start spread hint) (item :: more)) =
              .branch (.list ordered start spread hint) more := rfl
          have hhollow := item.isHollow_dropSeeds false
          rw [dropsAlike_of_not_opening (hd _), hdrop, dropSeeds_of_not_opening (hd _),
            dropSeeds_of_not_opening (hd _), Node.without, Node.without, Node.branch.injEq,
            and_iff_right rfl, List.map_cons, Node.withoutAmong, hhollow, List.forall_mem_cons]
          cases hitem : item.isHollow with
          | true =>
              rw [if_pos rfl, withoutAmong_map_dropSeeds]
              simp [Node.children, hitem, dropsAlike_of_isHollow hitem]
          | false =>
              -- one item less is left than there should be
              refine ⟨fun h => absurd (congrArg List.length h) ?_, fun h => ?_⟩
              · have hcount := Node.countP_map_dropSeeds true more
                have hcount' := Node.countP_map_dropSeeds false more
                rw [if_neg (by simp), List.length_cons, Node.length_withoutAmong,
                  Node.length_withoutAmong, hcount, hcount']
                omega
              · have hempty := h.1 rfl item rfl
                rw [hitem] at hempty
                cases hempty

/-- In details that open with a list both ways drop its first item, and they differ in the later lists
only. -/
theorem dropsAlike_of_opening (hd : head.isNamed .descriptionDetails = true) {first : Node}
    (hl : first.isList = true) (more : List Node) : DropsAlike (.branch head (first :: more)) ↔
      DropsAlike (dropSeed first) ∧ ∀ node ∈ more,
        (node.isList = true → ∀ item ∈ node.children.head?, item.isHollow = true) ∧
          DropsAlike node := by
  have hhollow (node : Node) :
      ((dropSeed node).dropSeeds true).isHollow = (node.dropSeeds false).isHollow := by
    rw [Node.isHollow_dropSeeds, Node.isHollow_dropSeeds, isHollow_dropSeed]
  -- which siblings are hollow is the same in both ways, so that they are compared one by one
  have hfirst : ((dropSeed first).dropSeeds true).isHollow =
      ((dropSeed first).dropSeeds false).isHollow := by
    rw [Node.isHollow_dropSeeds, Node.isHollow_dropSeeds]
  rw [DropsAlike, dropSeeds_of_opening hd hl, dropSeeds_of_opening hd hl, Node.without, Node.without,
    Node.branch.injEq, and_iff_right rfl, Node.withoutAmong_cons_inj hfirst]
  simp only [if_true, Bool.false_eq_true, if_false]
  rw [Node.withoutAmong_map_inj fun node _ => hhollow node]
  refine and_congr ⟨fun h => ?_, fun h _ => h⟩ (forall₂_congr fun node _ => ?_)
  · cases hnode : (dropSeed first).isHollow with
    | true => exact dropsAlike_of_isHollow hnode
    | false => exact h ((Node.isHollow_dropSeeds true _).trans hnode)
  · -- a hollow sibling is gone in both ways, and it is no list
    refine ⟨fun h => ?_, fun h _ => without_dropSeed_iff.2 h⟩
    cases hnode : node.isHollow with
    | true =>
        refine ⟨fun hlist => ?_, dropsAlike_of_isHollow hnode⟩
        rw [Node.isHollow_of_isList hlist] at hnode
        cases hnode
    | false =>
        refine without_dropSeed_iff.1 (h ?_)
        rw [hhollow, Node.isHollow_dropSeeds, hnode]

/-! ### Single seeds in what is left -/

theorem hasSingleSeeds_of_not_opening {children : List Node}
    (h : head.isNamed .descriptionDetails = true → opensWithList children = false) :
    ((Node.branch head children).dropSeeds false).HasSingleSeeds ↔
      ∀ child ∈ children, (child.dropSeeds false).HasSingleSeeds := by
  rw [dropSeeds_of_not_opening h, hasSingleSeeds_branch, List.forall_mem_map]
  refine and_iff_right fun hd hopens => ?_
  have hlists : opensWithList (children.map (Node.dropSeeds false)) = opensWithList children :=
    opensWithList_map (Node.isList_mapBottomUp (changesDetails_dropSeedsHere false)) children
  rw [Node.children, hlists, h hd] at hopens
  cases hopens

/-- The condition on details that open with a list, read off their children. -/
theorem hasSingleSeeds_of_opening (hd : head.isNamed .descriptionDetails = true) {first : Node}
    (hl : first.isList = true) (more : List Node) :
    ((Node.branch head (first :: more)).dropSeeds false).HasSingleSeeds ↔
      ((dropSeed first).dropSeeds false).HasSingleSeeds ∧ ∀ node ∈ more,
        (node.isList = true → ∀ item ∈ node.children.head?, item.isHollow = true) ∧
          (node.dropSeeds false).HasSingleSeeds := by
  have hchanges := changesDetails_dropSeedsHere false
  -- the opening list stays a list without its first item, so that the details still open with one
  have hopens : ((dropSeed first).dropSeeds false).isList = true := by
    rw [← dropSeed_dropSeeds, isList_dropSeed]
    exact (Node.isList_mapBottomUp hchanges first).trans hl
  have hown : HasSingleSeed (.branch head ((dropSeed first).dropSeeds false ::
        more.map (Node.dropSeeds false))) ↔
      ∀ node ∈ more, node.isList = true → ∀ item ∈ node.children.head?, item.isHollow = true := by
    have hdetails : (Node.branch head ((dropSeed first).dropSeeds false ::
        more.map (Node.dropSeeds false))).isNamed .descriptionDetails = true := hd
    have hopening : opensWithList (Node.branch head ((dropSeed first).dropSeeds false ::
        more.map (Node.dropSeeds false))).children = true := hopens
    rw [HasSingleSeed, forall_prop_of_true hdetails, forall_prop_of_true hopening, Node.children,
      List.tail_cons, List.forall_mem_map]
    refine forall₂_congr fun node _ => ?_
    have hlist : (node.dropSeeds false).isList = node.isList := Node.isList_mapBottomUp hchanges node
    rw [hlist]
    refine forall_congr' fun hn => ?_
    -- rewriting below does not touch which items a list has
    have hitems : (node.dropSeeds false).children = node.children.map (Node.dropSeeds false) :=
      Node.children_mapBottomUp hchanges (Node.not_isDetails_of_isList hn)
    rw [hitems]
    cases node.children with
    | nil => rfl
    | cons item rest => simp [Node.isHollow_dropSeeds]
  rw [dropSeeds_of_opening hd hl, hasSingleSeeds_branch]
  simp only [Bool.false_eq_true, if_false]
  rw [hown, List.forall_mem_cons, List.forall_mem_map]
  simp only [forall_and]
  tauto

end Trees

/-! ### All trees -/

theorem size_dropSeed_le (node : Node) : (dropSeed node).size ≤ node.size := by
  unfold dropSeed
  split
  · next items =>
      simp only [Node.size]
      exact Nat.add_le_add_left (Node.sizeList_drop_le items 1) 1
  · exact Nat.le_refl _

/-- If no later list has an item with content to lose, and only then, it makes no difference whether
later lists lose their first items. -/
theorem dropsAlike_iff (tree : Node) : DropsAlike tree ↔ (tree.dropSeeds false).HasSingleSeeds := by
  cases tree with
  | leaf content => exact iff_of_true rfl (hasSingleSeeds_leaf content)
  | branch head children =>
      by_cases hopening : head.isNamed .descriptionDetails = true ∧ opensWithList children = true
      · obtain ⟨hd, hopens⟩ := hopening
        cases children with
        | nil => cases hopens
        | cons first more =>
            have hfirst : first.isList = true := hopens
            -- the opening list is compared without its first item, which makes the node no larger
            have hsize : (dropSeed first).size < (Node.branch head (first :: more)).size :=
              (size_dropSeed_le first).trans_lt (Node.size_lt_of_mem head List.mem_cons_self)
            rw [dropsAlike_of_opening hd hfirst, hasSingleSeeds_of_opening hd hfirst,
              dropsAlike_iff (dropSeed first)]
            refine and_congr_right fun _ => forall₂_congr fun node hnode => ?_
            have hsize := Node.size_lt_of_mem head (List.mem_cons_of_mem first hnode)
            rw [dropsAlike_iff node]
      · have hnot : head.isNamed .descriptionDetails = true → opensWithList children = false := by
          simpa using hopening
        rw [dropsAlike_of_not_opening hnot, hasSingleSeeds_of_not_opening hnot]
        refine forall₂_congr fun child hchild => ?_
        have hsize := Node.size_lt_of_mem head hchild
        rw [dropsAlike_iff child]
termination_by tree.size

/-- Where lines were repeated, every list in details that open with a list loses its first item to
cleaning. That this is the list which opens them alone, and that all other items with content stay, holds
exactly where there is nothing else to lose: where no later list in such details begins with an item
that holds anything. -/
theorem cleanUp_drops_opening_items_iff (tree : Node) :
    tree.cleanUp true = ((tree.sweep false).dropSeeds true).without isHollow ∧
      (tree.cleanUp true = ((tree.sweep false).dropSeeds false).without isHollow ↔
        ((tree.sweep false).dropSeeds false).HasSingleSeeds) := by
  have hclean : tree.cleanUp true = ((tree.sweep false).dropSeeds true).without isHollow := by
    rw [Node.cleanUp_eq_sweep, Node.sweep_true]
  refine ⟨hclean, ?_⟩
  rw [hclean]
  exact dropsAlike_iff (tree.sweep false)

/-- The only item of a second list goes. -/
theorem not_forall_cleanUp_drops_opening_items : ¬ ∀ tree : Node,
    tree.cleanUp true = ((tree.sweep false).dropSeeds false).without isHollow := by
  intro hall
  have hsame := hall (.descriptionDetails
    [.bulletList [.itemOfText "a", .itemOfText "a"], .bulletList [.itemOfText "b"]])
  revert hsame
  decide +kernel

end DefinitionLists
