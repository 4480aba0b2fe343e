/-
Module: DefinitionLists.Proofs.Details.Gathering
Purpose: What gathering makes of a tree: in all details, at any depth, each run of items and marked
  texts becomes one list, and nothing else changes. It does not matter whether the details around other
  details are gathered before or after these.
Main exports: Node.isLoose, Gathered, Gathered.eq, gathered_gatherItems, Node.gatherDetails_details,
  Node.Gathers, Node.gathers_iff, gatherDetails_gathers
-/
import DefinitionLists.Proofs.Details.Changes

namespace DefinitionLists

open Node (mem_preorder_branch)

/-- Whether a child of details stands for items: it is an item, or a text with a bullet. -/
def Node.isLoose : Node → Bool
  | .branch (.listItem _ _ _) _ => true
  | .text value => startsWithMarker .bullets value.toList
  | _ => false

theorem isSome_looseItems (node : Node) : (looseItems? node).isSome = node.isLoose := by
  fun_cases looseItems? node with
  | case1 => rfl
  | case2 value h => simp [Node.isLoose, h]
  | case3 value h => simpa [Node.isLoose] using h
  | case4 node hitem htext =>
      unfold Node.isLoose
      split
      · exact absurd rfl (hitem _ _ _ _)
      · exact absurd rfl (htext _)
      · rfl

/-- Children that stand for no items stay as they are. -/
theorem looseItems_eq_none_iff {node : Node} : looseItems? node = none ↔ node.isLoose = false := by
  rw [← isSome_looseItems, Option.isSome_eq_false_iff, Option.isNone_iff_eq_none]

/-- The items that children of details stand for. -/
def itemsOf (nodes : List Node) : List Node := nodes.flatMap fun node => (looseItems? node).getD []

/-! ### Runs -/

/-- The children of details with one list in place of each run of those that stand for items. A run goes
as far as it can: none of these comes right before it or after it. -/
inductive Gathered : List Node → List Node → Prop where
  | done : Gathered [] []
  | kept {child : Node} {more lists : List Node} (other : child.isLoose = false)
      (rest : Gathered more lists) : Gathered (child :: more) (child :: lists)
  | run {run more lists : List Node} (some : run ≠ [])
      (loose : ∀ child ∈ run, child.isLoose = true)
      (whole : ∀ next ∈ more.head?, next.isLoose = false) (rest : Gathered more lists) :
      Gathered (run ++ more) (.bulletList (itemsOf run) :: lists)

/-- A run gives at least one item, so that its list is never left out. -/
theorem itemsOf_ne_nil {run : List Node} (h : run ≠ []) (hl : ∀ child ∈ run, child.isLoose = true) :
    itemsOf run ≠ [] := by
  obtain ⟨child, more, rfl⟩ := List.exists_cons_of_ne_nil h
  have hsome : (looseItems? child).isSome = true := by
    rw [isSome_looseItems, hl child (by simp)]
  have hchild : (looseItems? child).getD [] ≠ [] := by
    -- an item splits into at least one item, and a text is one
    fun_cases looseItems? child with
    | case1 spread checked hint children =>
        obtain ⟨f, others, hsplit⟩ :=
          exists_splitItem (.branch (.listItem spread checked hint) children)
        simp [hsplit]
    | case2 => simp
    | case3 value hmark => simp [looseItems?, hmark] at hsome
    | case4 node hitem htext =>
        rw [looseItems?] at hsome
        · cases hsome
        · exact hitem
        · exact htext
  intro hnil
  rw [itemsOf, List.flatMap_cons] at hnil
  exact hchild (List.append_eq_nil_iff.1 hnil).1

theorem listOf_of_ne_nil {items : List Node} (h : items ≠ []) : listOf items = [.bulletList items] := by
  simp [listOf, h]

/-- A child that stands for no items ends the list before it. -/
theorem gatherItems_cons_of_not_isLoose {child : Node} (h : child.isLoose = false)
    (items more : List Node) :
    gatherItems items (child :: more) = listOf items ++ child :: gatherItems [] more := by
  simp [gatherItems, looseItems_eq_none_iff.2 h]

/-- A run waits to be gathered until it ends. -/
theorem gatherItems_run {run : List Node} (h : ∀ child ∈ run, child.isLoose = true)
    (items more : List Node) :
    gatherItems items (run ++ more) = gatherItems (items ++ itemsOf run) more := by
  induction run generalizing items with
  | nil => simp [itemsOf]
  | cons child run ih =>
      obtain ⟨hchild, hrun⟩ := List.forall_mem_cons.1 h
      rw [← isSome_looseItems] at hchild
      obtain ⟨new, hnew⟩ := Option.isSome_iff_exists.1 hchild
      simp only [List.cons_append, gatherItems, hnew]
      rw [ih hrun]
      simp [itemsOf, hnew]

/-- At its end it becomes a list. -/
theorem gatherItems_of_whole {more : List Node} (h : ∀ next ∈ more.head?, next.isLoose = false)
    (items : List Node) : gatherItems items more = listOf items ++ gatherItems [] more := by
  cases more with
  | nil => simp [gatherItems, listOf]
  | cons next more =>
      rw [gatherItems_cons_of_not_isLoose (h next rfl), gatherItems_cons_of_not_isLoose (h next rfl)]
      rfl

/-- The relation leaves no choice: a run that goes as far as it can is the one that is gathered. -/
theorem Gathered.eq {children lists : List Node} (h : Gathered children lists) :
    lists = gatherItems [] children := by
  induction h with
  | done => rfl
  | kept other _ ih =>
      rw [gatherItems_cons_of_not_isLoose other, ih]
      rfl
  | run some loose whole _ ih =>
      rw [gatherItems_run loose, gatherItems_of_whole whole, List.nil_append,
        listOf_of_ne_nil (itemsOf_ne_nil some loose), ih]
      rfl

/-- What the gathering makes of children is as the relation says. -/
theorem gathered_gatherItems (children : List Node) :
    Gathered children (gatherItems [] children) := by
  -- cut after the run in front, or after the child in front that belongs to none
  cases children with
  | nil => exact .done
  | cons child more =>
      cases hchild : child.isLoose with
      | false =>
          rw [gatherItems_cons_of_not_isLoose hchild]
          exact .kept hchild (gathered_gatherItems more)
      | true =>
          have hcut : child :: more = (child :: more.takeWhile Node.isLoose) ++
              more.dropWhile Node.isLoose := by
            rw [List.cons_append, List.takeWhile_append_dropWhile]
          have hloose : ∀ node ∈ child :: more.takeWhile Node.isLoose, node.isLoose = true :=
            List.forall_mem_cons.2 ⟨hchild, List.all_eq_true.1 List.all_takeWhile⟩
          -- what is dropped begins with the first child that stands for no items
          have hwhole : ∀ next ∈ (more.dropWhile Node.isLoose).head?, next.isLoose = false := by
            intro next hnext
            have hhead := List.head?_dropWhile_not Node.isLoose more
            rw [Option.mem_def.1 hnext] at hhead
            simpa using hhead
          have hlist := listOf_of_ne_nil (itemsOf_ne_nil (List.cons_ne_nil _ _) hloose)
          have hshorter : (more.dropWhile Node.isLoose).length ≤ more.length :=
            (List.dropWhile_sublist _).length_le
          rw [hcut, gatherItems_run hloose, gatherItems_of_whole hwhole, List.nil_append, hlist]
          exact .run (List.cons_ne_nil _ _) hloose hwhole (gathered_gatherItems _)
termination_by children.length

/-- Nothing that stands for items is left over. -/
theorem Gathered.not_isLoose {children lists : List Node} (h : Gathered children lists) :
    ∀ node ∈ lists, node.isLoose = false := by
  induction h with
  | done => simp
  | kept other _ ih => exact List.forall_mem_cons.2 ⟨other, ih⟩
  | run _ _ _ _ ih => exact List.forall_mem_cons.2 ⟨rfl, ih⟩

theorem gatherItems_of_not_isLoose {children : List Node}
    (h : ∀ child ∈ children, child.isLoose = false) : gatherItems [] children = children := by
  induction children with
  | nil => rfl
  | cons child more ih =>
      obtain ⟨hchild, hmore⟩ := List.forall_mem_cons.1 h
      rw [gatherItems_cons_of_not_isLoose hchild, ih hmore]
      rfl

/-- An item that a child of details stands for is the child itself with some text at its front, or made
of nothing but a text. -/
theorem of_mem_looseItems {child item : Node} (h : item ∈ (looseItems? child).getD []) :
    (∃ f, item = child.mapFirstText f) ∨ ∃ value, item = .itemOfText value := by
  fun_cases looseItems? child with
  | case1 spread checked hint children =>
      obtain ⟨f, others, hsplit⟩ := exists_splitItem (.branch (.listItem spread checked hint) children)
      rw [looseItems?, hsplit, Option.getD_some, List.mem_cons, List.mem_map] at h
      rcases h with rfl | ⟨text, -, rfl⟩
      · exact .inl ⟨f, rfl⟩
      · exact .inr ⟨_, rfl⟩
  | case2 value hmark =>
      simp only [looseItems?, hmark, if_true, Option.getD_some, List.mem_singleton] at h
      exact .inr ⟨_, h⟩
  | case3 value hmark => simp [looseItems?, hmark] at h
  | case4 node hitem htext =>
      rw [looseItems?] at h
      · cases h
      · exact hitem
      · exact htext

/-! ### Trees -/

/-- An unknown node with the name of details has nothing gathered in it either. -/
theorem changesDetails_gatherHere : ChangesDetails gatherHere where
  leaf _ := rfl
  branch head children := by
    rw [gatherHere]
    split
    · exact ⟨_, rfl⟩
    · exact ⟨children, rfl⟩
  other hd children := by
    rw [gatherHere, Branch.isContainer_of_not_isNamed hd]
    rfl

namespace Node

@[simp] theorem gatherDetails_leaf (content : Leaf) :
    (Node.leaf content).gatherDetails = .leaf content :=
  rfl

theorem gatherDetails_branch (head : Branch) (children : List Node) :
    (Node.branch head children).gatherDetails = .branch head
      (if head.isContainer .descriptionDetails then gatherItems [] (children.map gatherDetails)
      else children.map gatherDetails) := by
  have hchildren : mapBottomUpList gatherHere children = children.map gatherDetails :=
    mapBottomUpList_eq_map gatherHere children
  rw [gatherDetails, mapBottomUp, hchildren, gatherHere]
  split <;> rfl

theorem gatherDetails_of_not_details {head : Branch}
    (h : head.isContainer .descriptionDetails = false) (children : List Node) :
    (Node.branch head children).gatherDetails = .branch head (children.map gatherDetails) := by
  rw [gatherDetails_branch, h]
  rfl

@[simp] theorem gatherDetails_listItem (spread : Bool) (checked : Option Bool)
    (hint : Option String) (children : List Node) :
    (Node.branch (.listItem spread checked hint) children).gatherDetails =
      .branch (.listItem spread checked hint) (children.map gatherDetails) :=
  gatherDetails_of_not_details rfl children

@[simp] theorem gatherDetails_paragraph (hint : Option String) (span : Option Span)
    (children : List Node) :
    (Node.branch (.container .paragraph hint span) children).gatherDetails =
      .branch (.container .paragraph hint span) (children.map gatherDetails) :=
  gatherDetails_of_not_details rfl children

@[simp] theorem gatherDetails_bulletList (items : List Node) :
    (bulletList items).gatherDetails = bulletList (items.map gatherDetails) :=
  gatherDetails_of_not_details rfl items

@[simp] theorem gatherDetails_itemOfText (value : String) :
    (itemOfText value).gatherDetails = itemOfText value := by
  simp [itemOfText, paragraph, plain]

/-- Gathering below an item changes nothing about the text that it opens with. -/
theorem firstText_gatherDetails (node : Node) : node.gatherDetails.firstText? = node.firstText? :=
  firstText_mapBottomUp changesDetails_gatherHere node

theorem mapFirstText_gatherDetails (f : String → String) (node : Node) :
    node.gatherDetails.mapFirstText f = (node.mapFirstText f).gatherDetails :=
  mapFirstText_mapBottomUp changesDetails_gatherHere f node

/-- An item is split at its first text, which is not in details. -/
theorem splitItem_gatherDetails (item : Node) :
    splitItem item.gatherDetails = (splitItem item).map gatherDetails := by
  unfold splitItem
  rw [firstText_gatherDetails]
  split
  · rfl
  · split
    · rfl
    · split
      · rfl
      · simp [mapFirstText_gatherDetails]

/-- Gathering inside of a child first gives the same items, each gathered inside. -/
theorem looseItems_gatherDetails (node : Node) :
    looseItems? node.gatherDetails = (looseItems? node).map (List.map gatherDetails) := by
  cases node with
  | leaf content =>
      rw [gatherDetails_leaf]
      -- a text is the only leaf that may stand for an item
      cases content with
      | text value =>
          simp only [looseItems?]
          split
          · simp
          · rfl
      | _ => rfl
  | branch head children =>
      cases head with
      | listItem spread checked hint =>
          have hsplit := splitItem_gatherDetails (.branch (.listItem spread checked hint) children)
          rw [gatherDetails_listItem] at hsplit ⊢
          simp only [looseItems?, hsplit, Option.map_some]
      | _ =>
          rw [gatherDetails_branch]
          rfl

theorem map_gatherDetails_listOf (items : List Node) :
    (listOf items).map gatherDetails = listOf (items.map gatherDetails) := by
  cases items with
  | nil => rfl
  | cons item more => simp [listOf]

/-- The children of details may be gathered into lists before or after what is inside of them. -/
theorem gatherItems_map_gatherDetails (items children : List Node) :
    gatherItems (items.map gatherDetails) (children.map gatherDetails) =
      (gatherItems items children).map gatherDetails := by
  fun_induction gatherItems items children with
  | case1 items => exact (map_gatherDetails_listOf items).symm
  | case2 items child more new h ih =>
      rw [List.map_cons, gatherItems, looseItems_gatherDetails, h, Option.map_some]
      simp only
      rw [← List.map_append, ih]
  | case3 items child more h ih =>
      rw [List.map_cons, gatherItems, looseItems_gatherDetails, h, Option.map_none]
      simp only
      rw [List.map_append, List.map_cons, map_gatherDetails_listOf, ← ih, List.map_nil]

/-- Details are gathered from the outside in: their children first, and then what these hold. -/
theorem gatherDetails_details {head : Branch} (h : head.isContainer .descriptionDetails = true)
    (children : List Node) : (Node.branch head children).gatherDetails =
      .branch head ((gatherItems [] children).map gatherDetails) := by
  have hchildren := gatherItems_map_gatherDetails [] children
  rw [List.map_nil] at hchildren
  rw [gatherDetails_branch, if_pos h, hchildren]

mutual

/-- The second tree is the first one with the children of all details gathered, inside of gathered items
too. -/
inductive Gathers : Node → Node → Prop where
  | leaf (content : Leaf) : Gathers (.leaf content) (.leaf content)
  | branch {head : Branch} {children inside : List Node}
      (other : head.isContainer .descriptionDetails = false) (inner : AllGather children inside) :
      Gathers (.branch head children) (.branch head inside)
  | details {head : Branch} {children lists inside : List Node}
      (details : head.isContainer .descriptionDetails = true) (gathered : Gathered children lists)
      (inner : AllGather lists inside) : Gathers (.branch head children) (.branch head inside)

/-- The same for trees side by side. -/
inductive AllGather : List Node → List Node → Prop where
  | nil : AllGather [] []
  | cons {node result : Node} {more results : List Node} (first : Gathers node result)
      (rest : AllGather more results) : AllGather (node :: more) (result :: results)

end

theorem allGather_map_iff {nodes : List Node} : AllGather nodes (nodes.map gatherDetails) ↔
    ∀ node ∈ nodes, Gathers node node.gatherDetails := by
  induction nodes with
  | nil => simp [AllGather.nil]
  | cons node more ih =>
      rw [List.forall_mem_cons, ← ih, List.map_cons]
      constructor
      · intro h
        cases h with
        | cons first rest => exact ⟨first, rest⟩
      · rintro ⟨first, rest⟩
        exact .cons first rest

theorem Gathers.of_children {head : Branch} (h : head.isContainer .descriptionDetails = false)
    {children : List Node} (hc : ∀ child ∈ children, Gathers child child.gatherDetails) :
    Gathers (.branch head children) (Node.branch head children).gatherDetails := by
  rw [gatherDetails_of_not_details h]
  exact .branch h (allGather_map_iff.2 hc)

theorem Gathers.inner {head : Branch} (h : head.isContainer .descriptionDetails = false)
    {children : List Node}
    (hg : Gathers (.branch head children) (Node.branch head children).gatherDetails) :
    ∀ child ∈ children, Gathers child child.gatherDetails := by
  rw [gatherDetails_of_not_details h] at hg
  cases hg with
  | branch other inner => exact allGather_map_iff.1 inner
  | details details _ _ =>
      rw [h] at details
      cases details

mutual

/-- Only one tree is gathered from another. -/
theorem Gathers.eq : ∀ {tree result : Node}, Gathers tree result → result = tree.gatherDetails
  | _, _, .leaf content => rfl
  | _, _, .branch other inner => by rw [gatherDetails_of_not_details other, inner.eq]
  | _, _, .details details gathered inner => by
      rw [gatherDetails_details details, ← gathered.eq, inner.eq]

theorem AllGather.eq : ∀ {nodes results : List Node}, AllGather nodes results →
    results = nodes.map gatherDetails
  | _, _, .nil => rfl
  | _, _, .cons first rest => by rw [List.map_cons, first.eq, rest.eq]

end

/-- Another text at the front of an item changes nothing about what is gathered in it. -/
theorem Gathers.mapFirstText {node : Node} (h : Gathers node node.gatherDetails)
    (f : String → String) : Gathers (node.mapFirstText f) (node.mapFirstText f).gatherDetails := by
  cases htext : node.firstText? with
  | none => rwa [mapFirstText_of_none htext]
  | some text =>
      obtain ⟨spread, checked, hint, inner, span, inlines, blocks, rfl⟩ := exists_of_firstText htext
      have hblocks := h.inner rfl
      obtain ⟨hparagraph, hblocks⟩ := List.forall_mem_cons.1 hblocks
      obtain ⟨-, hinlines⟩ := List.forall_mem_cons.1 (hparagraph.inner rfl)
      refine .of_children rfl (List.forall_mem_cons.2 ⟨.of_children rfl ?_, hblocks⟩)
      exact List.forall_mem_cons.2 ⟨.leaf _, hinlines⟩

theorem gathers_itemOfText (value : String) :
    Gathers (itemOfText value) (itemOfText value).gatherDetails := by
  refine .of_children rfl (List.forall_mem_singleton.2 (.of_children rfl ?_))
  exact List.forall_mem_singleton.2 (.leaf _)

/-- What is gathered into lists needs no more than what is in it. -/
theorem gathers_of_gathered {children lists : List Node} (hg : Gathered children lists)
    (h : ∀ child ∈ children, Gathers child child.gatherDetails) :
    ∀ node ∈ lists, Gathers node node.gatherDetails := by
  induction hg with
  | done => simp
  | kept _ _ ih =>
      obtain ⟨hchild, hmore⟩ := List.forall_mem_cons.1 h
      exact List.forall_mem_cons.2 ⟨hchild, ih hmore⟩
  | run _ _ _ _ ih =>
      obtain ⟨hrun, hmore⟩ := List.forall_mem_append.1 h
      refine List.forall_mem_cons.2 ⟨.of_children rfl fun item hitem => ?_, ih hmore⟩
      obtain ⟨child, hchild, hitem⟩ := List.mem_flatMap.1 hitem
      rcases of_mem_looseItems hitem with ⟨f, rfl⟩ | ⟨value, rfl⟩
      · exact (hrun child hchild).mapFirstText f
      · exact gathers_itemOfText value

mutual

/-- What is gathered from a tree is as the relation says, at all depths. -/
theorem gathers_gatherDetails : ∀ tree : Node, Gathers tree tree.gatherDetails
  | .leaf content => .leaf content
  | .branch head children => by
      have hchildren := allGather_gatherDetails children
      cases h : head.isContainer .descriptionDetails with
      | false =>
          rw [gatherDetails_of_not_details h]
          exact .branch h hchildren
      | true =>
          have hgathered := gathered_gatherItems children
          rw [gatherDetails_details h]
          exact .details h hgathered
            (allGather_map_iff.2 (gathers_of_gathered hgathered (allGather_map_iff.1 hchildren)))

theorem allGather_gatherDetails : ∀ nodes : List Node, AllGather nodes (nodes.map gatherDetails)
  | [] => .nil
  | node :: more => .cons (gathers_gatherDetails node) (allGather_gatherDetails more)

end

/-- The tree with its details gathered is the one that the runs in its details tell. -/
theorem gathers_iff {tree result : Node} : Gathers tree result ↔ result = tree.gatherDetails :=
  ⟨Gathers.eq, fun h => h ▸ gathers_gatherDetails tree⟩

/-! ### Once gathered -/

/-- Whether no child of details, at any depth, stands for items. -/
def IsGathered (tree : Node) : Prop :=
  ∀ details ∈ tree.preorder, details.isContainer .descriptionDetails = true →
    ∀ child ∈ details.children, child.isLoose = false

theorem isGathered_branch {head : Branch} {children : List Node} :
    (Node.branch head children).IsGathered ↔
      (head.isContainer .descriptionDetails = true → ∀ child ∈ children, child.isLoose = false) ∧
        ∀ child ∈ children, child.IsGathered := by
  simp only [IsGathered, mem_preorder_branch]
  constructor
  · intro h
    refine ⟨fun hdetails => h _ (.inl rfl) hdetails, fun child hchild details hin => ?_⟩
    exact h details (.inr ⟨child, hchild, hin⟩)
  · rintro ⟨hown, hinner⟩ details (rfl | ⟨child, hchild, hin⟩) hdetails
    · exact hown hdetails
    · exact hinner child hchild details hin hdetails

/-- What a node is decides whether it stands for items, not what is in it. -/
theorem isLoose_branch (head : Branch) (children others : List Node) :
    (Node.branch head children).isLoose = (Node.branch head others).isLoose := by
  cases head <;> rfl

theorem Gathers.isLoose {node result : Node} (h : Gathers node result) :
    result.isLoose = node.isLoose := by
  cases h with
  | leaf content => rfl
  | branch _ _ => exact isLoose_branch _ _ _
  | details _ _ _ => exact isLoose_branch _ _ _

theorem AllGather.not_isLoose {nodes results : List Node} (h : AllGather nodes results)
    (hn : ∀ node ∈ nodes, node.isLoose = false) : ∀ result ∈ results, result.isLoose = false := by
  induction nodes generalizing results with
  | nil =>
      cases h
      simp
  | cons node more ih =>
      obtain ⟨hnode, hmore⟩ := List.forall_mem_cons.1 hn
      cases h with
      | cons first rest => exact List.forall_mem_cons.2 ⟨first.isLoose.trans hnode, ih rest hmore⟩

mutual

/-- After gathering nothing is left to gather. -/
theorem Gathers.isGathered : ∀ {tree result : Node}, Gathers tree result → result.IsGathered
  | _, _, .leaf content => by
      intro details hin hdetails
      rw [List.mem_singleton.1 hin] at hdetails
      cases hdetails
  | _, _, .branch other inner => by
      refine isGathered_branch.2 ⟨fun hdetails => ?_, inner.isGathered⟩
      rw [hdetails] at other
      cases other
  | _, _, .details details gathered inner =>
      isGathered_branch.2 ⟨fun _ => inner.not_isLoose gathered.not_isLoose, inner.isGathered⟩

theorem AllGather.isGathered : ∀ {nodes results : List Node}, AllGather nodes results →
    ∀ result ∈ results, result.IsGathered
  | _, _, .nil => by simp
  | _, _, .cons first rest => List.forall_mem_cons.2 ⟨first.isGathered, rest.isGathered⟩

end

mutual

theorem gatherDetails_of_isGathered : ∀ {tree : Node}, tree.IsGathered → tree.gatherDetails = tree
  | .leaf _, _ => rfl
  | .branch head children, h => by
      obtain ⟨hown, hinner⟩ := isGathered_branch.1 h
      have hchildren := map_gatherDetails_of_isGathered hinner
      rw [gatherDetails_branch, hchildren]
      split
      · next hdetails => rw [gatherItems_of_not_isLoose (hown hdetails)]
      · rfl

theorem map_gatherDetails_of_isGathered : ∀ {nodes : List Node},
    (∀ node ∈ nodes, node.IsGathered) → nodes.map gatherDetails = nodes
  | [], _ => rfl
  | node :: more, h => by
      obtain ⟨hnode, hmore⟩ := List.forall_mem_cons.1 h
      rw [List.map_cons, gatherDetails_of_isGathered hnode, map_gatherDetails_of_isGathered hmore]

end

end Node

/-- Gathering puts one tight list of bullets in the place of each run of items and marked texts, in all
details of the tree, and keeps all else: no other tree is related to it so. No details are left with
children that stand for items, and gathering again changes nothing. -/
theorem gatherDetails_gathers (tree : Node) :
    (∀ result, tree.Gathers result ↔ result = tree.gatherDetails) ∧
      tree.gatherDetails.IsGathered ∧
      tree.gatherDetails.gatherDetails = tree.gatherDetails := by
  have hgathered := (Node.gathers_gatherDetails tree).isGathered
  exact ⟨fun result => Node.gathers_iff, hgathered, Node.gatherDetails_of_isGathered hgathered⟩

end DefinitionLists
