/-
Module: DefinitionLists.Proofs.Cleaning.Sweep
Purpose: What a visit makes of any tree that rewrites what stands directly in details: the same as
  rewriting the children of all details from the inside out. With it, cleaning in three steps that do
  not depend on the order of visits: fragments are cut off, first items dropped, hollow items removed.
Main exports: RewritesLists, edit_inDetails, Node.sweep, Node.cleanUp_eq_sweep, Node.dropSeeds,
  Node.sweep_true, Node.sweep_dropSeeds
-/
import DefinitionLists.Proofs.Details.Changes
import DefinitionLists.Proofs.Seeds
import DefinitionLists.Proofs.Unchanged

namespace DefinitionLists

open Node (editFrom editFrom_cons editWithin mapBottomUp sizeList)

/-! ### Visits -/

/-- Whether a rewriting of what stands in details may as well come after one of all that is inside of
it: it makes nothing larger, and leaves lists lists. -/
structure RewritesLists (rewrite : Bool → Node → Node) : Prop where
  isList : ∀ opens node, (rewrite opens node).isList = node.isList
  size_le : ∀ opens node, (rewrite opens node).size ≤ node.size
  comm : ∀ opens node, (rewrite opens node).mapBottomUp (rewritePart rewrite) =
    rewrite opens (node.mapBottomUp (rewritePart rewrite))

/-- Only children of details are replaced. -/
theorem changesDetails_rewritePart (rewrite : Bool → Node → Node) :
    ChangesDetails (rewritePart rewrite) :=
  .of_children (fun children => children.map (rewrite (opensWithList children))) (fun _ => rfl)
    fun _ _ => rfl

theorem opensWithList_map {f : Node → Node} (h : ∀ node, (f node).isList = node.isList)
    (nodes : List Node) : opensWithList (nodes.map f) = opensWithList nodes := by
  cases nodes with
  | nil => rfl
  | cons first more => exact h first

section Rewriting

variable {rewrite : Bool → Node → Node}

/-- The children of details are rewritten after what is inside of them. -/
theorem mapBottomUp_rewritePart (head : Branch) (children : List Node) :
    (Node.branch head children).mapBottomUp (rewritePart rewrite) =
      .branch head (children.map fun child =>
        if head.isNamed .descriptionDetails then
          rewrite (opensWithList children) (child.mapBottomUp (rewritePart rewrite))
        else child.mapBottomUp (rewritePart rewrite)) := by
  have hlists := opensWithList_map (Node.isList_mapBottomUp (changesDetails_rewritePart rewrite))
    children
  rw [mapBottomUp, Node.mapBottomUpList_eq_map, rewritePart, hlists, List.map_map]
  split <;> rfl

variable (h : RewritesLists rewrite)

include h

/-- A visit rewrites the siblings in details one by one, and goes on into what each of them was made
into. With fuel for all nodes none is left out. -/
theorem editFrom_inDetails {fuel : Nat} {parent : Branch} {opens : Bool} (before : List Node)
    {here : List Node} (hf : sizeList here ≤ fuel)
    (ho : opensWithList (before.reverse ++ here) = opens) :
    editFrom (inDetails rewrite) fuel ⟨parent, before, here⟩ =
      before.reverse ++ here.map fun node =>
        if parent.isNamed .descriptionDetails then
          rewrite opens (node.mapBottomUp (rewritePart rewrite))
        else node.mapBottomUp (rewritePart rewrite) := by
  induction fuel generalizing parent opens before here with
  | zero =>
      have hlength := Node.length_le_sizeList here
      obtain rfl := List.length_eq_zero_iff.1 (Nat.le_zero.1 (hlength.trans hf))
      rfl
  | succ fuel ih =>
      cases here with
      | nil => simp [editFrom]
      | cons node rest =>
          have hpositive := node.size_pos
          rw [sizeList] at hf
          -- the visit replaces the node first and goes into what it became; the recursion goes the
          -- other way
          obtain ⟨first, hfirst⟩ : ∃ first, first =
              if parent.isNamed .descriptionDetails then rewrite opens node else node := ⟨_, rfl⟩
          have hchange : inDetails rewrite ⟨parent, before, node :: rest⟩ = first :: rest := by
            simp only [inDetails, Place.siblings, ho, hfirst]
            split <;> rfl
          have hsize : first.size ≤ node.size := by
            rw [hfirst]
            split
            · exact h.size_le opens node
            · exact Nat.le_refl _
          have hwithin : editWithin (inDetails rewrite) fuel first =
              first.mapBottomUp (rewritePart rewrite) := by
            cases first with
            | leaf content => rfl
            | branch head children =>
                rw [Node.size] at hsize
                rw [mapBottomUp_rewritePart, editWithin, ih [] (by omega) rfl]
                rfl
          have hmapped : first.mapBottomUp (rewritePart rewrite) =
              if parent.isNamed .descriptionDetails then
                rewrite opens (node.mapBottomUp (rewritePart rewrite))
              else node.mapBottomUp (rewritePart rewrite) := by
            rw [hfirst]
            split
            · exact h.comm opens node
            · rfl
          -- what the node became counts among the siblings of those after it, as a list if the node
          -- was one
          have hlist : (first.mapBottomUp (rewritePart rewrite)).isList = node.isList := by
            rw [Node.isList_mapBottomUp (changesDetails_rewritePart rewrite), hfirst]
            split
            · exact h.isList opens node
            · rfl
          have hopens : opensWithList
              ((first.mapBottomUp (rewritePart rewrite) :: before).reverse ++ rest) = opens := by
            rw [List.reverse_cons, List.append_assoc, List.singleton_append,
              opensWithList_congr hlist, ho]
          rw [editFrom_cons hchange, hwithin, ih _ (by omega) hopens, hmapped]
          simp

/-- What a visit that rewrites in details makes of a tree. -/
theorem edit_inDetails (tree : Node) :
    tree.edit (inDetails rewrite) = tree.mapBottomUp (rewritePart rewrite) := by
  cases tree with
  | leaf content => rfl
  | branch head children =>
      have hfuel : sizeList children ≤ Node.visitBudget (.branch head children) := by
        simp only [Node.visitBudget, Node.size]
        omega
      rw [Node.edit_branch, editFrom_inDetails h [] hfuel rfl, mapBottomUp_rewritePart]
      rfl

end Rewriting

/-! ### Lists -/

theorem Node.size_mapFirstText (f : String → String) (node : Node) :
    (node.mapFirstText f).size = node.size := by
  unfold mapFirstText
  split
  · simp only [size, sizeList]
  · rfl

theorem Node.sizeList_drop_le (nodes : List Node) (n : Nat) :
    sizeList (nodes.drop n) ≤ sizeList nodes := by
  induction nodes generalizing n with
  | nil => simp
  | cons node more ih =>
      cases n with
      | zero => exact Nat.le_refl _
      | succ n => exact (ih n).trans (Nat.le_add_left _ _)

theorem Node.sizeList_map_mapFirstText (f : String → String) (items : List Node) :
    sizeList (items.map (mapFirstText f)) = sizeList items := by
  induction items with
  | nil => rfl
  | cons item more ih => rw [List.map_cons, sizeList, sizeList, item.size_mapFirstText, ih]

/-- Cleaning a list adds no nodes, so that the fuel for the list is enough for what it becomes. -/
theorem size_cleanList_le (seeded : Bool) (node : Node) :
    (cleanList seeded node).size ≤ node.size := by
  unfold cleanList
  split
  · next items =>
      have hcut : sizeList (items.map cutItem) = sizeList items := Node.sizeList_map_mapFirstText _ items
      have hdrop := Node.sizeList_drop_le (items.map cutItem) 1
      simp only [Node.size]
      split
      · exact Nat.add_le_add_left (hdrop.trans hcut.le) 1
      · exact Nat.add_le_add_left hcut.le 1
  · exact Nat.le_refl _

/-- The list in which cleaning looks for fragments is the same before and after a change inside of
its items. -/
theorem cleanList_mapBottomUp {change : Node → Node} (h : ChangesDetails change) (seeded : Bool)
    (node : Node) :
    (cleanList seeded node).mapBottomUp change = cleanList seeded (node.mapBottomUp change) := by
  cases hlist : node.isList with
  | false =>
      have hmapped := (Node.isList_mapBottomUp h node).trans hlist
      rw [cleanList_of_isList seeded hlist, cleanList_of_isList seeded hmapped]
  | true =>
      obtain ⟨ordered, start, spread, hint, items, rfl⟩ := Node.eq_list_of_isList hlist
      -- an item is cut at its first text only, which the change below leaves where it is
      have hitems : (items.map cutItem).map (mapBottomUp change) =
          (items.map (mapBottomUp change)).map cutItem :=
        Node.map_mapFirstText_mapBottomUp h _ items
      rw [Node.mapBottomUp_list h, cleanList_list, cleanList_list, Node.mapBottomUp_list h, ← hitems]
      split
      · rw [List.map_drop]
      · rfl

/-- Cleaning a list is a rewrite that may be done before or after the one below it. -/
theorem rewritesLists_cleanList (seeded : Bool) :
    RewritesLists fun opens => cleanList (seeded && opens) where
  isList _ node := isList_cleanList _ node
  size_le _ node := size_cleanList_le _ node
  comm _ node := cleanList_mapBottomUp (changesDetails_rewritePart _) _ node

/-! ### Cleaning -/

namespace Node

/-- The tree with the lists in all details cleaned. Items that hold nothing stay. -/
def sweep (seeded : Bool) (tree : Node) : Node :=
  tree.mapBottomUp (rewritePart fun opens => cleanList (seeded && opens))

/-- A node is cleaned from below: its children first, then the lists among them if it is a details node.
-/
theorem sweep_branch (seeded : Bool) (head : Branch) (children : List Node) :
    (Node.branch head children).sweep seeded = .branch head (children.map fun child =>
      if head.isNamed .descriptionDetails then
        cleanList (seeded && opensWithList children) (child.sweep seeded)
      else child.sweep seeded) :=
  mapBottomUp_rewritePart head children

/-- The fuel of the visit is never used up, so that cleaning is a plain recursion. -/
theorem cleanUp_eq_sweep (seeded : Bool) (tree : Node) :
    tree.cleanUp seeded = (tree.sweep seeded).without isHollow := by
  rw [cleanUp_eq, edit_inDetails (rewritesLists_cleanList seeded), removeEmptyItems_eq_without]
  rfl

end Node

/-- A list without its first item. -/
def dropSeed : Node → Node
  | .branch (.list ordered start spread hint) items =>
    .branch (.list ordered start spread hint) (items.drop 1)
  | node => node

/-- The children of details, where a list that opens them goes without its first item, and so do all
other lists among them if `later`. -/
def dropSeedsAmong (later : Bool) : List Node → List Node
  | [] => []
  | first :: more =>
    dropSeed first :: if later && first.isList then more.map dropSeed else more

/-- The node with first items dropped from the lists right in it, if it has the name of details. -/
def dropSeedsHere (later : Bool) : Node → Node
  | .branch head children =>
    if head.isNamed .descriptionDetails then .branch head (dropSeedsAmong later children)
    else .branch head children
  | node => node

/-- The tree with first items dropped from lists in all details that open with a list: from the list
that opens them, and if `later` from the other lists in them too. -/
def Node.dropSeeds (later : Bool) (tree : Node) : Node := tree.mapBottomUp (dropSeedsHere later)

theorem changesDetails_dropSeedsHere (later : Bool) : ChangesDetails (dropSeedsHere later) :=
  .of_children (dropSeedsAmong later) (fun _ => rfl) fun _ _ => rfl

theorem dropSeed_of_not_isList {node : Node} (h : node.isList = false) : dropSeed node = node := by
  unfold dropSeed
  split
  · cases h
  · rfl

/-- A list is left without its first item before or after what is inside of its items is changed. -/
theorem dropSeed_mapBottomUp {change : Node → Node} (h : ChangesDetails change) (node : Node) :
    (dropSeed node).mapBottomUp change = dropSeed (node.mapBottomUp change) := by
  cases hlist : node.isList with
  | false =>
      have hmapped := (Node.isList_mapBottomUp h node).trans hlist
      rw [dropSeed_of_not_isList hlist, dropSeed_of_not_isList hmapped]
  | true =>
      obtain ⟨ordered, start, spread, hint, items, rfl⟩ := Node.eq_list_of_isList hlist
      rw [dropSeed, Node.mapBottomUp_list h, Node.mapBottomUp_list h, dropSeed, List.map_drop]

theorem isList_dropSeed (node : Node) : (dropSeed node).isList = node.isList := by
  unfold dropSeed
  split <;> rfl

/-- Cutting does not touch how many items there are, so that the first item may go before or after it.
-/
theorem dropSeed_cleanList (node : Node) : dropSeed (cleanList false node) = cleanList true node := by
  cases hlist : node.isList with
  | false =>
      rw [cleanList_of_isList false hlist, cleanList_of_isList true hlist,
        dropSeed_of_not_isList hlist]
  | true =>
      obtain ⟨ordered, start, spread, hint, items, rfl⟩ := Node.eq_list_of_isList hlist
      rfl

theorem cleanList_dropSeed (node : Node) : cleanList false (dropSeed node) = cleanList true node := by
  cases hlist : node.isList with
  | false =>
      rw [dropSeed_of_not_isList hlist, cleanList_of_isList false hlist, cleanList_of_isList true hlist]
  | true =>
      obtain ⟨ordered, start, spread, hint, items, rfl⟩ := Node.eq_list_of_isList hlist
      rw [dropSeed, cleanList_list, cleanList_list, List.map_drop]
      rfl

/-! ### One rewriting after another -/

section Rewritings

variable {rewrite rewrite' : Bool → Node → Node}

/-- Changes inside of what stands in details come before or after rewriting it, if they do for each
child. -/
theorem mapChildren_rewritePart {f : Node → Node} (hf : ∀ node, (f node).isList = node.isList)
    (h : ∀ opens node, f (rewrite opens node) = rewrite opens (f node)) (node : Node) :
    (rewritePart rewrite node).mapChildren f = rewritePart rewrite (node.mapChildren f) := by
  cases node with
  | leaf content => rfl
  | branch head children =>
      cases hd : head.isNamed .descriptionDetails with
      | false => simp [rewritePart, Node.mapChildren, hd]
      | true =>
          simp only [rewritePart, Node.mapChildren, hd, if_true, opensWithList_map hf, List.map_map]
          exact congrArg (Node.branch head) (List.map_congr_left fun child _ => h _ child)

/-- Two rewrites of lists one after another are one, as long as both leave lists lists. -/
theorem rewritePart_rewritePart (h : ∀ opens node, (rewrite opens node).isList = node.isList)
    (node : Node) : rewritePart rewrite' (rewritePart rewrite node) =
      rewritePart (fun opens child => rewrite' opens (rewrite opens child)) node := by
  cases node with
  | leaf content => rfl
  | branch head children =>
      cases hd : head.isNamed .descriptionDetails with
      | false => simp [rewritePart, hd]
      | true => simp [rewritePart, hd, opensWithList_map (h _), Function.comp_def]

/-- The children of details are rewritten in two ways one after another, or at once. -/
theorem mapBottomUp_rewritePart_rewritePart
    (hlist : ∀ opens node, (rewrite opens node).isList = node.isList)
    (h : ∀ opens node, (rewrite opens node).mapBottomUp (rewritePart rewrite') =
      rewrite opens (node.mapBottomUp (rewritePart rewrite'))) (tree : Node) :
    (tree.mapBottomUp (rewritePart rewrite)).mapBottomUp (rewritePart rewrite') =
      tree.mapBottomUp (rewritePart fun opens child => rewrite' opens (rewrite opens child)) := by
  have hlists := Node.isList_mapBottomUp (changesDetails_rewritePart rewrite')
  rw [Node.mapBottomUp_mapBottomUp (mapChildren_rewritePart hlists h)]
  exact congrArg (Node.mapBottomUp · tree) (funext (rewritePart_rewritePart hlist))

end Rewritings

/-- Dropping the first item of a list in details that open with one. -/
def dropIfOpening (opens : Bool) (node : Node) : Node := if opens then dropSeed node else node

theorem isList_dropIfOpening (opens : Bool) (node : Node) :
    (dropIfOpening opens node).isList = node.isList := by
  cases opens with
  | false => rfl
  | true => exact isList_dropSeed node

/-- Where later lists are taken along, they are told from the others by the node that opens details. -/
theorem dropSeedsHere_true : dropSeedsHere true = rewritePart dropIfOpening := by
  funext node
  cases node with
  | leaf content => rfl
  | branch head children =>
      have hchildren : dropSeedsAmong true children =
          children.map (dropIfOpening (opensWithList children)) := by
        cases children with
        | nil => rfl
        | cons first more =>
            have hopens : opensWithList (first :: more) = first.isList := rfl
            -- if the first child is no list, the later ones are left alone as well
            rw [dropSeedsAmong, Bool.true_and, hopens]
            cases hlist : first.isList with
            | true => rfl
            | false =>
                rw [dropSeed_of_not_isList hlist]
                exact (List.map_id _).symm
      rw [dropSeedsHere, rewritePart, hchildren]

namespace Node

theorem dropSeeds_true (tree : Node) :
    tree.dropSeeds true = tree.mapBottomUp (rewritePart dropIfOpening) := by
  rw [dropSeeds, dropSeedsHere_true]

/-- Cleaning what was repeated is cutting off fragments, and then dropping the first items of all lists
in details that open with a list. -/
theorem sweep_true (tree : Node) : tree.sweep true = (tree.sweep false).dropSeeds true := by
  have hcomm (_ : Bool) := cleanList_mapBottomUp (changesDetails_rewritePart dropIfOpening) false
  refine Eq.symm ((dropSeeds_true _).trans ((mapBottomUp_rewritePart_rewritePart
    (fun _ => isList_cleanList _) hcomm tree).trans ?_))
  refine congrArg (fun rewrite => tree.mapBottomUp (rewritePart rewrite)) (funext₂ fun opens node => ?_)
  cases opens with
  | false => rfl
  | true => exact dropSeed_cleanList node

/-- The first items may as well be dropped before fragments are cut off. -/
theorem sweep_dropSeeds (tree : Node) : (tree.dropSeeds true).sweep false = tree.sweep true := by
  have hcomm (opens : Bool) (node : Node) :
      (dropIfOpening opens node).mapBottomUp (rewritePart fun _ => cleanList false) =
        dropIfOpening opens (node.mapBottomUp (rewritePart fun _ => cleanList false)) := by
    cases opens with
    | false => rfl
    | true => exact dropSeed_mapBottomUp (changesDetails_rewritePart _) node
  refine (congrArg (sweep false) (dropSeeds_true tree)).trans
    ((mapBottomUp_rewritePart_rewritePart isList_dropIfOpening hcomm tree).trans ?_)
  refine congrArg (fun rewrite => tree.mapBottomUp (rewritePart rewrite)) (funext₂ fun opens node => ?_)
  cases opens with
  | false => rfl
  | true => exact cleanList_dropSeed node

end Node

end DefinitionLists
