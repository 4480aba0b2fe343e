/-
Module: DefinitionLists.Proofs.InDetails
Purpose: Visits that rewrite what stands directly in details: what they make of an outlined
  document, and what they note on the way, block by block.
Main exports: inDetails, notedInDetails, rewriteBlock, notedInBlock, visit_root, edit_root
-/
import DefinitionLists.Proofs.Outline
import DefinitionLists.Proofs.Visit

namespace DefinitionLists

open Node (allProse editFrom editFrom_cons editWithin notesFrom notesFrom_cons notesWithin noting
  visitFrom_noting)

/-- Whether the nodes open with a list. -/
def opensWithList (nodes : List Node) : Bool := nodes.head?.any Node.isList

/-- Rewrites the node at a place in details. The first argument of `rewrite` tells whether the
details open with a list. Any parent with the name of details will do, be it of unknown kind. -/
def inDetails (rewrite : Bool → Node → Node) (place : Place) : List Node :=
  match place.here with
  | node :: after =>
    if place.parent.isNamed .descriptionDetails then
      rewrite (opensWithList place.siblings) node :: after
    else node :: after
  | [] => []

/-- What is noted of the node at a place in details. -/
def notedInDetails {α : Type} (record : Bool → Node → List α) (place : Place) : List α :=
  match place.here with
  | node :: _ =>
    if place.parent.isNamed .descriptionDetails then
      record (opensWithList place.siblings) node
    else []
  | [] => []

/-- The part of a definition list with its children rewritten, if it has the name of details. -/
def rewritePart (rewrite : Bool → Node → Node) : Node → Node
  | .branch head children =>
    if head.isNamed .descriptionDetails then
      .branch head (children.map (rewrite (opensWithList children)))
    else .branch head children
  | node => node

/-- The block with all details in it rewritten, if it is a definition list. -/
def rewriteBlock (rewrite : Bool → Node → Node) : Node → Node
  | .branch head parts =>
    if head.isContainer .descriptionList then .branch head (parts.map (rewritePart rewrite))
    else .branch head parts
  | node => node

/-- What is noted of the children of a part of a definition list. -/
def notedInPart {α : Type} (record : Bool → Node → List α) (part : Node) : List α :=
  if part.isContainer .descriptionDetails then
    part.children.flatMap (record (opensWithList part.children))
  else []

/-- What is noted of the details in a block. -/
def notedInBlock {α : Type} (record : Bool → Node → List α) (block : Node) : List α :=
  if block.isContainer .descriptionList then block.children.flatMap (notedInPart record) else []

/-- Whether nodes open with a list does not depend on what else a node is, or on later nodes. -/
theorem opensWithList_congr {before after : List Node} {node node' : Node}
    (h : node'.isList = node.isList) :
    opensWithList (before ++ node' :: after) = opensWithList (before ++ node :: after) := by
  cases before with
  | nil => simp [opensWithList, h]
  | cons first more => simp [opensWithList]

theorem Node.size_pos (node : Node) : 0 < node.size := by
  cases node <;> simp only [size] <;> omega

theorem Node.length_le_sizeList (nodes : List Node) : nodes.length ≤ sizeList nodes := by
  induction nodes with
  | nil => simp
  | cons node more ih =>
      have := node.size_pos
      simp only [List.length_cons, sizeList]
      omega

section Visits

variable {α : Type} (rewrite : Bool → Node → Node) (record : Bool → Node → List α)

/-- Outside of details nothing is rewritten. -/
theorem inDetails_outside {parent : Branch} (h : parent.isNamed .descriptionDetails = false)
    (before here : List Node) : inDetails rewrite ⟨parent, before, here⟩ = here := by
  cases here <;> simp [inDetails, h]

/-- Outside of details nothing is noted. -/
theorem notedInDetails_outside {parent : Branch}
    (h : parent.isNamed .descriptionDetails = false) (before here : List Node) :
    notedInDetails record ⟨parent, before, here⟩ = [] := by
  cases here <;> simp [notedInDetails, h]

private theorem visitWithin_of_visit {fuel : Nat} {node : Node} (h : node.isProse = true)
    (hvisit : ∀ {head : Branch} {children : List Node},
      head.isNamed .descriptionDetails = false → allProse children = true →
        editFrom (inDetails rewrite) fuel ⟨head, [], children⟩ = children ∧
          notesFrom (inDetails rewrite) (notedInDetails record) fuel ⟨head, [], children⟩ = []) :
    editWithin (inDetails rewrite) fuel node = node ∧
      notesWithin (inDetails rewrite) (notedInDetails record) fuel node = [] := by
  cases node with
  | leaf content => exact ⟨rfl, rfl⟩
  | branch head children =>
      obtain ⟨hhead, hchildren⟩ := (Node.isProse_branch _ _).1 h
      obtain ⟨hedit, hnotes⟩ := hvisit (Branch.isNamed_of_not_isSpecial hhead rfl) hchildren
      exact ⟨congrArg (Node.branch head) hedit, hnotes⟩

/-- A visit leaves prose alone that does not stand in details. -/
theorem visit_prose (fuel : Nat) {parent : Branch}
    (hp : parent.isNamed .descriptionDetails = false) (before : List Node) {here : List Node}
    (hh : allProse here = true) :
    editFrom (inDetails rewrite) fuel ⟨parent, before, here⟩ = before.reverse ++ here ∧
      notesFrom (inDetails rewrite) (notedInDetails record) fuel ⟨parent, before, here⟩ = [] := by
  induction fuel generalizing parent before here with
  | zero => exact ⟨rfl, rfl⟩
  | succ fuel ih =>
      cases here with
      | nil => simp [editFrom, notesFrom]
      | cons node rest =>
          obtain ⟨hnode, hrest⟩ := (Node.allProse_cons _ _).1 hh
          have hchange := inDetails_outside rewrite hp before (node :: rest)
          have hnote := notedInDetails_outside record hp before (node :: rest)
          obtain ⟨hwithin, hwithin'⟩ := visitWithin_of_visit rewrite record hnode
            fun hd hc => ih hd [] hc
          obtain ⟨hedit, hnotes⟩ := ih hp (node :: before) hrest
          rw [editFrom_cons hchange, notesFrom_cons hchange, hnote, hwithin, hwithin']
          exact ⟨by simpa using hedit, by simpa using hnotes⟩

theorem visitWithin_prose (fuel : Nat) {node : Node} (h : node.isProse = true) :
    editWithin (inDetails rewrite) fuel node = node ∧
      notesWithin (inDetails rewrite) (notedInDetails record) fuel node = [] :=
  visitWithin_of_visit rewrite record h fun hd hc => visit_prose rewrite record fuel hd [] hc

/-- A visit of nodes that do not stand in details only changes what is below each of them. -/
theorem visit_outside {parent : Branch} (hp : parent.isNamed .descriptionDetails = false)
    {within : Node → Node} {noted : Node → List α} {fuel : Nat} (before : List Node)
    {here : List Node} (hf : Node.sizeList here ≤ fuel)
    (hwithin : ∀ node ∈ here, ∀ fuel, node.size ≤ fuel + 1 →
      editWithin (inDetails rewrite) fuel node = within node ∧
        notesWithin (inDetails rewrite) (notedInDetails record) fuel node = noted node) :
    editFrom (inDetails rewrite) fuel ⟨parent, before, here⟩ =
        before.reverse ++ here.map within ∧
      notesFrom (inDetails rewrite) (notedInDetails record) fuel ⟨parent, before, here⟩ =
        here.flatMap noted := by
  induction here generalizing fuel before with
  | nil => cases fuel <;> simp [editFrom, notesFrom, Place.siblings]
  | cons node rest ih =>
      have hsize : 0 < node.size := node.size_pos
      rw [Node.sizeList] at hf
      obtain ⟨fuel, rfl⟩ : ∃ n, fuel = n + 1 := ⟨fuel - 1, by omega⟩
      have hchange := inDetails_outside rewrite hp before (node :: rest)
      have hnote := notedInDetails_outside record hp before (node :: rest)
      have hfuel : Node.sizeList rest ≤ fuel := by omega
      obtain ⟨hnode, hnode'⟩ := hwithin node (by simp) fuel (by omega)
      -- the node is left as it is and gone into; then come its siblings
      obtain ⟨hedit, hnotes⟩ := ih (within node :: before) hfuel
        fun other ho => hwithin other (by simp [ho])
      rw [editFrom_cons hchange, notesFrom_cons hchange, hnote, hnode, hnode']
      exact ⟨by simpa using hedit, by simpa using hnotes⟩

variable (hlist : ∀ opens node, (rewrite opens node).isList = node.isList)
  (hprose : ∀ opens {node : Node}, node.isProse = true → (rewrite opens node).isProse = true)

include hlist hprose

/-- A visit of prose in details rewrites each node, and does not change whether the details open
with a list. -/
theorem visit_details {parent : Branch} (hd : parent.isNamed .descriptionDetails = true)
    {opens : Bool} {fuel : Nat} (before : List Node) {here : List Node} (hf : here.length ≤ fuel)
    (ho : opensWithList (before.reverse ++ here) = opens) (hh : allProse here = true) :
    editFrom (inDetails rewrite) fuel ⟨parent, before, here⟩ =
        before.reverse ++ here.map (rewrite opens) ∧
      notesFrom (inDetails rewrite) (notedInDetails record) fuel ⟨parent, before, here⟩ =
        here.flatMap (record opens) := by
  induction here generalizing fuel before with
  | nil => cases fuel <;> simp [editFrom, notesFrom, Place.siblings]
  | cons node rest ih =>
      obtain ⟨hnode, hrest⟩ := (Node.allProse_cons _ _).1 hh
      obtain ⟨fuel, rfl⟩ : ∃ n, fuel = n + 1 := ⟨fuel - 1, by simp at hf; omega⟩
      have hchange : inDetails rewrite ⟨parent, before, node :: rest⟩ =
          rewrite opens node :: rest := by
        simp [inDetails, hd, Place.siblings, ho]
      have hnote : notedInDetails record ⟨parent, before, node :: rest⟩ = record opens node := by
        simp [notedInDetails, hd, Place.siblings, ho]
      obtain ⟨hwithin, hwithin'⟩ := visitWithin_prose rewrite record fuel (hprose opens hnode)
      -- the node that was rewritten now stands among the siblings before the others
      have hopens : opensWithList ((rewrite opens node :: before).reverse ++ rest) = opens := by
        rw [List.reverse_cons, List.append_assoc, List.singleton_append,
          opensWithList_congr (hlist opens node), ho]
      have hfuel : rest.length ≤ fuel := by simpa using hf
      obtain ⟨hedit, hnotes⟩ := ih (rewrite opens node :: before) hfuel hopens hrest
      rw [editFrom_cons hchange, notesFrom_cons hchange, hnote, hwithin, hwithin']
      exact ⟨by simpa using hedit, by simpa using hnotes⟩

/-- A visit of a part of a definition list rewrites what stands directly in it, if it is details. -/
theorem visitWithin_part {reached : Reached} {parts : List Node} (h : Parts reached parts)
    {part : Node} (hm : part ∈ parts) {fuel : Nat} (hf : part.size ≤ fuel + 1) :
    editWithin (inDetails rewrite) fuel part = rewritePart rewrite part ∧
      notesWithin (inDetails rewrite) (notedInDetails record) fuel part =
        notedInPart record part := by
  obtain ⟨children, hchildren, rfl | rfl⟩ := h.mem hm
  · have hterm : (Branch.container .descriptionTerm (some "dt") none).isNamed
        .descriptionDetails = false := rfl
    obtain ⟨hedit, hnotes⟩ := visit_prose rewrite record fuel hterm [] hchildren
    exact ⟨congrArg (Node.branch _) hedit, hnotes⟩
  · have hdetails : (Branch.container .descriptionDetails (some "dd") none).isNamed
        .descriptionDetails = true := rfl
    have hfuel : children.length ≤ fuel := by
      have := Node.length_le_sizeList children
      simp only [Node.descriptionDetails, Node.size] at hf
      omega
    obtain ⟨hedit, hnotes⟩ :=
      visit_details rewrite record hlist hprose hdetails [] hfuel rfl hchildren
    exact ⟨congrArg (Node.branch _) hedit, hnotes⟩

/-- A visit of a block rewrites what stands directly in the details of a definition list. -/
theorem visitWithin_block {block : Node} (h : IsBlock block) {fuel : Nat}
    (hf : block.size ≤ fuel + 1) :
    editWithin (inDetails rewrite) fuel block = rewriteBlock rewrite block ∧
      notesWithin (inDetails rewrite) (notedInDetails record) fuel block =
        notedInBlock record block := by
  cases h with
  | prose prose =>
      obtain ⟨hedit, hnotes⟩ := visitWithin_prose rewrite record fuel prose
      have hblock : block.isContainer .descriptionList = false :=
        Node.isContainer_of_isProse prose rfl
      rw [hedit, hnotes]
      cases block with
      | leaf content => exact ⟨rfl, rfl⟩
      | branch head children =>
          have hhead : head.isContainer .descriptionList = false := hblock
          simp [rewriteBlock, notedInBlock, Node.isContainer, hhead]
  | @definitions parts whole =>
      have hlists : (Branch.container .descriptionList (some "dl") none).isNamed
          .descriptionDetails = false := rfl
      have hfuel : Node.sizeList parts ≤ fuel := by
        simp only [Node.descriptionList, Node.size] at hf
        omega
      obtain ⟨hedit, hnotes⟩ := visit_outside rewrite record hlists [] hfuel
        fun part hm fuel hf => visitWithin_part rewrite record hlist hprose whole hm hf
      exact ⟨congrArg (Node.branch _) hedit, hnotes⟩

/-- What a visit that rewrites in details makes of an outlined document, and what it notes. -/
theorem visit_root {hint : Option String} {span : Option Span} {blocks : List Node}
    (h : ∀ block ∈ blocks, IsBlock block) :
    Node.visit (noting (inDetails rewrite) (notedInDetails record))
        (.branch (.container .root hint span) blocks) [] =
      (.branch (.container .root hint span) (blocks.map (rewriteBlock rewrite)),
        blocks.flatMap (notedInBlock record)) := by
  have hroot : (Branch.container .root hint span).isNamed .descriptionDetails = false := rfl
  have hfuel : Node.sizeList blocks ≤
      Node.visitBudget (.branch (.container .root hint span) blocks) := by
    simp only [Node.visitBudget, Node.size]
    omega
  obtain ⟨hedit, hnotes⟩ := visit_outside rewrite record hroot [] hfuel
    fun block hm fuel hf => visitWithin_block rewrite record hlist hprose (h block hm) hf
  simp only [Node.visit, visitFrom_noting, hedit, hnotes]
  rfl

/-- What an edit that rewrites in details makes of an outlined document. -/
theorem edit_root {hint : Option String} {span : Option Span} {blocks : List Node}
    (h : ∀ block ∈ blocks, IsBlock block) :
    Node.edit (inDetails rewrite) (.branch (.container .root hint span) blocks) =
      .branch (.container .root hint span) (blocks.map (rewriteBlock rewrite)) := by
  rw [Node.edit_eq_visit_noting _ (notedInDetails fun _ _ => ([] : List Unit)),
    visit_root rewrite _ hlist hprose h]

end Visits

end DefinitionLists
