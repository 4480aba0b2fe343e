/-
Module: DefinitionLists.Proofs.Visit.Removals
Purpose: What a visit leaves that removes nodes on its way: the tree without them, and without all that is
  below them. For this the traversal by any visitor is told, without a bound, also by visitors that look
  again at the same place or pass over siblings.
Main exports: Traversal, Traversal.deterministic, Traversal.visitFrom_eq, Node.Traverses,
  Node.Traverses.visit_eq, Course.traversal, removing, Node.visit_removes_gone
-/
import Mathlib.Algebra.BigOperators.Group.List.Basic
import DefinitionLists.Node.Action
import DefinitionLists.Proofs.Visit.Course

namespace DefinitionLists

open Node (length_preorder preorderList preorder_eq_cons visitBudget visitFrom without withoutAmong)

/-! ### Visits by any visitor -/

section Traversal

variable {σ : Type} {visitor : Visitor σ}

/-- The traversal of the siblings from a place on and of all below them: from a place and the state of the
visitor there, over the places at which the visitor is called, to what these siblings become and the state
of the visitor then. -/
inductive Traversal (visitor : Visitor σ) : Place → σ → List Place → List Node → σ → Prop where
  | done (parent : Branch) (before : List Node) (state : σ) :
      Traversal visitor ⟨parent, before, []⟩ state [] [] state
  /-- What is passed over stays as the visitor left it. -/
  | jump {parent : Branch} {before rest here result : List Node} {node : Node} {count : Nat}
      {places : List Place} {state state' last : σ}
      (call : visitor ⟨parent, before, node :: rest⟩ state = (.jump count, here, state'))
      (later : Traversal visitor ⟨parent, (here.take count).reverse ++ before, here.drop count⟩ state'
        places result last) :
      Traversal visitor ⟨parent, before, node :: rest⟩ state (⟨parent, before, node :: rest⟩ :: places)
        (here.take count ++ result) last
  /-- The visitor leaves no node at its place to go on into. -/
  | emptied {parent : Branch} {before rest : List Node} {node : Node} {state state' : σ}
      (call : visitor ⟨parent, before, node :: rest⟩ state = (.descend, [], state')) :
      Traversal visitor ⟨parent, before, node :: rest⟩ state [⟨parent, before, node :: rest⟩] [] state'
  | leaf {parent : Branch} {before rest after result : List Node} {node : Node} {content : Leaf}
      {places : List Place} {state state' last : σ}
      (call : visitor ⟨parent, before, node :: rest⟩ state = (.descend, .leaf content :: after, state'))
      (later : Traversal visitor ⟨parent, .leaf content :: before, after⟩ state' places result last) :
      Traversal visitor ⟨parent, before, node :: rest⟩ state (⟨parent, before, node :: rest⟩ :: places)
        (.leaf content :: result) last
  /-- The nodes below are visited before the siblings that come after. -/
  | branch {parent head : Branch} {before rest children inside after result : List Node} {node : Node}
      {below places : List Place} {state state' state'' last : σ}
      (call : visitor ⟨parent, before, node :: rest⟩ state =
        (.descend, .branch head children :: after, state'))
      (inner : Traversal visitor ⟨head, [], children⟩ state' below inside state'')
      (later : Traversal visitor ⟨parent, .branch head inside :: before, after⟩ state'' places result
        last) :
      Traversal visitor ⟨parent, before, node :: rest⟩ state
        (⟨parent, before, node :: rest⟩ :: (below ++ places)) (.branch head inside :: result) last

namespace Traversal

variable {place : Place} {state last : σ} {places : List Place} {result : List Node}

/-- There is no other traversal from the same place and state. -/
theorem deterministic {places' : List Place} {result' : List Node} {last' : σ}
    (h : Traversal visitor place state places result last)
    (h' : Traversal visitor place state places' result' last') :
    places = places' ∧ result = result' ∧ last = last' := by
  induction h generalizing places' result' last' with
  | done parent before state =>
      cases h'
      exact ⟨rfl, rfl, rfl⟩
  | jump call _ ih =>
      cases h' with
      | jump call' later' =>
          cases call.symm.trans call'
          obtain ⟨rfl, rfl, rfl⟩ := ih later'
          exact ⟨rfl, rfl, rfl⟩
      | emptied call' | leaf call' | branch call' => cases call.symm.trans call'
  | emptied call =>
      cases h' with
      | emptied call' =>
          cases call.symm.trans call'
          exact ⟨rfl, rfl, rfl⟩
      | jump call' | leaf call' | branch call' => cases call.symm.trans call'
  | leaf call _ ih =>
      cases h' with
      | leaf call' later' =>
          cases call.symm.trans call'
          obtain ⟨rfl, rfl, rfl⟩ := ih later'
          exact ⟨rfl, rfl, rfl⟩
      | jump call' | emptied call' | branch call' => cases call.symm.trans call'
  | branch call _ _ ihi ihl =>
      cases h' with
      | branch call' inner' later' =>
          cases call.symm.trans call'
          obtain ⟨rfl, rfl, rfl⟩ := ihi inner'
          obtain ⟨rfl, rfl, rfl⟩ := ihl later'
          exact ⟨rfl, rfl, rfl⟩
      | jump call' | emptied call' | leaf call' => cases call.symm.trans call'

/-- The visitor is called only where there is a node. -/
theorem here_ne_nil (h : Traversal visitor place state places result last) :
    ∀ called ∈ places, called.here ≠ [] := by
  induction h with
  | done parent before state => exact List.forall_mem_nil _
  | jump _ _ ih => exact List.forall_mem_cons.2 ⟨List.cons_ne_nil _ _, ih⟩
  | emptied _ => exact List.forall_mem_singleton.2 (List.cons_ne_nil _ _)
  | leaf _ _ ih => exact List.forall_mem_cons.2 ⟨List.cons_ne_nil _ _, ih⟩
  | branch _ _ _ ihi ihl =>
      exact List.forall_mem_cons.2 ⟨List.cons_ne_nil _ _, List.forall_mem_append.2 ⟨ihi, ihl⟩⟩

/-- A visit that has fuel for each call of its visitor comes to the end of the traversal. -/
theorem visitFrom_eq {fuel : Nat} (h : Traversal visitor place state places result last)
    (hf : places.length ≤ fuel) :
    visitFrom visitor fuel place state = (place.before.reverse ++ result, last) := by
  induction h generalizing fuel with
  | done parent before state => cases fuel <;> simp [visitFrom, Place.siblings]
  | jump call _ ih =>
      cases fuel with
      | zero => cases hf
      | succ fuel =>
          simp only [visitFrom, List.isEmpty_cons, Bool.false_eq_true, if_false, call]
          rw [ih (Nat.le_of_succ_le_succ hf)]
          simp
  | emptied call =>
      cases fuel with
      | zero => cases hf
      | succ fuel => simp [visitFrom, call]
  | leaf call _ ih =>
      cases fuel with
      | zero => cases hf
      | succ fuel =>
          simp only [visitFrom, List.isEmpty_cons, Bool.false_eq_true, if_false, call]
          rw [ih (Nat.le_of_succ_le_succ hf)]
          simp
  | @branch _ _ _ _ _ _ _ _ _ below places _ _ _ _ call _ _ ihi ihl =>
      cases fuel with
      | zero => cases hf
      | succ fuel =>
          have hboth : below.length + places.length ≤ fuel := by
            simpa using hf
          simp only [visitFrom, List.isEmpty_cons, Bool.false_eq_true, if_false, call]
          rw [ihi (show below.length ≤ fuel by omega)]
          simp only [List.reverse_nil, List.nil_append]
          rw [ihl (show places.length ≤ fuel by omega)]
          simp

end Traversal

/-- The traversal of all that is below a tree, without any bound: from the tree and a state, over the places
at which the visitor is called, to the tree that is left and the state then. -/
inductive Node.Traverses (visitor : Visitor σ) : Node → σ → List Place → Node → σ → Prop where
  | leaf (content : Leaf) (state : σ) : Traverses visitor (.leaf content) state [] (.leaf content) state
  | branch {head : Branch} {children inside : List Node} {places : List Place} {state last : σ}
      (traversal : Traversal visitor ⟨head, [], children⟩ state places inside last) :
      Traverses visitor (.branch head children) state places (.branch head inside) last

namespace Node.Traverses

variable {tree result : Node} {state last : σ} {places : List Place}

theorem deterministic {places' : List Place} {result' : Node} {last' : σ}
    (h : tree.Traverses visitor state places result last)
    (h' : tree.Traverses visitor state places' result' last') :
    places = places' ∧ result = result' ∧ last = last' := by
  cases h with
  | leaf content state =>
      cases h'
      exact ⟨rfl, rfl, rfl⟩
  | branch traversal =>
      cases h' with
      | branch traversal' =>
          obtain ⟨rfl, rfl, rfl⟩ := traversal.deterministic traversal'
          exact ⟨rfl, rfl, rfl⟩

theorem here_ne_nil (h : tree.Traverses visitor state places result last) :
    ∀ called ∈ places, called.here ≠ [] := by
  cases h with
  | leaf content state => exact List.forall_mem_nil _
  | branch traversal => exact traversal.here_ne_nil

/-- The bound of a visit is not what ends it, if the visitor is called at most that often. -/
theorem visit_eq (h : tree.Traverses visitor state places result last)
    (hbudget : places.length ≤ tree.visitBudget) : tree.visit visitor state = (result, last) := by
  cases h with
  | leaf content state => rfl
  | branch traversal =>
      rw [Node.visit, traversal.visitFrom_eq hbudget]
      rfl

end Node.Traverses

/-- The course of a visit that changes siblings is the traversal by a visitor that always goes on into the
node at its place. -/
theorem Course.traversal {change : Place → List Node} {place : Place} {places : List Place}
    {result : List Node} (h : Course change place places result) (state : σ) :
    Traversal (fun place state => (.descend, change place, state)) place state places result state := by
  induction h with
  | done parent before => exact .done parent before state
  | leaf step _ ih => exact .leaf (by rw [step]) ih
  | branch step _ _ ihi ihl => exact .branch (by rw [step]) ihi ihl

/-- A visitor that goes on into a node: the visit comes to what is below it, and then to the nodes after
it. -/
theorem Traversal.enter {parent : Branch} {before rest after result : List Node} {node first left : Node}
    {below places : List Place} {state state' state'' last : σ}
    (call : visitor ⟨parent, before, node :: rest⟩ state = (.descend, first :: after, state'))
    (inner : first.Traverses visitor state' below left state'')
    (later : Traversal visitor ⟨parent, left :: before, after⟩ state'' places result last) :
    Traversal visitor ⟨parent, before, node :: rest⟩ state
      (⟨parent, before, node :: rest⟩ :: (below ++ places)) (left :: result) last := by
  cases inner with
  | leaf content => exact .leaf call later
  | branch traversal => exact .branch call traversal later

end Traversal

/-! ### Visits that remove nodes -/

/-- The visitor that removes the node at its place if it is gone, to look next at what takes its place, and
otherwise goes on into it. -/
def removing (gone : Node → Bool) : Visitor Unit := fun place state =>
  let action : Action := if place.here.head?.any gone then .remove else .descend
  let (step, here) := action.perform place
  (step, here, state)

/-- The nodes that a visit has done with after a call: the one that the call is for, and if it is gone all
below it. -/
def Place.doneWith (gone : Node → Bool) (place : Place) : List Node :=
  match place.here with
  | [] => []
  | node :: _ => if gone node then node.preorder else [node]

section Removal

variable {gone : Node → Bool}

theorem removing_of_gone {node : Node} (h : gone node = true) (parent : Branch)
    (before after : List Node) (state : Unit) :
    removing gone ⟨parent, before, node :: after⟩ state = (.jump 0, after, state) := by
  simp [removing, h, Action.perform]

theorem removing_of_not_gone {node : Node} (h : gone node = false) (parent : Branch)
    (before after : List Node) (state : Unit) :
    removing gone ⟨parent, before, node :: after⟩ state = (.descend, node :: after, state) := by
  simp [removing, h, Action.perform]

theorem doneWith_of_gone {node : Node} (h : gone node = true) (parent : Branch)
    (before after : List Node) :
    Place.doneWith gone ⟨parent, before, node :: after⟩ = node.preorder := by
  simp [Place.doneWith, h]

theorem doneWith_of_not_gone {node : Node} (h : gone node = false) (parent : Branch)
    (before after : List Node) : Place.doneWith gone ⟨parent, before, node :: after⟩ = [node] := by
  simp [Place.doneWith, h]

/-- At a place with a node a visit has done with this node at least. -/
theorem one_le_length_doneWith {place : Place} (h : place.here ≠ []) :
    1 ≤ (place.doneWith gone).length := by
  obtain ⟨parent, before, here⟩ := place
  cases here with
  | nil => exact absurd rfl h
  | cons node after =>
      cases hgone : gone node with
      | true =>
          rw [doneWith_of_gone hgone, length_preorder]
          exact node.size_pos
      | false =>
          rw [doneWith_of_not_gone hgone]
          exact Nat.le_refl 1

variable (gone)

mutual

/-- Nodes that are gone can be removed in one traversal of what is below a node, which has done with every
node once, in pre-order. -/
theorem Node.exists_traverses_removing : ∀ node : Node, ∃ places,
    node.Traverses (removing gone) () places (node.without gone) () ∧
      places.flatMap (Place.doneWith gone) = preorderList node.children
  | .leaf content => ⟨[], .leaf content (), rfl⟩
  | .branch head children => by
      obtain ⟨places, htraversal, hdone⟩ := exists_traversal_removing head [] children
      exact ⟨places, .branch htraversal, hdone⟩

/-- The traversal leaves the nodes that are not gone, and has done with each node once. -/
theorem exists_traversal_removing (parent : Branch) (before : List Node) : ∀ nodes : List Node,
    ∃ places, Traversal (removing gone) ⟨parent, before, nodes⟩ () places (withoutAmong gone nodes) () ∧
      places.flatMap (Place.doneWith gone) = preorderList nodes
  | [] => ⟨[], .done parent before (), rfl⟩
  | node :: after => by
      rw [withoutAmong, preorderList]
      cases hgone : gone node with
      | true =>
          -- The visitor is called again at the same place, where the next sibling has come.
          obtain ⟨places, htraversal, hdone⟩ := exists_traversal_removing parent before after
          refine ⟨_, .jump (removing_of_gone hgone parent before after ()) htraversal, ?_⟩
          rw [List.flatMap_cons, doneWith_of_gone hgone, hdone]
      | false =>
          obtain ⟨below, hinner, hbelow⟩ := Node.exists_traverses_removing node
          obtain ⟨places, htraversal, hdone⟩ :=
            exists_traversal_removing parent (node.without gone :: before) after
          refine ⟨_, .enter (removing_of_not_gone hgone parent before after ()) hinner htraversal, ?_⟩
          rw [List.flatMap_cons, List.flatMap_append, doneWith_of_not_gone hgone, hbelow, hdone,
            preorder_eq_cons, List.singleton_append, List.cons_append]

end

/-- As a traversal has done with each node once, it does not call its visitor more often than there are
nodes. -/
theorem Node.Traverses.length_le_of_flatMap_doneWith {tree result : Node} {places : List Place}
    (h : tree.Traverses (removing gone) () places result ())
    (hdone : places.flatMap (Place.doneWith gone) = preorderList tree.children) :
    places.length ≤ tree.visitBudget := by
  have hpositive : ∀ count ∈ places.map fun place => (place.doneWith gone).length, 1 ≤ count := by
    intro count hcount
    obtain ⟨place, hplace, rfl⟩ := List.mem_map.1 hcount
    exact one_le_length_doneWith (h.here_ne_nil place hplace)
  have hsize := tree.length_preorder
  rw [preorder_eq_cons, List.length_cons] at hsize
  calc places.length = (places.map fun place => (place.doneWith gone).length).length := by
        rw [List.length_map]
    _ ≤ (places.map fun place => (place.doneWith gone).length).sum :=
        List.length_le_sum_of_one_le _ hpositive
    _ = (preorderList tree.children).length := by rw [← List.length_flatMap, hdone]
    _ ≤ tree.visitBudget := by
        rw [visitBudget]
        omega

/-- A visit that removes nodes on its way comes to its end without any bound, in one way only, and leaves
the tree without all that is gone: at every level, from the top down, the children that are gone are left
out with all below them, and the others stay in their order. No node is passed over after a removal: the
calls of the visitor are for all nodes in pre-order, those below removed nodes apart. -/
theorem Node.visit_removes_gone (tree : Node) :
    tree.visit (removing gone) () = (tree.without gone, ()) ∧
    ∃ places, places.flatMap (Place.doneWith gone) = preorderList tree.children ∧
      ∀ places' result state, tree.Traverses (removing gone) () places' result state ↔
        places' = places ∧ result = tree.without gone := by
  obtain ⟨places, htraverses, hdone⟩ := Node.exists_traverses_removing gone tree
  refine ⟨htraverses.visit_eq (htraverses.length_le_of_flatMap_doneWith gone hdone), places, hdone, ?_⟩
  intro places' result state
  constructor
  · intro h
    obtain ⟨hplaces, hresult, -⟩ := h.deterministic htraverses
    exact ⟨hplaces, hresult⟩
  · rintro ⟨rfl, rfl⟩
    exact htraverses

/-- Of two lists in a row both are removed, and so is the last of the siblings. -/
example :
    ((Node.plain .root [.bulletList [.bulletList []], .bulletList [],
        .plain .blockquote [.leaf .thematicBreak, .bulletList []], .bulletList []]).visit
      (removing Node.isList) ()).1 =
    .plain .root [.plain .blockquote [.leaf .thematicBreak]] := by
  decide +kernel

end Removal

end DefinitionLists
