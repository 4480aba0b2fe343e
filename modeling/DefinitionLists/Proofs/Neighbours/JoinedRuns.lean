/-
Module: DefinitionLists.Proofs.Neighbours.JoinedRuns
Purpose: Definition lists that stand side by side below a root become one, run by run: the scan with its
  pending children makes the same of the nodes as a cut into runs that are joined one by one.
Main exports: sameSort, joinedRun, joinRuns_flatten, joinRuns_eq_flatMap, joinRuns_joinRuns,
  joinAdjacent_joins_runs
-/
import Mathlib.Data.List.SplitBy
import DefinitionLists.Proofs.Seeds.Text

namespace DefinitionLists

/-! ### Runs -/

/-- Whether both nodes are definition lists, or neither of them is. -/
def sameSort (first second : Node) : Bool :=
  first.isContainer .descriptionList == second.isContainer .descriptionList

/-- What becomes of a run of nodes of the same sort: one definition list of all that definition lists
hold, if they hold anything, while other nodes stay. -/
def joinedRun (run : List Node) : List Node :=
  if run.all (·.isContainer .descriptionList) then definitionListOf (run.flatMap Node.children)
  else run

theorem isContainer_of_isChain_sameSort {first : Node} {more : List Node}
    (h : (first :: more).IsChain fun node next => sameSort node next = true) :
    ∀ node ∈ first :: more,
      node.isContainer .descriptionList = first.isContainer .descriptionList := by
  induction more generalizing first with
  | nil => simp
  | cons second more ih =>
      obtain ⟨hsame, hmore⟩ := List.isChain_cons_cons.1 h
      have hsecond := ih hmore
      rw [sameSort, beq_iff_eq] at hsame
      rw [hsame]
      exact List.forall_mem_cons.2 ⟨hsame, hsecond⟩

/-! ### The scan -/

theorem joinRuns_cons_list {node : Node} (h : node.isContainer .descriptionList = true)
    (pending more : List Node) :
    joinRuns pending (node :: more) = joinRuns (pending ++ node.children) more := by
  obtain ⟨hint, span, parts, rfl⟩ := Node.eq_branch_of_isContainer h
  rfl

theorem joinRuns_cons_other {node : Node} (h : node.isContainer .descriptionList = false)
    (pending more : List Node) :
    joinRuns pending (node :: more) = definitionListOf pending ++ node :: joinRuns [] more := by
  rw [joinRuns]
  rintro hint span parts rfl
  cases h

/-- What definition lists hold is put with what waits. -/
theorem joinRuns_append_of_lists {run : List Node}
    (h : ∀ node ∈ run, node.isContainer .descriptionList = true) (pending more : List Node) :
    joinRuns pending (run ++ more) = joinRuns (pending ++ run.flatMap Node.children) more := by
  induction run generalizing pending with
  | nil => simp
  | cons node run ih =>
      obtain ⟨hnode, hrun⟩ := List.forall_mem_cons.1 h
      rw [List.cons_append, joinRuns_cons_list hnode, ih hrun, List.flatMap_cons, List.append_assoc]

/-- It waits no longer when the run is over. -/
theorem joinRuns_of_whole {more : List Node}
    (h : ∀ next ∈ more.head?, next.isContainer .descriptionList = false) (pending : List Node) :
    joinRuns pending more = definitionListOf pending ++ joinRuns [] more := by
  cases more with
  | nil => simp [joinRuns, definitionListOf]
  | cons next more =>
      rw [joinRuns_cons_other (h next rfl), joinRuns_cons_other (h next rfl)]
      rfl

/-- Other nodes go by one at a time. -/
theorem joinRuns_append_of_others {run : List Node}
    (h : ∀ node ∈ run, node.isContainer .descriptionList = false) (more : List Node) :
    joinRuns [] (run ++ more) = run ++ joinRuns [] more := by
  induction run with
  | nil => rfl
  | cons node run ih =>
      obtain ⟨hnode, hrun⟩ := List.forall_mem_cons.1 h
      rw [List.cons_append, joinRuns_cons_other hnode, ih hrun]
      rfl

/-- The scan joins run by run, wherever the nodes come from runs of which none goes on with the sort of
the one before. -/
theorem joinRuns_flatten {runs : List (List Node)} (hsome : [] ∉ runs)
    (hsort : ∀ run ∈ runs, run.IsChain fun node next => sameSort node next = true)
    (hapart : runs.IsChain fun run next =>
      ∃ hrun hnext, sameSort (run.getLast hrun) (next.head hnext) = false) :
    joinRuns [] runs.flatten = runs.flatMap joinedRun := by
  induction runs with
  | nil => rfl
  | cons run runs ih =>
      rw [List.mem_cons, not_or] at hsome
      obtain ⟨hrun, hruns⟩ := List.forall_mem_cons.1 hsort
      obtain ⟨hnext, hchain⟩ := List.isChain_cons.1 hapart
      obtain ⟨first, others, rfl⟩ := List.exists_cons_of_ne_nil (Ne.symm hsome.1)
      have hall := isContainer_of_isChain_sameSort hrun
      rw [List.flatten_cons, List.flatMap_cons, ← ih hsome.2 hruns hchain]
      cases hfirst : first.isContainer .descriptionList with
      | true =>
          rw [hfirst] at hall
          have hwhole : ∀ next ∈ runs.flatten.head?, next.isContainer .descriptionList = false := by
            cases runs with
            | nil => simp
            | cons second runs =>
                obtain ⟨hne, hne', hdiffer⟩ := hnext second rfl
                intro next hn
                obtain ⟨next', others', rfl⟩ := List.exists_cons_of_ne_nil hne'
                obtain rfl : next' = next := Option.some.inj hn
                rw [sameSort, hall _ (List.getLast_mem hne)] at hdiffer
                simpa using hdiffer
          rw [joinRuns_append_of_lists hall, joinRuns_of_whole hwhole, joinedRun,
            if_pos (List.all_eq_true.2 hall)]
          rfl
      | false =>
          rw [hfirst] at hall
          have hother : ¬(first :: others).all (·.isContainer .descriptionList) = true := by
            simp [hfirst]
          rw [joinRuns_append_of_others hall, joinedRun, if_neg hother]

/-- The scan does to a document what joining each whole run by itself does. -/
theorem joinRuns_eq_flatMap (nodes : List Node) :
    joinRuns [] nodes = (nodes.splitBy sameSort).flatMap joinedRun := by
  have hruns := joinRuns_flatten (List.nil_notMem_splitBy sameSort nodes)
    (fun _ => List.isChain_of_mem_splitBy) (List.isChain_getLast_head_splitBy sameSort nodes)
  rwa [List.flatten_splitBy] at hruns

/-- An empty list keeps no others apart, and leaves nothing behind. -/
example : joinRuns [] [.descriptionList [.text "a"], .descriptionList [], .descriptionList [.text "b"],
    .leaf .thematicBreak, .descriptionList []] =
    [.descriptionList [.text "a", .text "b"], .leaf .thematicBreak] := by
  rfl

/-! ### What is joined stays joined -/

/-- A definition list of what waits is as good as waiting. -/
theorem joinRuns_definitionListOf (pending more : List Node) :
    joinRuns [] (definitionListOf pending ++ more) = joinRuns pending more := by
  unfold definitionListOf
  split
  · next hempty => rw [List.isEmpty_iff.1 hempty, List.nil_append]
  · rw [List.singleton_append, joinRuns_cons_list rfl, List.nil_append]
    rfl

/-- A second scan finds nothing to join. -/
theorem joinRuns_joinRuns (pending nodes : List Node) :
    joinRuns [] (joinRuns pending nodes) = joinRuns pending nodes := by
  fun_induction joinRuns pending nodes with
  | case1 pending =>
      have hlist := joinRuns_definitionListOf pending []
      rwa [List.append_nil] at hlist
  | case2 pending hint span parts more ih => exact ih
  | case3 pending node more hother ih =>
      rw [joinRuns_definitionListOf, joinRuns, ih]
      exact hother

/-- What comes right after a definition list is as it should be. -/
def AfterList (good : Node → Prop) (first next : Node) : Prop :=
  first.isContainer .descriptionList = true → good next

/-- Joined definition lists keep apart from one another, and have nothing right after them that none of
them had. An empty list goes without bringing its neighbours together: what comes before it is a
definition list of the same run, or no definition list at all. -/
theorem isChain_joinRuns_of_afterList {good : Node → Prop} {pending nodes : List Node}
    (h : nodes.IsChain (AfterList good)) (hp : pending ≠ [] → ∀ next ∈ nodes.head?, good next) :
    (joinRuns pending nodes).IsChain
      (AfterList fun next => next.isContainer .descriptionList = false ∧ good next) := by
  fun_induction joinRuns pending nodes with
  | case1 pending =>
      unfold definitionListOf
      split
      · exact .nil
      · exact .singleton _
  | case2 pending hint span parts more ih =>
      obtain ⟨hnext, hmore⟩ := List.isChain_cons.1 h
      exact ih hmore fun _ next hn => hnext next hn rfl
  | case3 pending node more hother ih =>
      obtain ⟨-, hmore⟩ := List.isChain_cons.1 h
      have hnode : node.isContainer .descriptionList = false := by
        rw [← Bool.not_eq_true]
        intro hlist
        obtain ⟨hint, span, parts, rfl⟩ := Node.eq_branch_of_isContainer hlist
        exact hother hint span parts rfl
      have hrest : (node :: joinRuns [] more).IsChain
          (AfterList fun next => next.isContainer .descriptionList = false ∧ good next) := by
        refine List.isChain_cons.2 ⟨fun next _ hlist => ?_, ih hmore fun hnone => absurd rfl hnone⟩
        rw [hnode] at hlist
        cases hlist
      unfold definitionListOf
      split
      · exact hrest
      · next hpending =>
          refine List.isChain_cons.2 ⟨fun next hn _ => ?_, hrest⟩
          obtain rfl : node = next := Option.some.inj hn
          exact ⟨hnode, hp (by simpa using hpending) node rfl⟩

/-- The two are not both definition lists. -/
def NotBothLists (first second : Node) : Prop :=
  ¬(first.isContainer .descriptionList = true ∧ second.isContainer .descriptionList = true)

theorem isChain_notBothLists_joinRuns (nodes : List Node) :
    (joinRuns [] nodes).IsChain NotBothLists := by
  have hany : nodes.IsChain (AfterList fun _ => True) :=
    (List.pairwise_of_forall fun _ _ _ => trivial).isChain
  refine (isChain_joinRuns_of_afterList hany fun _ _ _ => trivial).imp fun first next hafter hboth => ?_
  rw [(hafter hboth.1).1] at hboth
  cases hboth.2

theorem joinAdjacent_of_not_root {tree : Node} (h : ¬tree.isContainer .root = true) :
    tree.joinAdjacent = tree := by
  unfold Node.joinAdjacent
  split
  · exact absurd rfl h
  · rfl

theorem joinAdjacent_joinAdjacent (tree : Node) :
    tree.joinAdjacent.joinAdjacent = tree.joinAdjacent := by
  by_cases hroot : tree.isContainer .root = true
  · obtain ⟨hint, span, children, rfl⟩ := Node.eq_branch_of_isContainer hroot
    rw [Node.joinAdjacent, Node.joinAdjacent, joinRuns_joinRuns]
  · rw [joinAdjacent_of_not_root hroot, joinAdjacent_of_not_root hroot]

/-- Below a root each run of definition lists becomes one, without the runs that hold nothing, and
other nodes stay in order; another tree stays as it is. So no two definition lists are side by side below
a root then, the text is what it was, and to do it once more changes nothing. -/
theorem joinAdjacent_joins_runs (tree : Node) :
    (if tree.isContainer .root then
        tree.joinAdjacent.head? = tree.head? ∧
          tree.joinAdjacent.children = (tree.children.splitBy sameSort).flatMap joinedRun ∧
          tree.joinAdjacent.children.IsChain NotBothLists
      else tree.joinAdjacent = tree) ∧
      tree.joinAdjacent.plainText = tree.plainText ∧
      tree.joinAdjacent.joinAdjacent = tree.joinAdjacent := by
  refine ⟨?_, plainText_joinAdjacent tree, joinAdjacent_joinAdjacent tree⟩
  split
  · next hroot =>
      obtain ⟨hint, span, children, rfl⟩ := Node.eq_branch_of_isContainer hroot
      exact ⟨rfl, joinRuns_eq_flatMap children, isChain_notBothLists_joinRuns children⟩
  · next hroot => exact joinAdjacent_of_not_root hroot

end DefinitionLists
