/-
Module: DefinitionLists.Proofs.Neighbours.Orphans
Purpose: What becomes of the lists and paragraphs that come after definition lists: each definition list,
  at any depth, takes in the whole run of them as one more child, and nothing else changes. A tree in
  which no definition list has one of them right after it stays as it is.
Main exports: TakesRun, takesRun_absorbOrphanRun, TakesRuns, TakesRuns.deterministic, Settled,
  takesRuns_self_iff, isChain_absorbOrphans, absorbOrphans_takes_runs
-/
import Mathlib.Data.List.Chain
import DefinitionLists.Proofs.Seeds.Text
import DefinitionLists.Proofs.Visit.Course

namespace DefinitionLists

open Node (preorderList sizeList)

/-! ### One definition list -/

/-- A definition list has no orphan right after it. -/
def NoOrphanAfter (first next : Node) : Prop :=
  first.isContainer .descriptionList = true → isOrphan next = false

/-- What may happen at a place: a definition list takes in the run of lists and paragraphs that comes
after it, as one more child. The run goes as far as it can. If there is none, all stays as it is. -/
inductive TakesRun : List Node → List Node → Prop where
  | nothing {node : Node} {rest : List Node} (alone : ∀ next ∈ rest.head?, NoOrphanAfter node next) :
      TakesRun (node :: rest) (node :: rest)
  | run {hint : Option String} {span : Option Span} {parts run more : List Node} (some : run ≠ [])
      (orphans : ∀ node ∈ run, isOrphan node = true)
      (whole : ∀ next ∈ more.head?, isOrphan next = false) :
      TakesRun (.branch (.container .descriptionList hint span) parts :: (run ++ more))
        (.branch (.container .descriptionList hint span) (parts ++ [.descriptionDetails run]) :: more)

theorem isOrphan_of_mem_head?_dropWhile {nodes : List Node} :
    ∀ next ∈ (nodes.dropWhile isOrphan).head?, isOrphan next = false := by
  intro next hnext
  have hhead := List.head?_dropWhile_not isOrphan nodes
  rw [Option.mem_def.1 hnext] at hhead
  simpa using hhead

/-- What is done at a place is what may happen there. -/
theorem takesRun_absorbOrphanRun (node : Node) (rest : List Node) :
    TakesRun (node :: rest) (absorbOrphanRun (node :: rest)) := by
  unfold absorbOrphanRun
  split
  · next hint span parts after heq =>
      obtain ⟨rfl, rfl⟩ := List.cons.inj heq
      have hcut := List.takeWhile_append_dropWhile (p := isOrphan) (l := rest)
      split
      · next hrun =>
          rw [hrun, List.nil_append] at hcut
          refine .nothing fun next hnext _ => ?_
          rw [← hcut] at hnext
          exact isOrphan_of_mem_head?_dropWhile next hnext
      · next hrun =>
          have htakes := @TakesRun.run hint span parts _ _ hrun
            (List.all_eq_true.1 List.all_takeWhile) (@isOrphan_of_mem_head?_dropWhile rest)
          rwa [hcut] at htakes
  · next hother =>
      refine .nothing fun next _ hlist => ?_
      obtain ⟨hint, span, parts, rfl⟩ := Node.eq_branch_of_isContainer hlist
      exact absurd rfl (hother hint span parts rest)

/-! ### What there is to visit -/

/-- All that there is to visit among the nodes and below them. A definition list counts twice: it may get
another child to visit. -/
def runLoad (nodes : List Node) : Nat :=
  sizeList nodes + (preorderList nodes).countP (·.isContainer .descriptionList)

theorem runLoad_le (nodes : List Node) : runLoad nodes ≤ 2 * sizeList nodes := by
  have hcount := List.countP_le_length (p := fun node : Node => node.isContainer .descriptionList)
    (l := preorderList nodes)
  rw [Node.length_preorderList] at hcount
  rw [runLoad]
  omega

theorem runLoad_append (first second : List Node) :
    runLoad (first ++ second) = runLoad first + runLoad second := by
  simp only [runLoad, Node.sizeList_append, Node.preorderList_append, List.countP_append]
  omega

theorem runLoad_branch (head : Branch) (children : List Node) : runLoad [.branch head children] =
    1 + (if head.isContainer .descriptionList then 1 else 0) + runLoad children := by
  simp only [runLoad, sizeList, Node.size, preorderList, Node.preorder, List.countP_append,
    List.countP_cons, List.countP_nil, Node.isContainer]
  omega

theorem runLoad_cons (node : Node) (more : List Node) :
    runLoad (node :: more) = runLoad [node] + runLoad more := runLoad_append [node] more

/-- There is less to visit below a node than at it. -/
theorem runLoad_children_lt (node : Node) : runLoad node.children < runLoad [node] := by
  cases node with
  | leaf content => exact Nat.zero_lt_one
  | branch head children =>
      rw [runLoad_branch, Node.children]
      omega

/-- The details that a definition list gets weigh less than the definition list and the run. -/
theorem TakesRun.shrinks {here changed : List Node} (h : TakesRun here changed) :
    ∃ first after, changed = first :: after ∧ runLoad first.children < runLoad here ∧
      runLoad after < runLoad here := by
  cases h with
  | @nothing node rest =>
      have hchildren := runLoad_children_lt node
      refine ⟨node, rest, rfl, ?_⟩
      rw [runLoad_cons]
      omega
  | @run hint span parts run more =>
      have hlist : runLoad [.branch (.container .descriptionList hint span) parts] = 2 + runLoad parts :=
        runLoad_branch _ _
      have hdetails : runLoad [.descriptionDetails run] = 1 + runLoad run := runLoad_branch _ _
      refine ⟨_, more, rfl, ?_⟩
      rw [runLoad_cons, runLoad_append, Node.children, runLoad_append, hlist, hdetails]
      omega

/-- Taking in a run leaves less to visit, so that the visit ends. -/
theorem shrinks_absorbOrphanRun : Shrinks (fun place => absorbOrphanRun place.here) runLoad :=
  fun _ _ node rest => (takesRun_absorbOrphanRun node rest).shrinks

/-! ### All definition lists -/

/-- The second nodes are the first ones with each definition list, at any depth, holding the whole run of
lists and paragraphs that came after it, in new details that come last in it. It is the same inside of
the run. -/
inductive TakesRuns : List Node → List Node → Prop where
  | done : TakesRuns [] []
  | leaf {content : Leaf} {more results : List Node} (rest : TakesRuns more results) :
      TakesRuns (.leaf content :: more) (.leaf content :: results)
  | branch {head : Branch} {children inside more results : List Node}
      (alone : ∀ next ∈ more.head?, NoOrphanAfter (.branch head children) next)
      (inner : TakesRuns children inside) (rest : TakesRuns more results) :
      TakesRuns (.branch head children :: more) (.branch head inside :: results)
  | run {hint : Option String} {span : Option Span} {parts inside run held more results : List Node}
      (some : run ≠ []) (orphans : ∀ node ∈ run, isOrphan node = true)
      (whole : ∀ next ∈ more.head?, isOrphan next = false) (inner : TakesRuns parts inside)
      (within : TakesRuns run held) (rest : TakesRuns more results) :
      TakesRuns (.branch (.container .descriptionList hint span) parts :: (run ++ more))
        (.branch (.container .descriptionList hint span) (inside ++ [.descriptionDetails held]) ::
          results)

theorem isOrphan_branch_congr (head : Branch) (children children' : List Node) :
    isOrphan (.branch head children) = isOrphan (.branch head children') := by
  cases head <;> rfl

/-- Details at the end of the nodes stay there: runs are taken in before them and inside of them. -/
theorem TakesRuns.exists_of_concat {parts run results : List Node}
    (h : TakesRuns (parts ++ [.descriptionDetails run]) results) : ∃ inside held,
      results = inside ++ [.descriptionDetails held] ∧ TakesRuns parts inside ∧ TakesRuns run held := by
  generalize hnodes : parts ++ [.descriptionDetails run] = nodes at h
  induction h generalizing parts with
  | done => simp at hnodes
  | @leaf content more results rest ih =>
      cases parts with
      | nil => cases hnodes
      | cons part parts =>
          rw [List.cons_append] at hnodes
          obtain ⟨rfl, hmore⟩ := List.cons.inj hnodes
          obtain ⟨inside, held, rfl, hinside, hheld⟩ := ih hmore
          exact ⟨.leaf content :: inside, held, rfl, .leaf hinside, hheld⟩
  | @branch head children inner' more results alone inner rest _ ih =>
      cases parts with
      | nil =>
          cases hnodes
          cases rest
          exact ⟨[], inner', rfl, .done, inner⟩
      | cons part parts =>
          rw [List.cons_append] at hnodes
          obtain ⟨rfl, hmore⟩ := List.cons.inj hnodes
          obtain ⟨inside, held, rfl, hinside, hheld⟩ := ih hmore
          refine ⟨.branch head inner' :: inside, held, rfl, .branch ?_ inner hinside, hheld⟩
          intro next hnext
          exact alone next (hmore ▸ List.mem_head?_append_of_mem_head? hnext)
  | @run hint span parts' inside' run' held' more results some orphans whole inner within rest _ _ ih =>
      cases parts with
      | nil => cases hnodes
      | cons part parts =>
          rw [List.cons_append] at hnodes
          obtain ⟨rfl, hmore⟩ := List.cons.inj hnodes
          rcases List.eq_nil_or_concat' more with rfl | ⟨more, last, rfl⟩
          · -- details at the end are no part of a run
            rw [List.append_nil] at hmore
            have hlast := orphans (.descriptionDetails run) (by simp [← hmore])
            cases hlast
          · rw [← List.append_assoc] at hmore
            obtain ⟨rfl, hlast⟩ := List.append_inj' hmore rfl
            obtain ⟨inside, held, rfl, hinside, hheld⟩ := ih (congrArg (more ++ ·) hlast)
            refine ⟨_ :: inside, held, rfl, .run some orphans ?_ inner within hinside, hheld⟩
            intro next hnext
            exact whole next (List.mem_head?_append_of_mem_head? hnext)

/-- A definition list with no orphan right after it has no run after it. -/
theorem eq_nil_of_noOrphanAfter {hint : Option String} {span : Option Span} {parts run more : List Node}
    (h : ∀ next ∈ (run ++ more).head?,
      NoOrphanAfter (.branch (.container .descriptionList hint span) parts) next)
    (orphans : ∀ node ∈ run, isOrphan node = true) : run = [] := by
  cases run with
  | nil => rfl
  | cons first others =>
      have hfirst := h first rfl rfl
      rw [orphans first (List.mem_cons_self ..)] at hfirst
      cases hfirst

/-- A run that goes as far as it can is found again among the nodes. -/
theorem takeWhile_run {run more : List Node} (orphans : ∀ node ∈ run, isOrphan node = true)
    (whole : ∀ next ∈ more.head?, isOrphan next = false) :
    (run ++ more).takeWhile isOrphan = run := by
  rw [List.takeWhile_append_of_pos orphans]
  cases more with
  | nil => simp
  | cons next more => simp [whole next rfl]

/-- There is one way only to take in the runs among the same nodes. -/
theorem TakesRuns.deterministic {nodes results results' : List Node} (h : TakesRuns nodes results)
    (h' : TakesRuns nodes results') : results = results' := by
  induction h generalizing results' with
  | done =>
      cases h'
      rfl
  | leaf _ ih =>
      cases h' with
      | leaf rest => rw [ih rest]
  | @branch head children inside more results alone inner rest ihi ihr =>
      generalize hnodes : Node.branch head children :: more = nodes at h'
      cases h' with
      | done => cases hnodes
      | leaf => cases hnodes
      | branch _ inner' rest' =>
          cases hnodes
          rw [ihi inner', ihr rest']
      | run some orphans =>
          cases hnodes
          exact absurd (eq_nil_of_noOrphanAfter alone orphans) some
  | @run hint span parts inside run held more results some orphans whole inner within rest ihi ihw ihr =>
      generalize hnodes : Node.branch (.container .descriptionList hint span) parts :: (run ++ more) = nodes
        at h'
      cases h' with
      | done => cases hnodes
      | leaf => cases hnodes
      | branch alone =>
          cases hnodes
          exact absurd (eq_nil_of_noOrphanAfter alone orphans) some
      | @run hint' span' parts' inside' run' held' more' results' some' orphans' whole' inner' within'
          rest' =>
          obtain ⟨hlist, hafter⟩ := List.cons.inj hnodes
          -- both runs go as far as they can, so they are the same
          have hrun := congrArg (List.takeWhile isOrphan) hafter
          rw [takeWhile_run orphans whole, takeWhile_run orphans' whole'] at hrun
          obtain rfl := hrun
          obtain rfl := List.append_cancel_left hafter
          cases hlist
          rw [ihi inner', ihw within', ihr rest']

/-- A visit that takes in the run at each place has taken in all runs at its end. The new details are
visited too, so that what is inside of the run comes with the children of the definition list. -/
theorem Course.takesRuns {place : Place} {places : List Place} {result : List Node}
    (h : Course (fun place => absorbOrphanRun place.here) place places result) :
    TakesRuns place.here result := by
  induction h with
  | done => exact .done
  | @leaf parent before rest after result node content places step _ ih =>
      have htakes := takesRun_absorbOrphanRun node rest
      simp only at step
      rw [step] at htakes
      cases htakes with
      | nothing => exact .leaf ih
  | @branch parent head before rest children inside after result node below places step _ _ ihi ihl =>
      have htakes := takesRun_absorbOrphanRun node rest
      simp only at step
      rw [step] at htakes
      generalize hhere : node :: rest = here at htakes ⊢
      cases htakes with
      | nothing alone => exact .branch alone ihi ihl
      | run some orphans whole =>
          obtain ⟨inside, held, rfl, hinside, hheld⟩ := ihi.exists_of_concat
          exact .run some orphans whole hinside hheld ihl

/-- The visit takes in the runs at any depth, those inside of runs included. -/
theorem takesRuns_absorbOrphans (tree : Node) : TakesRuns [tree] [tree.absorbOrphans] := by
  cases tree with
  | leaf content => exact .leaf .done
  | branch head children =>
      exact .branch (by simp) (shrinks_absorbOrphanRun.course_edit runLoad_le head children).takesRuns
        .done

theorem takesRuns_iff {tree : Node} {results : List Node} :
    TakesRuns [tree] results ↔ results = [tree.absorbOrphans] :=
  ⟨fun h => h.deterministic (takesRuns_absorbOrphans tree), fun h => h ▸ takesRuns_absorbOrphans tree⟩

/-! ### No run is left -/

/-- No definition list among the nodes or below them has a list or a paragraph right after it. -/
structure Settled (nodes : List Node) : Prop where
  chain : nodes.IsChain NoOrphanAfter
  below : ∀ node ∈ preorderList nodes, node.children.IsChain NoOrphanAfter

theorem settled_nil : Settled [] := ⟨.nil, by simp [preorderList]⟩

theorem settled_leaf_cons {content : Leaf} {more : List Node} :
    Settled (.leaf content :: more) ↔ Settled more := by
  constructor
  · rintro ⟨hchain, hbelow⟩
    rw [preorderList, List.forall_mem_append] at hbelow
    exact ⟨(List.isChain_cons.1 hchain).2, hbelow.2⟩
  · rintro ⟨hchain, hbelow⟩
    refine ⟨List.isChain_cons.2 ⟨fun next _ hlist => (by cases hlist), hchain⟩, ?_⟩
    rw [preorderList, List.forall_mem_append]
    exact ⟨by simp [Node.preorder, Node.children], hbelow⟩

theorem settled_branch_cons {head : Branch} {children more : List Node} :
    Settled (.branch head children :: more) ↔
      (∀ next ∈ more.head?, NoOrphanAfter (.branch head children) next) ∧ Settled children ∧
        Settled more := by
  constructor
  · rintro ⟨hchain, hbelow⟩
    rw [preorderList, Node.preorder, List.forall_mem_append, List.forall_mem_cons] at hbelow
    obtain ⟨halone, hchain⟩ := List.isChain_cons.1 hchain
    exact ⟨halone, ⟨hbelow.1.1, hbelow.1.2⟩, ⟨hchain, hbelow.2⟩⟩
  · rintro ⟨halone, hchildren, hmore⟩
    refine ⟨List.isChain_cons.2 ⟨halone, hmore.chain⟩, ?_⟩
    rw [preorderList, Node.preorder, List.forall_mem_append, List.forall_mem_cons]
    exact ⟨⟨hchildren.chain, hchildren.below⟩, hmore.below⟩

/-- Details go after settled nodes. -/
theorem Settled.concat {parts run : List Node} (hparts : Settled parts) (hrun : Settled run) :
    Settled (parts ++ [.descriptionDetails run]) := by
  constructor
  · refine List.isChain_append.2 ⟨hparts.chain, .singleton _, fun last _ next hnext => ?_⟩
    obtain rfl : Node.descriptionDetails run = next := Option.some.inj hnext
    exact fun _ => rfl
  · rw [Node.preorderList_append, List.forall_mem_append]
    refine ⟨hparts.below, ?_⟩
    exact (settled_branch_cons.2 ⟨by simp, hrun, settled_nil⟩).below

theorem TakesRuns.map_isOrphan_head? {nodes results : List Node} (h : TakesRuns nodes results) :
    results.head?.map isOrphan = nodes.head?.map isOrphan := by
  cases h with
  | done => rfl
  | leaf => rfl
  | branch => exact congrArg some (isOrphan_branch_congr _ _ _)
  | run => rfl

/-- Where no orphan comes first, none does once runs are taken in. -/
theorem TakesRuns.not_isOrphan {nodes results : List Node} (h : TakesRuns nodes results)
    (hn : ∀ next ∈ nodes.head?, isOrphan next = false) :
    ∀ next ∈ results.head?, isOrphan next = false := by
  intro next hnext
  have hhead := h.map_isOrphan_head?
  rw [Option.mem_def.1 hnext, Option.map_some] at hhead
  obtain ⟨next', hnext', heq⟩ := Option.map_eq_some_iff.1 hhead.symm
  rw [← heq]
  exact hn next' hnext'

/-- Where all runs are taken in, none is left. -/
theorem TakesRuns.settled {nodes results : List Node} (h : TakesRuns nodes results) :
    Settled results := by
  induction h with
  | done => exact settled_nil
  | leaf _ ih => exact settled_leaf_cons.2 ih
  | branch alone _ rest ihi ihr =>
      refine settled_branch_cons.2 ⟨fun next hnext hlist => ?_, ihi, ihr⟩
      exact rest.not_isOrphan (fun next hnext => alone next hnext hlist) next hnext
  | run some orphans whole _ _ rest ihi ihw ihr =>
      exact settled_branch_cons.2 ⟨fun next hnext _ => rest.not_isOrphan whole next hnext,
        ihi.concat ihw, ihr⟩

/-- A settled forest has no run to take in. -/
theorem takesRuns_self : ∀ {nodes : List Node}, Settled nodes → TakesRuns nodes nodes
  | [], _ => .done
  | .leaf _ :: _, h => .leaf (takesRuns_self (settled_leaf_cons.1 h))
  | .branch _ _ :: _, h => by
      obtain ⟨halone, hchildren, hmore⟩ := settled_branch_cons.1 h
      exact .branch halone (takesRuns_self hchildren) (takesRuns_self hmore)

/-- There is nothing left to take in just where all is settled. -/
theorem takesRuns_self_iff {nodes : List Node} : TakesRuns nodes nodes ↔ Settled nodes :=
  ⟨TakesRuns.settled, takesRuns_self⟩

/-- The visit leaves no list or paragraph right after a definition list. -/
theorem settled_absorbOrphans (tree : Node) : Settled [tree.absorbOrphans] :=
  (takesRuns_absorbOrphans tree).settled

/-- A settled tree stays as it is. -/
theorem absorbOrphans_of_settled {tree : Node} (h : Settled [tree]) : tree.absorbOrphans = tree :=
  (List.singleton_inj.1 (takesRuns_iff.1 (takesRuns_self_iff.2 h))).symm

theorem Settled.isChain_of_mem {tree node : Node} (h : Settled [tree]) (hn : node ∈ tree.preorder) :
    node.children.IsChain NoOrphanAfter := by
  refine h.below node ?_
  rwa [preorderList, preorderList, List.append_nil]

/-- Below the top of a tree no definition list has an orphan right after it once orphans are taken
in. -/
theorem isChain_absorbOrphans (tree : Node) :
    tree.absorbOrphans.children.IsChain NoOrphanAfter :=
  (settled_absorbOrphans tree).isChain_of_mem (Node.mem_preorder_self _)

/-- Taking in orphans gives each definition list, at any depth, the whole run of lists and paragraphs
after it, in new details at its end, and changes nothing else. No definition list has a list or a
paragraph right after it then, the text is what it was, and to do it once more changes nothing. -/
theorem absorbOrphans_takes_runs (tree : Node) :
    (∀ results, TakesRuns [tree] results ↔ results = [tree.absorbOrphans]) ∧
      (∀ node ∈ tree.absorbOrphans.preorder, node.children.IsChain NoOrphanAfter) ∧
      tree.absorbOrphans.plainText = tree.plainText ∧
      tree.absorbOrphans.absorbOrphans = tree.absorbOrphans := by
  have hsettled := settled_absorbOrphans tree
  exact ⟨fun _ => takesRuns_iff, fun _ hnode => hsettled.isChain_of_mem hnode,
    plainText_absorbOrphans tree, absorbOrphans_of_settled hsettled⟩

end DefinitionLists
