/-
Module: DefinitionLists.Proofs.Seeds
Purpose: The items that cleaning drops as written twice, and when each of them is.
Main exports: Seed, Seed.IsRepeated, Node.cleanUpNoting, reachingCleanup, mem_cleanUpNoting_iff,
  seeds_repeated_iff
-/
import DefinitionLists.Proofs.InDetails
import DefinitionLists.Proofs.Outline.Stages

namespace DefinitionLists

open Node (noting)

/-- An item of a list with the fragments in its first text cut off. -/
def cutItem : Node → Node :=
  Node.mapFirstText (fun text => String.ofList (cutFragments text.toList))

/-- An item that cleaning drops as one written twice, and the items that come after it in its list. -/
structure Seed where
  item : Node
  later : List Node
deriving DecidableEq

/-- Whether the text of the item after it opens with its own. -/
def Seed.IsRepeated (seed : Seed) : Prop :=
  ∃ next, seed.later.head? = some next ∧ seed.item.plainText.toList <+: next.plainText.toList

/-- What `cleanList` drops of a node. -/
def seedOf (seeded : Bool) : Node → List Seed
  | .branch (.list _ _ _ _) items =>
    match items.map cutItem with
    | item :: later => if seeded then [⟨item, later⟩] else []
    | [] => []
  | _ => []

/-- Cleans the tree, and notes each item that goes as a repeated one. -/
def Node.cleanUpNoting (seeded : Bool) (tree : Node) : Node × List Seed :=
  let (cleaned, seeds) := tree.visit (noting (inDetails fun opens => cleanList (seeded && opens))
    (notedInDetails fun opens => seedOf (seeded && opens))) []
  ((removeEmptyItems cleaned).1, seeds)

theorem Node.cleanUp_eq (seeded : Bool) (tree : Node) : tree.cleanUp seeded =
    (removeEmptyItems (tree.edit (inDetails fun opens => cleanList (seeded && opens)))).1 :=
  rfl

/-- The notes change nothing about the cleaning. -/
theorem Node.cleanUpNoting_fst (seeded : Bool) (tree : Node) :
    (tree.cleanUpNoting seeded).1 = tree.cleanUp seeded := by
  rw [cleanUp_eq, edit_eq_visit_noting _ (notedInDetails fun opens => seedOf (seeded && opens))]
  rfl

/-! ### Which items go -/

theorem cleanList_list (seeded ordered spread : Bool) (start : Option UInt64)
    (hint : Option String) (items : List Node) :
    cleanList seeded (.branch (.list ordered start spread hint) items) =
      .branch (.list ordered start spread hint)
        (if seeded then (items.map cutItem).drop 1 else items.map cutItem) :=
  rfl

theorem isList_cleanList (seeded : Bool) (node : Node) :
    (cleanList seeded node).isList = node.isList := by
  unfold cleanList
  split
  · rfl
  · rfl

theorem mem_seedOf {seeded : Bool} {node : Node} {seed : Seed} : seed ∈ seedOf seeded node ↔
    seeded = true ∧ node.isList = true ∧ node.children.map cutItem = seed.item :: seed.later := by
  obtain ⟨item, later⟩ := seed
  cases node with
  | leaf content => simp [seedOf, Node.isList]
  | branch head children =>
      cases head with
      | list ordered start spread hint =>
          cases h : children.map cutItem <;> cases seeded <;>
            simp [seedOf, Node.isList, Node.children, h, eq_comm]
      | _ => simp [seedOf, Node.isList]

/-- What cleaning makes of an outlined document, before empty items go, and the items it drops. -/
theorem Node.cleanUpNoting_root {hint : Option String} {span : Option Span} {blocks : List Node}
    (h : ∀ block ∈ blocks, IsBlock block) (seeded : Bool) :
    Node.cleanUpNoting seeded (.branch (.container .root hint span) blocks) =
      ((removeEmptyItems (.branch (.container .root hint span)
          (blocks.map (rewriteBlock fun opens => cleanList (seeded && opens))))).1,
        blocks.flatMap (notedInBlock fun opens => seedOf (seeded && opens))) := by
  unfold cleanUpNoting
  rw [visit_root _ _ (fun _ node => isList_cleanList _ node)
    (fun _ _ hnode => isProse_cleanList hnode) h]

/-- In a document that was rewritten, each list loses its first item that stands in details which
open with a list, be it the list that opens them or a later one. -/
theorem mem_cleanUpNoting_iff {tree : Node} (h : tree.Outlined) {seeded : Bool} {seed : Seed} :
    seed ∈ (tree.cleanUpNoting seeded).2 ↔ seeded = true ∧
      ∃ details ∈ tree.preorder, details.isContainer .descriptionDetails = true ∧
        opensWithList details.children = true ∧
        ∃ list ∈ details.children, list.isList = true ∧
          list.children.map cutItem = seed.item :: seed.later := by
  obtain ⟨hint, span, blocks, rfl, hblocks⟩ := outlined_iff_fits.1 h
  simp only [Node.cleanUpNoting_root hblocks, List.mem_flatMap, notedInBlock]
  constructor
  · rintro ⟨block, hblock, hm⟩
    split at hm
    · next hlist =>
        obtain ⟨part, hpart, hm⟩ := List.mem_flatMap.1 hm
        unfold notedInPart at hm
        split at hm
        · next hdetails =>
            obtain ⟨list, hl, hm⟩ := List.mem_flatMap.1 hm
            rw [mem_seedOf, Bool.and_eq_true] at hm
            obtain ⟨⟨hseeded, hopens⟩, hseed⟩ := hm
            have hin := (h.mem_preorder_details hdetails).2 ⟨block, hblock, hlist, hpart⟩
            exact ⟨hseeded, part, hin, hdetails, hopens, list, hl, hseed⟩
        · cases hm
    · cases hm
  · rintro ⟨hseeded, details, hin, hdetails, hopens, list, hl, hseed⟩
    obtain ⟨block, hblock, hlist, hpart⟩ := (h.mem_preorder_details hdetails).1 hin
    refine ⟨block, hblock, ?_⟩
    rw [if_pos hlist, List.mem_flatMap]
    refine ⟨details, hpart, ?_⟩
    rw [notedInPart, if_pos hdetails, List.mem_flatMap]
    exact ⟨list, hl, mem_seedOf.2 ⟨by simp [hseeded, hopens], hseed⟩⟩

/-! ### The document that reaches cleaning -/

/-- The document that the stages before cleaning make of a Markdown text. -/
def reachingCleanup (variant : Variant) (extended : Bool) (source : List Char) :
    Except SpanFault Work :=
  runStages extended ⟨Node.ofMarkdown extended source, source, false⟩
    (variant.stages.takeWhile (· ≠ .cleanup))

/-- All that the stages after cleaning do to a document. -/
def afterCleanup (variant : Variant) (tree : Node) : Node :=
  match variant with
  | .basic => tree.joinAdjacent
  | .advanced => tree.absorbOrphans.joinAdjacent

/-- A text becomes what cleaning makes of the document that reaches it, with what comes after that. -/
theorem Converter.process_eq_map (variant : Variant) (extended : Bool) (source : List Char) :
    Converter.process ⟨extended, variant.stages⟩ source =
      (reachingCleanup variant extended source).map
        (fun work => afterCleanup variant (work.tree.cleanUp work.prenormalized)) := by
  have hprocess : process ⟨extended, variant.stages⟩ source =
      (runStages extended ⟨Node.ofMarkdown extended source, source, false⟩
        (variant.stages.takeWhile (· ≠ .cleanup) ++ variant.stages.dropWhile (· ≠ .cleanup))).map
          Work.tree := by
    rw [List.takeWhile_append_dropWhile]
    rfl
  rw [hprocess, runStages_append]
  unfold reachingCleanup
  cases runStages extended ⟨Node.ofMarkdown extended source, source, false⟩
      (variant.stages.takeWhile (· ≠ .cleanup)) with
  | error fault => rfl
  | ok work => cases variant <;> rfl

theorem outlined_of_reachingCleanup {variant : Variant} {extended : Bool} {source : List Char}
    {work : Work} (h : reachingCleanup variant extended source = .ok work) : work.tree.Outlined :=
  outlined_of_runStages (Node.outlined_ofMarkdown _ _) h

/-- The stages that make definition lists stop at a faulty position, and change nothing but the tree
otherwise. -/
theorem runStages_forming (extended : Bool) (work : Work) :
    runStages extended work [.builder, .detailMerger, .siblingList, .listKind] =
      match work.tree.formDefinitions extended work.source with
      | (tree, none) =>
        .ok { work with tree := tree.gatherDetails.absorbSiblingLists.resolveKinds }
      | (_, some fault) => .error fault := by
  rcases h : work.tree.formDefinitions extended work.source with ⟨tree, _ | fault⟩
  · simp [runStages, Stage.apply, Work.onTree, h]
  · simp [runStages, Stage.apply, h]

/-- Both variants make definition lists by the same stages: the advanced one of the rewritten text,
the basic one of the text itself. -/
theorem reachingCleanup_basic (extended : Bool) (source : List Char) :
    reachingCleanup .basic extended source =
      runStages extended ⟨Node.ofMarkdown extended source, source, false⟩
        [.builder, .detailMerger, .siblingList, .listKind] :=
  rfl

/-- A text that is not empty is rewritten before anything else. -/
theorem reachingCleanup_advanced (extended : Bool) {source : List Char} (h : source ≠ []) :
    reachingCleanup .advanced extended source =
      runStages extended ⟨Node.ofMarkdown extended (prenormalize source), prenormalize source, true⟩
        [.builder, .detailMerger, .siblingList, .listKind] := by
  have hstages : Variant.advanced.stages.takeWhile (· ≠ .cleanup) =
      [.prenormalizer, .builder, .detailMerger, .siblingList, .listKind] := rfl
  have hempty : ¬ source.isEmpty = true := by simpa using h
  unfold reachingCleanup
  rw [hstages, runStages, prenormalizer_apply_ofMarkdown, if_neg hempty]

theorem prenormalized_of_forming {extended : Bool} {work done : Work}
    (h : runStages extended work [.builder, .detailMerger, .siblingList, .listKind] = .ok done) :
    done.prenormalized = work.prenormalized := by
  rw [runStages_forming] at h
  split at h
  · cases h
    rfl
  · cases h

theorem prenormalized_of_advanced {extended : Bool} {source : List Char} {work : Work}
    (hs : source ≠ []) (h : reachingCleanup .advanced extended source = .ok work) :
    work.prenormalized = true := by
  rw [reachingCleanup_advanced extended hs] at h
  exact prenormalized_of_forming h

/-- An empty text has no definitions. -/
theorem reachingCleanup_nil (extended : Bool) : reachingCleanup .advanced extended [] =
    .ok ⟨.branch (.container .root none (some ⟨0, 0⟩)) [], [], false⟩ := by
  cases extended <;> rfl

/-! ### When the dropped items are repeated -/

/-- Whether each list that stands in details which open with a list has a second item, whose text
opens with that of the first. -/
def Node.RepeatsFirstItems (tree : Node) : Prop :=
  ∀ details ∈ tree.preorder, details.isContainer .descriptionDetails = true →
    opensWithList details.children = true →
      ∀ list ∈ details.children, list.isList = true →
        ∀ item later, list.children.map cutItem = item :: later → Seed.IsRepeated ⟨item, later⟩

/-- What cleaning drops from the document of a text is all repeated exactly if the lists repeat their
first items. Cleaning itself does not look at that: it takes an item from each list in details that
open with one, also where the rewriting of lines repeated none. -/
theorem seeds_repeated_iff {extended : Bool} {source : List Char} {work : Work}
    (h : reachingCleanup .advanced extended source = .ok work) :
    Converter.process ⟨extended, Variant.advanced.stages⟩ source =
        .ok (afterCleanup .advanced (work.tree.cleanUpNoting work.prenormalized).1) ∧
      ((∀ seed ∈ (work.tree.cleanUpNoting work.prenormalized).2, seed.IsRepeated) ↔
        work.tree.RepeatsFirstItems) := by
  have houtlined := outlined_of_reachingCleanup h
  constructor
  · rw [Converter.process_eq_map, h, Node.cleanUpNoting_fst]
    rfl
  · constructor
    · intro hall details hdetails hcontainer hopens list hlist hislist item later hitems
      have hsource : source ≠ [] := by
        rintro rfl
        rw [reachingCleanup_nil] at h
        cases h
        rw [List.mem_singleton.1 hdetails] at hcontainer
        cases hcontainer
      refine hall ⟨item, later⟩ ((mem_cleanUpNoting_iff houtlined).2 ?_)
      exact ⟨prenormalized_of_advanced hsource h, details, hdetails, hcontainer, hopens, list, hlist,
        hislist, hitems⟩
    · intro hlists seed hseed
      obtain ⟨-, details, hdetails, hcontainer, hopens, list, hlist, hislist, hitems⟩ :=
        (mem_cleanUpNoting_iff houtlined).1 hseed
      exact hlists details hdetails hcontainer hopens list hlist hislist seed.item seed.later hitems

theorem repeatsFirstItems_of_marked_line :
    ∃ work, reachingCleanup .advanced true "T\n: - a\n".toList = .ok work ∧
      work.tree.RepeatsFirstItems := by
  have hseeds : (reachingCleanup .advanced true "T\n: - a\n".toList).map
      (fun work => (work.tree.cleanUpNoting work.prenormalized).2) =
        .ok [⟨.itemOfText "a", [.itemOfText "a"]⟩] := by
    decide +kernel
  obtain ⟨work, hwork, hseeds⟩ := exists_ok_of_map_eq_ok hseeds
  refine ⟨work, hwork, (seeds_repeated_iff hwork).2.1 fun seed hseed => ?_⟩
  rw [hseeds, List.mem_singleton] at hseed
  subst hseed
  exact ⟨_, rfl, List.prefix_rfl⟩

/-- The only item of a list goes where the rewriting of lines does not know its marker. -/
theorem not_forall_seeds_repeated : ¬ ∀ (extended : Bool) (source : List Char) (work : Work),
    reachingCleanup .advanced extended source = .ok work →
      ∀ seed ∈ (work.tree.cleanUpNoting work.prenormalized).2, seed.IsRepeated := by
  intro hall
  have hseeds : (reachingCleanup .advanced true "T\n: 1) a\n".toList).map
      (fun work => (work.tree.cleanUpNoting work.prenormalized).2) =
        .ok [⟨.itemOfText "a", []⟩] := by
    decide +kernel
  obtain ⟨work, hwork, hseeds⟩ := exists_ok_of_map_eq_ok hseeds
  obtain ⟨next, hnext, -⟩ := hall true _ work hwork ⟨.itemOfText "a", []⟩ (by simp [hseeds])
  cases hnext

end DefinitionLists
