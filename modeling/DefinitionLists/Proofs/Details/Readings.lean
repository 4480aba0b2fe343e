/-
Module: DefinitionLists.Proofs.Details.Readings
Purpose: Details that are made of Markdown text hold what texts read as, which is blocks: no items, and
  nothing that stands within a line. So gathering finds nothing to gather, and leaving it out changes
  no conversion.
Main exports: Node.not_isInline_of_mem_ofMarkdown, Node.HoldsReadings, Node.holdsReadings_formDefinitions,
  process_without_detailMerger
-/
import DefinitionLists.Proofs.Details.Gathering
import DefinitionLists.Proofs.Markdown.ItemsInLists
import DefinitionLists.Proofs.Positions

namespace DefinitionLists

open Markdown

namespace Node

/-! ### What a text reads as -/

/-- The names of the blocks that stand in no list as its items. -/
def blockTags : List String :=
  ["paragraph", "heading", "blockquote", "list", "code", "html", "thematicBreak"]

/-- Of Markdown text the names tell blocks from what stands within a line. -/
theorem isInline_of_tag_mem {node : Node} (hm : node.isMarkdown = true) (ht : node.tag ∈ blockTags) :
    node.isInline = false := by
  cases node with
  | leaf content => cases content <;> first | rfl | simp [tag, Leaf.tag, blockTags] at ht
  | branch head children =>
      cases head with
      | container kind => cases kind <;> first | rfl | simp [tag, Branch.tag, Container.tag, blockTags] at ht
      | heading | list | listItem => rfl
      | link => simp [tag, Branch.tag, blockTags] at ht
      | other name value hint =>
          have hname : name ∈ unknownTags := by
            simpa [isMarkdown, Branch.isMarkdown] using ((allHeads_branch _ _).1 hm).1
          have hapart : ∀ name ∈ unknownTags, name ∉ blockTags := by decide
          exact absurd ht (hapart name hname)

/-- Right below the root of a text stand blocks, and no items. -/
theorem not_isInline_of_mem_ofMarkdown {extended : Bool} {text : List Char} {node : Node}
    (h : node ∈ (ofMarkdown extended text).children) :
    node.isInline = false ∧ node.isListItem = false := by
  obtain ⟨blocks, heq, hheads⟩ := ofMarkdown_heads extended text
  have hmarkdown : node.isMarkdown = true := by
    rw [heq] at h
    exact allHeadsIn_iff.1 hheads node h
  have htag : node.tag ∈ blockTags := by
    rw [ofMarkdown_eq_branch] at h
    obtain ⟨block, hblock, rfl⟩ := List.mem_map.1 h
    rw [Block.tag_node]
    cases block with
    | item task blocks => exact absurd hblock (item_not_mem_ofText extended text task blocks)
    | _ => simp [Block.tag, blockTags]
  refine ⟨isInline_of_tag_mem hmarkdown htag, Bool.eq_false_iff.2 fun hitem => ?_⟩
  obtain ⟨spread, checked, hint, children, rfl⟩ := eq_item_of_isListItem hitem
  simp [tag, Branch.tag, blockTags] at htag

/-! ### What details hold -/

/-- Whether all details in the tree hold what a text reads as. -/
def HoldsReadings (extended : Bool) (tree : Node) : Prop :=
  ∀ details ∈ tree.preorder, details.isContainer .descriptionDetails = true →
    ∃ text, details.children = (ofMarkdown extended text).children

theorem holdsReadings_branch {extended : Bool} {head : Branch} {children : List Node} :
    (branch head children).HoldsReadings extended ↔
      (head.isContainer .descriptionDetails = true →
        ∃ text, children = (ofMarkdown extended text).children) ∧
      ∀ child ∈ children, child.HoldsReadings extended :=
  forall_mem_preorder_branch

theorem holdsReadings_of_not_details {extended : Bool} {head : Branch} {children : List Node}
    (hd : head.isContainer .descriptionDetails = false)
    (h : ∀ child ∈ children, child.HoldsReadings extended) :
    (branch head children).HoldsReadings extended := by
  refine holdsReadings_branch.2 ⟨fun hdetails => ?_, h⟩
  rw [hd] at hdetails
  cases hdetails

/-- There are no details in prose. -/
theorem holdsReadings_of_isProse {node : Node} (h : node.isProse = true) (extended : Bool) :
    node.HoldsReadings extended := by
  intro details hmem hdetails
  rw [isContainer_of_isProse (allHeads_of_mem_preorder h details hmem) rfl] at hdetails
  cases hdetails

/-- Terms have no details in them. -/
theorem holdsReadings_of_allProse {nodes : List Node} (h : allProse nodes = true) (extended : Bool) :
    ∀ node ∈ nodes, node.HoldsReadings extended :=
  fun node hn => holdsReadings_of_isProse (allProse_iff.1 h node hn) extended

theorem holdsReadings_of_mem_detailsNodes {extended : Bool} {texts : List (List Char)} {node : Node}
    (h : node ∈ detailsNodes extended texts) : node.HoldsReadings extended := by
  obtain ⟨text, -, rfl⟩ := List.mem_map.1 h
  exact holdsReadings_branch.2 ⟨fun _ => ⟨text, rfl⟩,
    holdsReadings_of_allProse (allProse_ofMarkdown extended text) extended⟩

/-- The nodes of an entry are its term and what its details read as. -/
theorem holdsReadings_of_mem_entryNodes {extended : Bool} {entry : Entry} {node : Node}
    (h : node ∈ entry.nodes extended) : node.HoldsReadings extended := by
  rcases List.mem_cons.1 h with rfl | h
  · exact holdsReadings_of_not_details rfl (holdsReadings_of_allProse (allProse_termInlines _ _) _)
  · exact holdsReadings_of_mem_detailsNodes h

/-- The entries of a paragraph become terms and readings, whatever they go on with. -/
theorem holdsReadings_takeParagraph {extended : Bool} {state : Formation} {paragraph : Node}
    {texts : List (List Char)} (hm : ∀ node ∈ state.made, node.HoldsReadings extended)
    (hp : paragraph.HoldsReadings extended) :
    ∀ node ∈ (state.takeParagraph extended paragraph texts).made, node.HoldsReadings extended := by
  have hentries (entries : List Entry) :
      ∀ node ∈ entries.flatMap (Entry.nodes extended), node.HoldsReadings extended := by
    intro node hn
    obtain ⟨entry, -, hn⟩ := List.mem_flatMap.1 hn
    exact holdsReadings_of_mem_entryNodes hn
  have hdetails (first : Entry) (more : List Entry) :
      ∀ node ∈ detailsNodes extended first.details ++ more.flatMap (Entry.nodes extended),
        node.HoldsReadings extended :=
    List.forall_mem_append.2 ⟨fun node hn => holdsReadings_of_mem_detailsNodes hn, hentries more⟩
  generalize hnext : state.takeParagraph extended paragraph texts = next
  rcases Formation.made_of_takeParagraph hnext with hstays | ⟨first, more, -, hcases⟩
  · rw [hstays]
    exact List.forall_mem_cons.2 ⟨hp, hm⟩
  · -- a new definition list, one that goes on, or one whose term was already waiting
    rcases hcases with hmade | ⟨hint, span, children, made, hbefore, hmade⟩ |
      ⟨hint, span, term, made, hbefore, hmade⟩
    · rw [hmade]
      exact List.forall_mem_cons.2 ⟨holdsReadings_of_not_details rfl (hentries (first :: more)), hm⟩
    · rw [hbefore, List.forall_mem_cons, holdsReadings_branch] at hm
      rw [hmade]
      refine List.forall_mem_cons.2 ⟨holdsReadings_of_not_details rfl ?_, hm.2⟩
      exact List.forall_mem_append.2 ⟨hm.1.2, hdetails first more⟩
    · rw [hbefore, List.forall_mem_cons, holdsReadings_branch] at hm
      rw [hmade]
      refine List.forall_mem_cons.2 ⟨holdsReadings_of_not_details rfl ?_, hm.2⟩
      exact List.forall_mem_cons.2 ⟨holdsReadings_of_not_details rfl hm.1.2, hdetails first more⟩

/-- What the details of a tree hold after its definition lists are formed is what texts read as, if it is
so before. -/
theorem holdsReadings_formDefinitions {extended : Bool} {tree : Node}
    (h : tree.HoldsReadings extended) (source : List Char) :
    (tree.formDefinitions extended source).1.HoldsReadings extended := by
  unfold formDefinitions
  split
  · next hint span children =>
      obtain ⟨hroot, hchildren⟩ := holdsReadings_branch.1 h
      simp only
      split
      · next state hstate =>
          refine holdsReadings_of_not_details rfl fun child hc => ?_
          exact Formation.forall_mem_made_of_foldlM
            (fun state hint span children texts hm hp => holdsReadings_takeParagraph hm hp)
            (by simp) hchildren hstate child (List.mem_reverse.1 hc)
      · exact holdsReadings_of_not_details rfl (by simp)
  · exact h

theorem holdsReadings_ofMarkdown (extended : Bool) (text : List Char) :
    (ofMarkdown extended text).HoldsReadings extended := by
  obtain ⟨blocks, heq, hprose⟩ := ofMarkdown_root extended text
  rw [heq]
  exact holdsReadings_of_not_details rfl (holdsReadings_of_allProse hprose extended)

/-- A child of details that is a block and no item stands for no items. -/
theorem HoldsReadings.isGathered {extended : Bool} {tree : Node} (h : tree.HoldsReadings extended) :
    tree.IsGathered := by
  intro details hmem hdetails child hchild
  obtain ⟨text, heq⟩ := h details hmem hdetails
  rw [heq] at hchild
  obtain ⟨hblock, hitem⟩ := not_isInline_of_mem_ofMarkdown hchild
  unfold isLoose
  split
  · cases hitem
  · cases hblock
  · rfl

end Node

/-! ### Without gathering -/

/-- Once gathered, a document goes through the stages after the builder as if none of them gathered. -/
theorem runStages_of_isGathered {extended : Bool} {work : Work} (h : work.tree.IsGathered)
    (keeps : Stage → Bool) : runStages extended work (Stage.late.filter keeps) =
      runStages extended work ((Stage.late.erase .detailMerger).filter keeps) := by
  have hlate : Stage.late = .detailMerger :: Stage.late.erase .detailMerger := rfl
  have happly : Stage.detailMerger.apply extended work = (work, none) := by
    rw [Stage.apply, Work.onTree, Node.gatherDetails_of_isGathered h]
  rw [hlate]
  by_cases hkeeps : keeps .detailMerger = true
  · rw [List.filter_cons_of_pos hkeeps, runStages, happly]
    rfl
  · rw [List.filter_cons_of_neg hkeeps]
    rfl

/-- Settings that choose the same stages, gathering apart, make the same of each text. -/
theorem Converter.process_of_chooses {settings settings' : Settings} (hg : settings'.gfm = settings.gfm)
    (hc : ∀ stage, stage ≠ .detailMerger → settings'.chooses stage = settings.chooses stage)
    (source : List Char) :
    Converter.process ⟨settings'.gfm, Stage.all.filter settings'.chooses⟩ source =
      Converter.process ⟨settings.gfm, Stage.all.filter settings.chooses⟩ source := by
  have hearly : settings'.early = settings.early :=
    List.filter_congr fun stage hs => hc stage (by rintro rfl; simp at hs)
  have hlate : (Stage.late.erase .detailMerger).filter settings'.chooses =
      (Stage.late.erase .detailMerger).filter settings.chooses :=
    List.filter_congr fun stage hs => hc stage (by rintro rfl; revert hs; decide)
  -- up to the builder the stages are the same, and the tree there is what the text reads as
  obtain ⟨work, hwork, -, -, htree⟩ := exists_ok_of_early settings source
  have hgathered : (Stage.builder.apply settings.gfm work).1.tree.IsGathered := by
    have hreadings := Node.holdsReadings_ofMarkdown settings.gfm work.source
    rw [← htree] at hreadings
    exact (Node.holdsReadings_formDefinitions hreadings work.source).isGathered
  have hbuilder : Stage.builder.apply settings.gfm work =
      ((Stage.builder.apply settings.gfm work).1, none) :=
    Prod.ext rfl (fault_builder_of_ofMarkdown htree)
  simp only [Converter.process, Converter.transform, Settings.filter_chooses, runStages_append, hg, hearly,
    hwork, Except.bind]
  rw [runStages, runStages, hbuilder]
  simp only
  -- gathering does nothing after the builder, so that it may be left out of both runs
  rw [runStages_of_isGathered hgathered, hlate, ← runStages_of_isGathered hgathered]

namespace Settings

/-- The names of disabled stages, normalized, apart from that of gathering. -/
def otherKeys (settings : Settings) : List String :=
  (settings.disabled.map normalizeKey).filter (· ≠ Stage.detailMerger.name)

/-- The name of gathering is never unknown, so it does not decide which name is. -/
theorem find?_otherKeys (settings : Settings) :
    settings.otherKeys.find? (fun key => !(Stage.optional.any (·.name == key))) =
      (settings.disabled.map normalizeKey).find? (fun key => !(Stage.optional.any (·.name == key))) := by
  have hknown : (!(Stage.optional.any (·.name == Stage.detailMerger.name))) = false := by decide
  rw [otherKeys, List.find?_filter]
  congr 1
  funext key
  rw [Bool.eq_iff_iff, decide_eq_true_iff, decide_eq_true_iff, and_iff_right_iff_imp]
  rintro hunknown rfl
  rw [hknown] at hunknown
  cases hunknown

/-- Whether another stage is disabled can be told without the name of gathering. -/
theorem contains_otherKeys (settings : Settings) {stage : Stage} (h : stage ≠ .detailMerger) :
    settings.otherKeys.contains stage.name =
      (settings.disabled.map normalizeKey).contains stage.name := by
  have hname : stage.name ≠ Stage.detailMerger.name := by
    cases stage <;> first | exact absurd rfl h | decide
  rw [Bool.eq_iff_iff, List.contains_iff_mem, List.contains_iff_mem, otherKeys, List.mem_filter]
  exact and_iff_left (decide_eq_true hname)

/-- A text is converted alike by settings that differ in nothing but whether they gather. -/
theorem process_of_otherKeys {settings settings' : Settings}
    (hv : settings'.variant = settings.variant) (hg : settings'.gfm = settings.gfm)
    (hk : settings'.otherKeys = settings.otherKeys) (source : List Char) :
    process settings' source = process settings source := by
  have hchooses (stage : Stage) (h : stage ≠ .detailMerger) :
      settings'.chooses stage = settings.chooses stage := by
    rw [chooses, chooses, hv, ← contains_otherKeys settings' h, hk, contains_otherKeys settings h]
  -- an unknown name is found among the other names, so that both fail or neither does
  have hunknown := settings'.find?_otherKeys
  rw [hk, find?_otherKeys] at hunknown
  cases hstages : settings.stages with
  | error fault =>
      have hstages' : settings'.stages = .error fault := by
        rw [stages_eq] at hstages ⊢
        simp only [← hunknown] at hstages ⊢
        split at hstages
        · exact hstages
        · cases hstages
      rw [process, process, converter, converter, hstages, hstages']
      rfl
  | ok chosen =>
      obtain ⟨chosen', hstages'⟩ : ∃ chosen', settings'.stages = .ok chosen' := by
        rw [stages_eq] at hstages ⊢
        simp only [← hunknown] at hstages ⊢
        split at hstages
        · cases hstages
        · exact ⟨_, rfl⟩
      have hprocess := Converter.process_of_chooses hg hchooses source
      rw [← stages_eq_filter hstages, ← stages_eq_filter hstages'] at hprocess
      rw [process, process, converter, converter, hstages, hstages']
      simp only [Except.map, hprocess]

end Settings

/-- Whether gathering is disabled makes no difference to any text: all details that the builder makes of
Markdown text hold blocks, none of them an item, where gathering finds nothing. -/
theorem process_without_detailMerger (settings : Settings) (source : List Char) :
    process (settings.disable Stage.detailMerger.name) source = process settings source ∧
      process { settings with disabled :=
        settings.disabled.filter (fun name => normalizeKey name ≠ Stage.detailMerger.name) } source =
          process settings source ∧
      ∀ (extended : Bool) (text : List Char),
        ∀ details ∈ ((Node.ofMarkdown extended text).formDefinitions extended text).1.preorder,
          details.isContainer .descriptionDetails = true →
            ∀ child ∈ details.children, child.isInline = false ∧ child.isListItem = false := by
  have hkey : normalizeKey Stage.detailMerger.name = Stage.detailMerger.name := by decide +kernel
  refine ⟨?_, ?_, fun extended text details hmem hdetails child hchild => ?_⟩
  · unfold Settings.disable
    simp only [hkey]
    split
    · rfl
    · apply Settings.process_of_otherKeys
      · rfl
      · rfl
      · simp [Settings.otherKeys, hkey]
  · apply Settings.process_of_otherKeys
    · rfl
    · rfl
    · simp [Settings.otherKeys, List.filter_map, Function.comp_def]
  · have hreadings := Node.holdsReadings_ofMarkdown extended text
    -- the children of details are blocks of a document
    obtain ⟨body, heq⟩ := Node.holdsReadings_formDefinitions hreadings text details hmem hdetails
    rw [heq] at hchild
    exact Node.not_isInline_of_mem_ofMarkdown hchild

end DefinitionLists
