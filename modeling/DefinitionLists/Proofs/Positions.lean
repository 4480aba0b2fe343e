/-
Module: DefinitionLists.Proofs.Positions
Purpose: The positions that the builder reads are those of the text that it reads them in, so that
  Markdown text is always converted.
Main exports: Node.StandsIn, Node.fault_formDefinitions, Settings.NamesKnown, exists_ok_of_early,
  exists_ok_of_stages, process_eq_ok
-/
import DefinitionLists.Proofs.Faults
import DefinitionLists.Proofs.Markdown.Nodes
import DefinitionLists.Proofs.Markdown.Positions

namespace DefinitionLists

/-- Whether a node is a paragraph with a position that lies in a text and splits no character. -/
def Node.StandsIn (source : List Char) (node : Node) : Prop :=
  ∃ span children piece, node = .branch (.container .paragraph none (some span)) children ∧
    span.read? source = some piece

/-! ### Forming definition lists -/

/-- Definition lists are formed without a fault if the paragraphs of the root stand in the text. -/
theorem Node.fault_formDefinitions {source : List Char} {tree : Node}
    (h : ∀ child ∈ tree.children, child.isContainer .paragraph = true → child.StandsIn source)
    (extended : Bool) : (tree.formDefinitions extended source).2 = none := by
  refine (fault_formDefinitions_eq_none_iff extended).2 fun _ child hmem span hspan => ?_
  obtain ⟨span', children, piece, rfl, hpiece⟩ := h child hmem (isContainer_of_paragraphSpan hspan)
  obtain rfl : span' = span := Option.some.inj hspan
  exact Span.fits_of_read hpiece

/-! ### Stages -/

/-- No stage but the builder stops a run. -/
theorem exists_ok_of_runStages {extended : Bool} {stages : List Stage}
    (h : ∀ stage ∈ stages, stage ≠ .builder) (work : Work) :
    ∃ done, runStages extended work stages = .ok done := by
  induction stages generalizing work with
  | nil => exact ⟨work, rfl⟩
  | cons stage more ih =>
      obtain ⟨done, hdone⟩ :=
        ih (fun other ho => h other (by simp [ho])) (stage.apply extended work).1
      refine ⟨done, ?_⟩
      cases stage with
      | builder => exact absurd rfl (h .builder (by simp))
      | _ => exact hdone

/-- Whether each name of a stage to disable is that of a stage that may be disabled. -/
def Settings.NamesKnown (settings : Settings) : Prop :=
  ∀ name ∈ settings.disabled, ∃ stage ∈ Stage.optional, stage.name = normalizeKey name

instance (settings : Settings) : Decidable settings.NamesKnown :=
  inferInstanceAs (Decidable (∀ name ∈ settings.disabled, _))

theorem Settings.NamesKnown.stages_eq {settings : Settings} (h : settings.NamesKnown) :
    settings.stages = .ok (Stage.all.filter settings.chooses) := by
  have hknown : (settings.disabled.map normalizeKey).find?
      (fun key => !(Stage.optional.any (·.name == key))) = none := by
    rw [List.find?_eq_none]
    intro key hkey
    obtain ⟨name, hname, rfl⟩ := List.mem_map.1 hkey
    obtain ⟨stage, hstage, heq⟩ := h name hname
    have hany : Stage.optional.any (·.name == normalizeKey name) = true :=
      List.any_eq_true.2 ⟨stage, hstage, by simp [heq]⟩
    simp [hany]
  cases hstages : settings.stages with
  | ok stages => rw [stages_eq_filter hstages]
  | error fault =>
      rw [Settings.stages_eq, hknown] at hstages
      cases hstages

/-- The stages that may come after the builder. -/
def Stage.late : List Stage :=
  [.detailMerger, .siblingList, .listKind, .cleanup, .orphanAbsorber, .coalescer]

namespace Settings

/-- The stages that settings choose before the builder. -/
def early (settings : Settings) : List Stage := [.prenormalizer].filter settings.chooses

/-- The builder always runs, after the rewriting of lines if that runs. -/
theorem filter_chooses (settings : Settings) : Stage.all.filter settings.chooses =
    settings.early ++ .builder :: Stage.late.filter settings.chooses := by
  have hbuilder : settings.chooses .builder = true := by
    cases hv : settings.variant <;> simp [chooses, hv, Variant.runs, Stage.isAdvanced]
  have hall : Stage.all = [.prenormalizer] ++ .builder :: Stage.late := rfl
  rw [hall, List.filter_append, List.filter_cons_of_pos hbuilder]
  rfl

theorem NamesKnown.converter_eq {settings : Settings} (h : settings.NamesKnown) :
    settings.converter =
      .ok ⟨settings.gfm, settings.early ++ .builder :: Stage.late.filter settings.chooses⟩ := by
  rw [converter, h.stages_eq, filter_chooses]
  rfl

end Settings

/-! ### What reaches the builder -/

/-- The paragraphs that a text reads as stand in it. -/
theorem standsIn_of_mem_ofMarkdown {extended : Bool} {text : List Char} {node : Node}
    (h : node ∈ (Node.ofMarkdown extended text).children)
    (hp : node.isContainer .paragraph = true) : node.StandsIn text := by
  obtain ⟨span, task, content, children, hblock, rfl⟩ :=
    Markdown.exists_paragraph_of_mem_ofMarkdown h hp
  obtain ⟨piece, hpiece⟩ := (Markdown.fits_of_mem_ofText hblock).read
  exact ⟨span, children, piece, rfl, hpiece⟩

/-- The tree that reaches the builder is that of the text that reaches it, whether lines are rewritten
or not. -/
theorem exists_ok_of_early (settings : Settings) (source : List Char) :
    ∃ work, runStages settings.gfm ⟨Node.ofMarkdown settings.gfm source, source, false⟩
        settings.early = .ok work ∧
      work.prenormalized = (settings.chooses .prenormalizer && !source.isEmpty) ∧
      work.source = (if work.prenormalized then prenormalize source else source) ∧
      work.tree = Node.ofMarkdown settings.gfm work.source := by
  by_cases hc : settings.chooses .prenormalizer = true
  · rw [Settings.early, List.filter_cons_of_pos hc, List.filter_nil, runStages,
      prenormalizer_apply_ofMarkdown]
    refine ⟨_, rfl, ?_⟩
    by_cases hs : source.isEmpty = true
    · simp [hs]
    · simp [hs, hc]
  · rw [Settings.early, List.filter_cons_of_neg hc, List.filter_nil]
    refine ⟨_, rfl, ?_⟩
    simp [hc]

/-- A run from the builder on comes to its end if the builder has no fault. -/
theorem exists_ok_of_builder {extended : Bool} {work : Work}
    (h : (Stage.builder.apply extended work).2 = none) (settings : Settings) :
    ∃ done, runStages extended work (.builder :: Stage.late.filter settings.chooses) = .ok done := by
  have hlate : ∀ stage ∈ Stage.late.filter settings.chooses, stage ≠ .builder := by
    intro stage hs
    rintro rfl
    simp [Stage.late] at hs
  obtain ⟨done, hdone⟩ := exists_ok_of_runStages hlate (Stage.builder.apply extended work).1
  refine ⟨done, ?_⟩
  rw [runStages]
  split
  · next next heq =>
      rw [heq] at hdone
      exact hdone
  · next fault heq =>
      rw [heq] at h
      cases h

/-- The builder has no fault with the tree of a text and that text. -/
theorem fault_builder_of_ofMarkdown {extended : Bool} {work : Work}
    (h : work.tree = Node.ofMarkdown extended work.source) :
    (Stage.builder.apply extended work).2 = none := by
  apply Node.fault_formDefinitions
  intro node hnode hp
  rw [h] at hnode
  exact standsIn_of_mem_ofMarkdown hnode hp

/-- The stages that settings choose come to their end on every text. -/
theorem exists_ok_of_stages (settings : Settings) (source : List Char) :
    ∃ tree, Converter.process
      ⟨settings.gfm, settings.early ++ .builder :: Stage.late.filter settings.chooses⟩ source =
        .ok tree := by
  obtain ⟨work, hearly, -, -, htree⟩ := exists_ok_of_early settings source
  obtain ⟨done, hlate⟩ := exists_ok_of_builder (fault_builder_of_ofMarkdown htree) settings
  refine ⟨done.tree, Converter.process_eq_ok_iff.2 ⟨done, ?_, rfl⟩⟩
  rw [runStages_append, hearly]
  exact hlate

/-- Markdown text is converted without a fault, for settings of known names. What reaches the builder
is the tree of a text together with that text, which is the rewritten one exactly if lines were
rewritten, and each paragraph below the root stands in it. -/
theorem process_eq_ok {settings : Settings} (h : settings.NamesKnown) (source : List Char) :
    ∃ converter before after work tree, settings.converter = .ok converter ∧
      converter.stages = before ++ .builder :: after ∧
      runStages converter.extended
        ⟨Node.ofMarkdown converter.extended source, source, false⟩ before = .ok work ∧
      work.prenormalized = (settings.chooses .prenormalizer && !source.isEmpty) ∧
      work.source = (if work.prenormalized then prenormalize source else source) ∧
      work.tree = Node.ofMarkdown converter.extended work.source ∧
      (∀ node ∈ work.tree.children, node.isContainer .paragraph = true →
        node.StandsIn work.source) ∧
      (Stage.builder.apply converter.extended work).2 = none ∧
      process settings source = .ok tree := by
  obtain ⟨work, hearly, hflag, hsource, htree⟩ := exists_ok_of_early settings source
  have hstands : ∀ node ∈ work.tree.children, node.isContainer .paragraph = true →
      node.StandsIn work.source := by
    intro node hnode hp
    rw [htree] at hnode
    exact standsIn_of_mem_ofMarkdown hnode hp
  have hbuilder : (Stage.builder.apply settings.gfm work).2 = none :=
    fault_builder_of_ofMarkdown htree
  obtain ⟨tree, hprocess⟩ := exists_ok_of_stages settings source
  have hconverter := h.converter_eq
  refine ⟨_, _, _, work, tree, hconverter, rfl, hearly, hflag, hsource, htree, hstands, hbuilder, ?_⟩
  simp only [process, hconverter, hprocess]
  rfl

/-- A text of characters of several bytes, the lines of which are rewritten. -/
theorem process_eq_ok_of_wide_characters :
    Settings.NamesKnown ⟨.advanced, ["Orphan_Absorber"], false⟩ ∧
      ∃ (work : Work) (tree : Node), work.prenormalized = true ∧ work.source = "é\n\n: ü\n".toList ∧
        work.tree = Node.ofMarkdown false work.source ∧
        (∀ node ∈ work.tree.children, node.isContainer .paragraph = true →
          node.StandsIn work.source) ∧
        process ⟨.advanced, ["Orphan_Absorber"], false⟩ "é\n: ü\n".toList = .ok tree := by
  have hknown : Settings.NamesKnown ⟨.advanced, ["Orphan_Absorber"], false⟩ := by decide +kernel
  obtain ⟨converter, before, after, work, tree, hconverter, -, -, hflag, hsource, htree, hstands, -,
    hprocess⟩ := process_eq_ok hknown "é\n: ü\n".toList
  have hextended := (Settings.converter_eq_ok hconverter).2
  have hchosen : Settings.chooses ⟨.advanced, ["Orphan_Absorber"], false⟩ .prenormalizer = true := by
    decide +kernel
  rw [hchosen] at hflag
  rw [hextended] at htree
  have hrewritten : prenormalize "é\n: ü\n".toList = "é\n\n: ü\n".toList := by decide +kernel
  rw [hflag] at hsource
  refine ⟨hknown, work, tree, hflag, ?_, htree, hstands, hprocess⟩
  rw [hsource]
  exact hrewritten

end DefinitionLists
