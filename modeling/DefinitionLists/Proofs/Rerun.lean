/-
Module: DefinitionLists.Proofs.Rerun
Purpose: Where the lines of a document are rewritten, what is made of it depends on its text alone, and
  running the stages again on what they made changes nothing.
Main exports: transform_root_eq_process, transform_of_process, transform_process
-/
import DefinitionLists.Proofs.Positions

namespace DefinitionLists

/-! ### Roots for one text -/

/-- Once lines are rewritten, nothing is left of a root but its hint. -/
theorem prenormalizer_apply_root (extended : Bool) {source : List Char} (hs : source ≠ [])
    (span : Option Span) (children : List Node) :
    Stage.prenormalizer.apply extended
        ⟨.branch (.container .root none span) children, source, false⟩ =
      Stage.prenormalizer.apply extended ⟨Node.ofMarkdown extended source, source, false⟩ := by
  obtain ⟨blocks, hroot, -⟩ := Node.ofMarkdown_root extended source
  have hempty : ¬source.isEmpty = true := by simpa using hs
  simp only [Stage.apply, hroot, Node.prenormalize, if_neg hempty]

/-- Nothing is made of a root without children if there is no text. -/
theorem runStages_of_no_text (extended : Bool) (hint : Option String) (span : Option Span)
    (stages : List Stage) :
    runStages extended ⟨.branch (.container .root hint span) [], [], false⟩ stages =
      .ok ⟨.branch (.container .root hint span) [], [], false⟩ := by
  induction stages with
  | nil => rfl
  | cons stage more ih =>
      have happly : stage.apply extended ⟨.branch (.container .root hint span) [], [], false⟩ =
          (⟨.branch (.container .root hint span) [], [], false⟩, none) := by
        cases stage <;> rfl
      rw [runStages, happly]
      exact ih

namespace Converter

variable {converter : Converter} {more : List Stage}

/-- If lines are rewritten first, all roots without a hint come to the same for a text. -/
theorem transform_root_eq_process (h : converter.stages = .prenormalizer :: more)
    {source : List Char} (hs : source ≠ []) (span : Option Span) (children : List Node) :
    converter.transform (.branch (.container .root none span) children) source =
      converter.process source := by
  rw [process, transform, transform, h, runStages, runStages, prenormalizer_apply_root _ hs]

/-- What comes of a text is a root without a hint, so it comes to the same again. -/
theorem transform_of_process (h : converter.stages = .prenormalizer :: more)
    (hmore : ∀ stage ∈ more, stage ≠ .prenormalizer) {source : List Char} {tree : Node}
    (hp : converter.process source = .ok tree) : converter.transform tree source = .ok tree := by
  obtain ⟨done, hrun, rfl⟩ := process_eq_ok_iff.1 hp
  by_cases hs : source = []
  · have hroot : Node.ofMarkdown converter.extended [] =
        .branch (.container .root none (some ⟨0, 0⟩)) [] := rfl
    rw [hs, hroot, runStages_of_no_text] at hrun
    obtain rfl := Except.ok.inj hrun
    rw [hs, transform, runStages_of_no_text]
    rfl
  · have hempty : ¬source.isEmpty = true := by simpa using hs
    rw [h, runStages, prenormalizer_apply_ofMarkdown, if_neg hempty] at hrun
    have hhead := head?_of_runStages hmore hrun
    rw [Node.ofMarkdown_eq_children] at hhead
    obtain ⟨children, heq⟩ := Node.eq_branch_of_head? hhead
    rw [← hp, heq]
    exact transform_root_eq_process h hs _ children

end Converter

/-- Where lines are rewritten, what the stages make of a text they make of it again, if they are given
what they made of it before. If there is any text, it does not matter at all which root without a hint
they are given with it. -/
theorem transform_process {settings : Settings} (hknown : settings.NamesKnown)
    (hvariant : settings.variant = .advanced)
    (henabled : Stage.prenormalizer.name ∉ settings.disabled.map normalizeKey)
    (source : List Char) :
    ∃ converter tree, settings.converter = .ok converter ∧ converter.process source = .ok tree ∧
      converter.transform tree source = .ok tree ∧
      (source ≠ [] → ∀ (span : Option Span) (children : List Node),
        converter.transform (.branch (.container .root none span) children) source = .ok tree) := by
  have hchosen : settings.chooses .prenormalizer = true := by
    simpa [Settings.chooses, hvariant, Variant.runs] using henabled
  have hearly : settings.early = [.prenormalizer] := by
    rw [Settings.early, List.filter_cons_of_pos hchosen]
    rfl
  have hmore : ∀ stage ∈ Stage.builder :: Stage.late.filter settings.chooses,
      stage ≠ .prenormalizer := by
    intro stage hstage
    rintro rfl
    simp [Stage.late] at hstage
  obtain ⟨tree, htree⟩ := exists_ok_of_stages settings source
  rw [hearly] at htree
  have hconverter := hknown.converter_eq
  rw [hearly] at hconverter
  refine ⟨_, tree, hconverter, htree, ?_, fun hs span children => ?_⟩
  · exact Converter.transform_of_process rfl hmore htree
  · exact (Converter.transform_root_eq_process rfl hs span children).trans htree

/-- A root that has nothing to do with the text, and settings under which lists stay as they are. -/
theorem transform_process_of_another_root :
    ∃ converter tree,
      Settings.converter ⟨.advanced, ["Sibling_List", "list-kind"], true⟩ = .ok converter ∧
      converter.process "Term\n: - a\n".toList = .ok tree ∧
      converter.transform tree "Term\n: - a\n".toList = .ok tree ∧
      converter.transform (.branch (.container .root none (some ⟨3, 900⟩)) [.text "x"])
        "Term\n: - a\n".toList = .ok tree := by
  obtain ⟨converter, tree, hconverter, hprocess, hagain, hroot⟩ :=
    @transform_process ⟨.advanced, ["Sibling_List", "list-kind"], true⟩ (by decide +kernel) rfl
      (by decide +kernel) "Term\n: - a\n".toList
  exact ⟨converter, tree, hconverter, hprocess, hagain, hroot (by decide) _ _⟩

end DefinitionLists
