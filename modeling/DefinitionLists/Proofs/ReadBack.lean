/-
Module: DefinitionLists.Proofs.ReadBack
Purpose: Which printed trees of Markdown documents can be read back: those in which no more containers
  are open at once than the reader allows.
Main exports: Settings.rewritten, allHeads_of_process, isWritable_of_process, read_printed,
  read_printed_iff
-/
import DefinitionLists.CommandLine.Run
import DefinitionLists.Proofs.Heads.Stages
import DefinitionLists.Proofs.Markdown.Extents
import DefinitionLists.Proofs.Node.Height
import DefinitionLists.Proofs.Node.RoundTrip
import DefinitionLists.Proofs.Positions

namespace DefinitionLists

open CommandLine (convertText)
open Node (allHeads allHeadsIn)
open Text (byteLength)

/-! ### The nodes of a converted document -/

/-- The text that the tree of a document is made of. -/
def Settings.rewritten (settings : Settings) (source : List Char) : List Char :=
  if settings.chooses .prenormalizer then prenormalize source else source

theorem Settings.source_of_early {settings : Settings} {source : List Char} {work : Work}
    (hflag : work.prenormalized = (settings.chooses .prenormalizer && !source.isEmpty))
    (hsource : work.source = (if work.prenormalized then prenormalize source else source)) :
    work.source = settings.rewritten source := by
  rw [hsource, hflag, rewritten]
  cases source with
  | nil => cases settings.chooses .prenormalizer <;> rfl
  | cons c rest => simp

section Process

variable {good : Branch → Bool} {settings : Settings} {source : List Char} {tree : Node}

/-- The builder makes only nodes that the text, or a piece of it that a paragraph is taken apart into,
reads as, and parts of definition lists. -/
theorem allHeads_builder (hg : Branch.AllowsDefinitions good) {extended : Bool} {work : Work}
    (htree : work.tree = Node.ofMarkdown extended work.source)
    (hread : ∀ text : List Char, byteLength text ≤ byteLength work.source →
      (Node.ofMarkdown extended text).allHeads good = true) :
    (Stage.builder.apply extended work).1.tree.allHeads good = true := by
  have hblocks (text : List Char) (hle : byteLength text ≤ byteLength work.source) :
      allHeadsIn good (Node.ofMarkdown extended text).children = true := by
    have hheads := hread text hle
    rw [Node.ofMarkdown_eq_children, Node.allHeads_branch] at hheads
    exact hheads.2
  have hwhole : work.tree.allHeads good = true := by
    rw [htree]
    exact hread work.source (Nat.le_refl _)
  refine Node.allHeads_formDefinitions hg hblocks (fun hint span inlines text hmem htext => ?_) hwhole
  rw [htree] at hmem
  obtain ⟨span, children, piece, heq, hpiece⟩ := standsIn_of_mem_ofMarkdown hmem rfl
  cases heq
  simp only [paragraphText, hpiece] at htext
  cases htext
  exact Text.byteLength_le_of_sublist (Span.sublist_of_read hpiece)

/-- A kind of nodes that has all of what the text and the pieces of its paragraphs read as, and the parts
of definition lists besides, has all that is made of the text. -/
theorem allHeads_of_process (hg : Branch.AllowsDefinitions good)
    (hread : ∀ text : List Char, byteLength text ≤ byteLength (settings.rewritten source) →
      (Node.ofMarkdown settings.gfm text).allHeads good = true)
    (h : process settings source = .ok tree) : tree.allHeads good = true := by
  obtain ⟨converter, hconverter, hprocess⟩ := exists_converter_of_process h
  obtain ⟨hstages, hextended⟩ := Settings.converter_eq_ok hconverter
  have hstages := Settings.stages_eq_filter hstages
  rw [Settings.filter_chooses] at hstages
  obtain ⟨done, hrun, rfl⟩ := Converter.process_eq_ok_iff.1 hprocess
  obtain ⟨work, hearly, hflag, hsource, htree⟩ := exists_ok_of_early settings source
  have hsource := Settings.source_of_early hflag hsource
  rw [← hsource] at hread
  have hbuilt := allHeads_builder hg htree hread
  rw [hstages, hextended, runStages_append, hearly] at hrun
  have hlate : runStages settings.gfm work (.builder :: Stage.late.filter settings.chooses) =
      .ok done := hrun
  rw [runStages] at hlate
  split at hlate
  · next next heq =>
      rw [heq] at hbuilt
      refine @tree_of_runStages (fun tree => tree.allHeads good = true) _ _ _ _
        (fun stage hstage work hwork => ?_) hbuilt hlate
      have hkept : stage ≠ .prenormalizer ∧ stage ≠ .builder := by
        have hmem := (List.mem_filter.1 hstage).1
        constructor <;>
          · rintro rfl
            simp [Stage.late] at hmem
      exact Stage.allHeads_apply hg hkept.1 hkept.2 hwork
  · cases hlate

end Process

theorem Branch.allowsDefinitions_hasOwnTag : AllowsDefinitions hasOwnTag :=
  ⟨⟨fun _ _ _ _ => rfl, fun _ _ _ => rfl, rfl⟩, rfl, rfl, rfl⟩

theorem Branch.allowsDefinitions_hasOffsets : AllowsDefinitions hasOffsets :=
  ⟨⟨fun _ _ _ _ => rfl, fun _ _ _ => rfl, rfl⟩, rfl, rfl, rfl⟩

/-- Positions within a text of fewer bytes than 64 bits count fit 64 bits. -/
theorem Branch.hasOffsets_of_liesWithin {bound : Nat} (h : bound < UInt64.size) (head : Branch)
    (hhead : head.liesWithin bound = true) : head.hasOffsets = true := by
  cases head with
  | container kind hint span =>
      cases span with
      | none => rfl
      | some span =>
          obtain ⟨hstart, hstop⟩ : span.LiesWithin bound := by simpa [liesWithin] using hhead
          have hlt : span.start < UInt64.size ∧ span.stop < UInt64.size :=
            ⟨Nat.lt_of_le_of_lt hstart h, Nat.lt_of_le_of_lt hstop h⟩
          simpa [hasOffsets] using hlt
  | _ => rfl

/-- A tree that is made of a text is written by the reader's own rules, as long as the text is not too
long for the offsets in it to be written. -/
theorem isWritable_of_process {settings : Settings} {source : List Char} {tree : Node}
    (hsize : byteLength (settings.rewritten source) < UInt64.size)
    (h : process settings source = .ok tree) :
    tree.allHeads Branch.hasOwnTag = true ∧ tree.allHeads Branch.hasOffsets = true := by
  constructor
  · exact allHeads_of_process Branch.allowsDefinitions_hasOwnTag
      (fun text _ => Node.hasOwnTag_ofMarkdown settings.gfm text) h
  · refine allHeads_of_process Branch.allowsDefinitions_hasOffsets (fun text hle => ?_) h
    have hlt : byteLength text < UInt64.size := Nat.lt_of_le_of_lt hle hsize
    exact Node.allHeads_mono (Branch.hasOffsets_of_liesWithin hlt)
      (Node.liesWithin_ofMarkdown settings.gfm text)

/-! ### Reading back what is printed -/

/-- What is printed of a converted document. -/
theorem convertText_of_process {settings : Settings} {source : List Char} {tree : Node}
    {converter : Converter} (hconverter : settings.converter = .ok converter)
    (h : process settings source = .ok tree) (positions : String) :
    convertText converter .markdown .json positions (String.ofList source) =
      .ok (tree.toJson.pretty ++ "\n") := by
  obtain ⟨converter', hconverter', hprocess⟩ := exists_converter_of_process h
  cases hconverter.symm.trans hconverter'
  unfold convertText
  simp only [String.toList_ofList, hprocess]
  rfl

/-- A printed tree is read back, if it is not too deep. -/
theorem read_printed {tree : Node} (ht : tree.allHeads Branch.hasOwnTag = true)
    (ho : tree.allHeads Branch.hasOffsets = true) :
    Node.read (tree.toJson.pretty ++ "\n") = Node.within tree.openWhenWritten Node.maxDepth tree := by
  rw [Node.read_of_scan ht ho (Json.scan_of_printed tree.toJson), Node.nesting_toJson]

/-- What is printed of a converted document is read as its tree if at most 127 containers are open at
once in it, as in all trees of a height of 63, and is malformed for the reader otherwise, as for all
trees higher than 64. -/
theorem read_printed_iff {settings : Settings} {source : List Char} {tree : Node}
    (hsize : byteLength (settings.rewritten source) < UInt64.size)
    (h : process settings source = .ok tree) :
    ∃ converter, settings.converter = .ok converter ∧
      (∀ positions, convertText converter .markdown .json positions (String.ofList source) =
        .ok (tree.toJson.pretty ++ "\n")) ∧
      (Node.read (tree.toJson.pretty ++ "\n") = .ok tree ↔ tree.openWhenWritten ≤ 127) ∧
      (127 < tree.openWhenWritten →
        Node.read (tree.toJson.pretty ++ "\n") = .error .malformed) ∧
      (tree.height ≤ 63 → tree.openWhenWritten ≤ 127) ∧
      (64 < tree.height → 127 < tree.openWhenWritten) := by
  obtain ⟨converter, hconverter, -⟩ := exists_converter_of_process h
  obtain ⟨ht, ho⟩ := isWritable_of_process hsize h
  have hbounds := Node.openWhenWritten_bounds tree
  refine ⟨converter, hconverter, convertText_of_process hconverter h, ?_, ?_, by omega, by omega⟩
  · rw [read_printed ht ho, Node.within, Node.maxDepth]
    split <;> simp [*]
  · intro hexceeds
    rw [read_printed ht ho, Node.within, Node.maxDepth, if_neg (by omega)]

/-- A definition list with a bullet list in it. -/
theorem read_printed_of_definitionList : ∃ tree converter,
    process {} "Term\n: - a\n".toList = .ok tree ∧ Settings.converter {} = .ok converter ∧
      convertText converter .markdown .json "" "Term\n: - a\n" =
        .ok (tree.toJson.pretty ++ "\n") ∧
      Node.read (tree.toJson.pretty ++ "\n") = .ok tree := by
  have hheight : (process {} "Term\n: - a\n".toList).map Node.height = .ok 7 := by
    decide +kernel
  obtain ⟨tree, htree, hseven⟩ := exists_ok_of_map_eq_ok hheight
  obtain ⟨converter, hconverter, hprinted, hread, -, hlow, -⟩ :=
    read_printed_iff (by decide +kernel) htree
  exact ⟨tree, converter, htree, hconverter, hprinted "", hread.2 (hlow (by omega))⟩

/-- The 62 quotes around the paragraph take two containers each, and the rest of the tree takes five. -/
theorem not_forall_read_printed :
    ¬∀ (settings : Settings) (source : List Char) (tree : Node), process settings source = .ok tree →
      Node.read (tree.toJson.pretty ++ "\n") = .ok tree := by
  intro hall
  have hsize : byteLength (Settings.rewritten {} (List.replicate 62 '>' ++ " a\n".toList)) <
      UInt64.size := by
    decide +kernel
  have hopen : (process {} (List.replicate 62 '>' ++ " a\n".toList)).map Node.openWhenWritten =
      .ok 129 := by
    decide +kernel
  obtain ⟨tree, htree, hmany⟩ := exists_ok_of_map_eq_ok hopen
  obtain ⟨ht, ho⟩ := isWritable_of_process hsize htree
  have hread := hall {} _ tree htree
  rw [read_printed ht ho, hmany] at hread
  cases hread

end DefinitionLists
