/-
Module: DefinitionLists.Proofs.NoDefinitions
Purpose: Documents in which no line opens with a colon: what they read as comes out as it is, without
  its hollow items.
Main exports: NoColonOpens, prenormalize_of_noColonOpens, builder_of_noColonOpens,
  process_of_noColonOpens
-/
import DefinitionLists.Proofs.Entries
import DefinitionLists.Proofs.HollowItems
import DefinitionLists.Proofs.Markdown.LineStarts
import DefinitionLists.Proofs.Markdown.Positions
import DefinitionLists.Proofs.Seeds
import DefinitionLists.Proofs.Unchanged

namespace DefinitionLists

open Node (allProse)
open Text (byteLength dropCarriageReturn finishLines isBlank isLineBreak joinLines lines splitLines
  trimStart EndsLine OpensLine)

/-- Whether no line of a text, its blanks apart, opens with a colon. -/
def NoColonOpens (text : List Char) : Prop :=
  ∀ line ∈ text.splitOnP isLineBreak, (trimStart line).head? ≠ some ':'

instance (text : List Char) : Decidable (NoColonOpens text) :=
  inferInstanceAs (Decidable (∀ line ∈ text.splitOnP isLineBreak, _))

/-! ### Where lines open -/

/-- A line that blanks and a colon open is among the lines of a text that they open. -/
theorem exists_colon_line {blanks : List Char} (hb : ∀ c ∈ blanks, isBlank c = true)
    (rest : List Char) : ∃ line ∈ (blanks ++ ':' :: rest).splitOnP isLineBreak,
      (trimStart line).head? = some ':' := by
  induction blanks with
  | nil =>
      obtain ⟨first, more, hsplit⟩ := List.exists_cons_of_ne_nil (List.splitOnP_ne_nil isLineBreak rest)
      refine ⟨':' :: first, ?_, rfl⟩
      rw [List.nil_append, List.splitOnP_cons_eq_if_modifyHead, if_neg (by decide), hsplit]
      exact List.mem_cons_self
  | cons c blanks ih =>
      obtain ⟨hc, hblanks⟩ := List.forall_mem_cons.1 hb
      obtain ⟨line, hline, hcolon⟩ := ih hblanks
      rw [List.cons_append, List.splitOnP_cons_eq_if_modifyHead]
      split
      · exact ⟨line, List.mem_cons_of_mem _ hline, hcolon⟩
      · obtain ⟨first, more, hsplit⟩ :=
          List.exists_cons_of_ne_nil (List.splitOnP_ne_nil isLineBreak (blanks ++ ':' :: rest))
        rw [hsplit] at hline ⊢
        rcases List.mem_cons.1 hline with rfl | hline
        · refine ⟨c :: line, List.mem_cons_self, ?_⟩
          rw [Text.trimStart_cons_of_isBlank hc]
          exact hcolon
        · exact ⟨line, List.mem_cons_of_mem _ hline, hcolon⟩

/-- After the end of a line and blanks no colon comes. -/
theorem NoColonOpens.head_trimStart {text : List Char} (h : NoColonOpens text)
    (done blanks rest : List Char) (ht : text = done ++ (blanks ++ rest)) (hd : EndsLine done)
    (hb : ∀ c ∈ blanks, isBlank c = true) : (trimStart rest).head? ≠ some ':' := by
  intro hcolon
  obtain ⟨after, hafter⟩ := List.head?_eq_some_iff.1 hcolon
  have hrest : rest = rest.takeWhile isBlank ++ ':' :: after := by
    rw [← hafter, trimStart, List.takeWhile_append_dropWhile]
  have hblanks : ∀ c ∈ blanks ++ rest.takeWhile isBlank, isBlank c = true := by
    intro c hc
    rcases List.mem_append.1 hc with hc | hc
    · exact hb c hc
    · exact List.all_eq_true.1 List.all_takeWhile c hc
  obtain ⟨line, hline, hopens⟩ := exists_colon_line hblanks after
  have htext : text = done ++ ((blanks ++ rest.takeWhile isBlank) ++ ':' :: after) := by
    rw [List.append_assoc, ← hrest]
    exact ht
  refine h line ?_ hopens
  rcases List.eq_nil_or_concat done with rfl | ⟨before, last, rfl⟩
  · rwa [htext, List.nil_append]
  · have hlast : isLineBreak last = true := by simpa [EndsLine] using hd
    rw [htext, List.concat_eq_append, List.append_assoc, List.singleton_append,
      List.splitOnP_append_cons _ _ hlast]
    exact List.mem_append_right _ hline

/-- What comes after a text has no effect on what opens it, blanks apart. -/
theorem head_trimStart_append {line : List Char} {c : Char} (h : (trimStart line).head? = some c)
    (after : List Char) : (trimStart (line ++ after)).head? = some c := by
  obtain ⟨rest, hrest⟩ := List.head?_eq_some_iff.1 h
  have hopens : line.dropWhile isBlank = c :: rest := hrest
  rw [trimStart, List.dropWhile_append, hopens]
  rfl

/-- Each piece between line feeds stands at the front of a line. -/
theorem exists_of_mem_joinLines {pieces : List (List Char)} {line : List Char} (h : line ∈ pieces) :
    ∃ before after, joinLines pieces = before ++ (line ++ after) ∧ EndsLine before := by
  induction pieces with
  | nil => cases h
  | cons first more ih =>
      rcases List.mem_cons.1 h with rfl | h
      · cases more with
        | nil => exact ⟨[], [], by simp [joinLines], by simp [EndsLine]⟩
        | cons next rest => exact ⟨[], '\n' :: joinLines (next :: rest), rfl, by simp [EndsLine]⟩
      · obtain ⟨before, after, hmore, hends⟩ := ih h
        obtain ⟨next, rest, rfl⟩ := List.exists_cons_of_ne_nil (List.ne_nil_of_mem h)
        refine ⟨first ++ '\n' :: before, after, ?_, ?_⟩
        · show first ++ '\n' :: joinLines (next :: rest) = _
          rw [hmore]
          simp
        · cases before with
          | nil => simp [EndsLine, isLineBreak]
          | cons c before =>
              have hlast : (first ++ '\n' :: c :: before).getLast? = (c :: before).getLast? := by
                simp [List.getLast?_append, List.getLast?_cons]
              rw [EndsLine, hlast]
              exact hends

/-- Each line of a text stands where a line before it ends. -/
theorem exists_of_mem_splitLines {text line : List Char} (h : line ∈ splitLines text) :
    ∃ before after, text = before ++ (line ++ after) ∧ EndsLine before := by
  have hjoined := exists_of_mem_joinLines h
  rwa [Text.joinLines_splitLines] at hjoined

/-- Each line is a piece between line feeds, or the front of one. -/
theorem exists_prefix_of_mem_finishLines {pieces : List (List Char)} {line : List Char}
    (h : line ∈ finishLines pieces) : ∃ piece ∈ pieces, line <+: piece := by
  fun_induction finishLines pieces with
  | case1 => cases h
  | case2 => cases h
  | case3 last => exact ⟨line, h, List.prefix_refl line⟩
  | case4 first more _ ih =>
      rcases List.mem_cons.1 h with rfl | h
      · exact ⟨first, List.mem_cons_self, Text.dropCarriageReturn_prefix first⟩
      · obtain ⟨piece, hpiece, hprefix⟩ := ih h
        exact ⟨piece, List.mem_cons_of_mem _ hpiece, hprefix⟩

/-! ### Stages -/

/-- Only a line that opens with a colon has a marker after it. -/
theorem definitionMarker_of_head {line : List Char} (h : (trimStart line).head? ≠ some ':') :
    definitionMarker? line = none := by
  have hindent : ∀ c, isIndentation c = true → isBlank c = true := by
    intro c hc
    rcases (Bool.or_eq_true _ _).mp hc with hc | hc
    · rw [eq_of_beq hc]
      rfl
    · rw [eq_of_beq hc]
      rfl
  have htrim : trimStart (line.dropWhile isIndentation) = trimStart line := by
    induction line with
    | nil => rfl
    | cons c rest ih =>
        by_cases hc : isIndentation c = true
        · rw [Text.trimStart_cons_of_isBlank (hindent c hc)] at h ⊢
          rw [List.dropWhile_cons_of_pos hc]
          exact ih h
        · rw [List.dropWhile_cons_of_neg hc]
  unfold definitionMarker?
  split
  · next rest heq =>
      rw [heq] at htrim
      rw [← htrim] at h
      exact absurd rfl h
  · rfl

/-- A line that opens with no colon becomes itself, in a fence and outside. -/
theorem LineState.take_of_head (state : LineState) {line : List Char}
    (h : (trimStart line).head? ≠ some ':') : (state.take line).1 = [line] := by
  have hplain : [':', ' '].isPrefixOf line = false := by
    rw [Bool.eq_false_iff]
    intro hprefix
    obtain ⟨rest, rfl⟩ := List.isPrefixOf_iff_prefix.1 hprefix
    exact h rfl
  unfold LineState.take
  rw [definitionMarker_of_head h, hplain]
  split
  · rfl
  · split
    · rfl
    · rfl

theorem LineState.takeAll_of_head (state : LineState) {written : List (List Char)}
    (h : ∀ line ∈ written, (trimStart line).head? ≠ some ':') : state.takeAll written = written := by
  induction written generalizing state with
  | nil => rfl
  | cons line more ih =>
      obtain ⟨hline, hmore⟩ := List.forall_mem_cons.1 h
      have htaken := state.take_of_head hline
      rw [takeAll]
      simp only [htaken, ih _ hmore, List.singleton_append]

/-- Rewriting leaves a text without such lines as it is. -/
theorem prenormalize_of_noColonOpens {text : List Char} (h : NoColonOpens text) :
    prenormalize text = text := by
  have hlines : ∀ line ∈ splitLines text, (trimStart line).head? ≠ some ':' := by
    intro line hline hcolon
    obtain ⟨before, after, htext, hends⟩ := exists_of_mem_splitLines hline
    exact h.head_trimStart before [] _ htext hends (by simp) (head_trimStart_append hcolon after)
  rw [prenormalize, LineState.takeAll_of_head {} hlines, Text.joinLines_splitLines]

theorem definitionBody_of_head {line : List Char} (h : line.head? ≠ some ':') :
    definitionBody? line = none := by
  unfold definitionBody?
  split
  · exact absurd rfl h
  · rfl

/-- No line at a position that opens a line is a definition. -/
theorem definitionBody_of_opensLine {source piece : List Char} {span : Span}
    (h : NoColonOpens source) (ho : OpensLine source span.start)
    (hp : span.read? source = some piece) :
    ∀ line ∈ (lines piece).map trimStart, definitionBody? line = none := by
  obtain ⟨done, blanks, rest, hsource, hends, hblanks, hstart⟩ := ho
  have hrest : Text.dropBytes? span.start source = some rest := by
    rw [hsource, ← List.append_assoc, ← hstart, Text.dropBytes?_append]
  obtain ⟨later, rfl⟩ : piece <+: rest := by
    unfold Span.read? at hp
    split at hp
    · rw [hrest] at hp
      exact Text.prefix_of_takeBytes hp
    · cases hp
  rw [List.forall_mem_map]
  intro line hline
  apply definitionBody_of_head
  intro hcolon
  obtain ⟨whole, hwhole, more, rfl⟩ := exists_prefix_of_mem_finishLines hline
  obtain ⟨before, after, hpiece, hopens⟩ := exists_of_mem_splitLines hwhole
  have hcolon' : (trimStart (line ++ (more ++ (after ++ later)))).head? = some ':' :=
    head_trimStart_append hcolon _
  cases before with
  | nil =>
      -- the first line of the paragraph may stand after blanks
      refine h.head_trimStart done blanks _ ?_ hends hblanks hcolon'
      rw [hsource, hpiece]
      simp
  | cons c before =>
      refine h.head_trimStart (done ++ blanks ++ (c :: before)) [] _ ?_ ?_ (by simp) hcolon'
      · rw [hsource, hpiece]
        simp
      · simpa [EndsLine, List.getLast?_append, List.getLast?_cons] using hopens

/-- Whether a node is a paragraph at whose position in a text no line is a definition. -/
def Node.DefinesNothing (source : List Char) (node : Node) : Prop :=
  ∃ span children piece, node = .branch (.container .paragraph none (some span)) children ∧
    span.read? source = some piece ∧
    ∀ line ∈ (lines piece).map trimStart, definitionBody? line = none

section Formation

variable {source : List Char}

theorem Formation.take_of_definesNothing {block : Node}
    (h : block.isContainer .paragraph = true → block.DefinesNothing source) (extended : Bool)
    (state : Formation) :
    ∃ last, state.take extended source block = .ok ⟨block :: state.made, last⟩ := by
  by_cases hp : block.isContainer .paragraph = true
  · obtain ⟨span, children, piece, rfl, hpiece, hlines⟩ := h hp
    have htext : paragraphText source (some span) children = .ok piece := by
      simp only [paragraphText, hpiece]
    simp only [take, htext, takeParagraph, splitEntries_of_none hlines]
    exact ⟨_, rfl⟩
  · unfold take
    split
    · exact absurd rfl hp
    · exact ⟨_, rfl⟩

/-- Where no line is a definition, all blocks stay. -/
theorem Formation.foldlM_of_definesNothing {blocks : List Node}
    (h : ∀ block ∈ blocks, block.isContainer .paragraph = true → block.DefinesNothing source)
    (extended : Bool) (state : Formation) :
    ∃ last, blocks.foldlM (take extended source) state = .ok ⟨blocks.reverse ++ state.made, last⟩ := by
  induction blocks generalizing state with
  | nil => exact ⟨state.last, rfl⟩
  | cons block more ih =>
      obtain ⟨hblock, hmore⟩ := List.forall_mem_cons.1 h
      obtain ⟨last, htaken⟩ := take_of_definesNothing hblock extended state
      obtain ⟨last', hrest⟩ := ih hmore ⟨block :: state.made, last⟩
      refine ⟨last', ?_⟩
      rw [List.foldlM_cons, htaken, List.reverse_cons, List.append_assoc]
      exact hrest

/-- Where no paragraph defines anything, no definition list is formed. -/
theorem formDefinitions_of_definesNothing {hint : Option String} {span : Option Span}
    {blocks : List Node}
    (h : ∀ block ∈ blocks, block.isContainer .paragraph = true → block.DefinesNothing source)
    (extended : Bool) :
    (Node.branch (.container .root hint span) blocks).formDefinitions extended source =
      (.branch (.container .root hint span) blocks, none) := by
  obtain ⟨last, hfolded⟩ := Formation.foldlM_of_definesNothing h extended {}
  simp [Node.formDefinitions, hfolded]

end Formation

/-- The paragraphs that a text reads as define nothing if no line of it opens with a colon. -/
theorem definesNothing_of_mem_ofMarkdown {extended : Bool} {source : List Char} {node : Node}
    (h : NoColonOpens source) (hn : node ∈ (Node.ofMarkdown extended source).children)
    (hp : node.isContainer .paragraph = true) : node.DefinesNothing source := by
  obtain ⟨span, task, content, children, hblock, rfl⟩ :=
    Markdown.exists_paragraph_of_mem_ofMarkdown hn hp
  obtain ⟨piece, hpiece⟩ := (Markdown.fits_of_mem_ofText hblock).read
  have hopens := Markdown.opensLine_of_mem_ofText extended source span task content hblock
  exact ⟨span, children, piece, rfl, hpiece, definitionBody_of_opensLine h hopens hpiece⟩

/-! ### Runs -/

/-- Cleaning prose removes its hollow items. -/
theorem cleanup_apply_of_prose {extended : Bool} {work : Work} {hint : Option String}
    {span : Option Span} {blocks : List Node} (h : allProse blocks = true)
    (hw : work.tree = .branch (.container .root hint span) blocks) :
    Stage.cleanup.apply extended work =
      ({ work with tree := work.tree.without Node.isHollow }, none) := by
  have hclean : work.tree.cleanUp work.prenormalized = work.tree.without Node.isHollow := by
    rw [Node.cleanUp_eq, hw, edit_inDetails_of_allProse h, removeEmptyItems_eq_without]
  rw [← hclean]
  rfl

/-- The stages after the builder only clean where no definition list stands. -/
theorem runStages_late_of_prose {settings : Settings} (work : Work) {hint : Option String}
    {span : Option Span} {blocks : List Node}
    (hcleanup : Stage.cleanup.name ∉ settings.disabled.map normalizeKey)
    (h : allProse blocks = true) (hw : work.tree = .branch (.container .root hint span) blocks) :
    runStages settings.gfm work (Stage.late.filter settings.chooses) =
      .ok { work with tree := work.tree.without Node.isHollow } := by
  have hruns : settings.variant.runs .cleanup = true := by
    cases settings.variant <;> rfl
  have hchosen : settings.chooses .cleanup = true := by
    simpa [Settings.chooses, hruns] using hcleanup
  have hlate : Stage.late = [.detailMerger, .siblingList, .listKind] ++
      .cleanup :: [.orphanAbsorber, .coalescer] := rfl
  have hcleaned : work.tree.without Node.isHollow =
      .branch (.container .root hint span) (Node.withoutAmong Node.isHollow blocks) := by
    rw [hw, Node.without]
  have hprose : allProse (Node.withoutAmong Node.isHollow blocks) = true := by
    rw [← removeEmptyItemsAmong_eq_withoutAmong]
    exact allProse_removeEmptyItemsAmong h
  have hbefore : runStages settings.gfm work
      ([.detailMerger, .siblingList, .listKind].filter settings.chooses) = .ok work := by
    refine runStages_of_inert fun stage hs => ?_
    have hmem := (List.mem_filter.1 hs).1
    exact Stage.apply_of_prose h (by rw [hlate]; exact List.mem_append_left _ hmem)
      (by rintro rfl; simp at hmem) _ hw
  have hafter : runStages settings.gfm { work with tree := work.tree.without Node.isHollow }
      ([.orphanAbsorber, .coalescer].filter settings.chooses) =
        .ok { work with tree := work.tree.without Node.isHollow } := by
    refine runStages_of_inert fun stage hs => ?_
    have hmem := (List.mem_filter.1 hs).1
    exact Stage.apply_of_prose hprose
      (by rw [hlate]; exact List.mem_append_right _ (List.mem_cons_of_mem _ hmem))
      (by rintro rfl; simp at hmem) _ hcleaned
  rw [hlate, List.filter_append, List.filter_cons_of_pos hchosen, runStages_append, hbefore]
  simp only [Except.bind, runStages, cleanup_apply_of_prose h hw]
  exact hafter

/-- The builder makes nothing of a document in which no line opens with a colon. -/
theorem formDefinitions_of_noColonOpens {text : List Char} (h : NoColonOpens text) (extended : Bool) :
    (Node.ofMarkdown extended text).formDefinitions extended text =
      (Node.ofMarkdown extended text, none) := by
  obtain ⟨blocks, hroot, -⟩ := Node.ofMarkdown_root extended text
  have hdefines : ∀ block ∈ blocks, block.isContainer .paragraph = true →
      block.DefinesNothing text := by
    intro block hb hp
    have hmem : block ∈ (Node.ofMarkdown extended text).children := by
      rw [hroot]
      exact hb
    exact definesNothing_of_mem_ofMarkdown h hmem hp
  rw [hroot]
  exact formDefinitions_of_definesNothing hdefines extended

/-- A document in which no line opens with a colon comes out as it reads, without the items in which
nothing but items stands. -/
theorem process_of_noColonOpens {settings : Settings} {converter : Converter} {source : List Char}
    (haccepted : settings.converter = .ok converter)
    (hcleanup : Stage.cleanup.name ∉ settings.disabled.map normalizeKey)
    (h : NoColonOpens source) :
    process settings source =
      .ok ((Node.ofMarkdown settings.gfm source).without Node.isHollow) := by
  obtain ⟨hstages, hextended⟩ := Settings.converter_eq_ok haccepted
  have hchosen : converter.stages =
      settings.early ++ .builder :: Stage.late.filter settings.chooses := by
    rw [Settings.stages_eq_filter hstages, Settings.filter_chooses]
  obtain ⟨work, hearly, -, hsource, htree⟩ := exists_ok_of_early settings source
  -- rewriting the lines changes nothing, so the builder gets what the text reads as
  rw [prenormalize_of_noColonOpens h, ite_self] at hsource
  rw [hsource] at htree
  obtain ⟨tree, text, prenormalized⟩ := work
  obtain rfl : text = source := hsource
  obtain rfl : tree = Node.ofMarkdown settings.gfm text := htree
  obtain ⟨blocks, hroot, hprose⟩ := Node.ofMarkdown_root settings.gfm text
  have hformed := formDefinitions_of_noColonOpens h settings.gfm
  have hbuilder : Stage.builder.apply settings.gfm
      ⟨Node.ofMarkdown settings.gfm text, text, prenormalized⟩ =
        (⟨Node.ofMarkdown settings.gfm text, text, prenormalized⟩, none) := by
    simp only [Stage.apply, hformed]
  have hlate := runStages_late_of_prose ⟨Node.ofMarkdown settings.gfm text, text, prenormalized⟩
    hcleanup hprose hroot
  have hrun : runStages converter.extended
      ⟨Node.ofMarkdown converter.extended text, text, false⟩ converter.stages =
        .ok ⟨(Node.ofMarkdown settings.gfm text).without Node.isHollow, text, prenormalized⟩ := by
    rw [hchosen, hextended, runStages_append, hearly]
    simp only [Except.bind, runStages, hbuilder]
    exact hlate
  have hprocess : converter.process text =
      .ok ((Node.ofMarkdown settings.gfm text).without Node.isHollow) :=
    Converter.process_eq_ok_iff.2 ⟨_, hrun, rfl⟩
  simp only [process, haccepted, hprocess]
  rfl

/-- An empty item is removed; the list that it stood in stays, and so does the item around that. -/
theorem process_of_nested_empty_item :
    Settings.converter ⟨.advanced, ["orphan-absorber"], true⟩ =
        .ok ⟨true, Variant.advanced.stages.filter (· ≠ .orphanAbsorber)⟩ ∧
      Stage.cleanup.name ∉ ["orphan-absorber"].map normalizeKey ∧
      NoColonOpens "- -\n- a\n\nb: c\n".toList ∧
      process ⟨.advanced, ["orphan-absorber"], true⟩ "- -\n- a\n\nb: c\n".toList =
        .ok ((Node.ofMarkdown true "- -\n- a\n\nb: c\n".toList).without Node.isHollow) := by
  have haccepted : Settings.converter ⟨.advanced, ["orphan-absorber"], true⟩ =
      .ok ⟨true, Variant.advanced.stages.filter (· ≠ .orphanAbsorber)⟩ := by decide +kernel
  have hcleanup : Stage.cleanup.name ∉ ["orphan-absorber"].map normalizeKey := by decide +kernel
  have hcolon : NoColonOpens "- -\n- a\n\nb: c\n".toList := by decide +kernel
  exact ⟨haccepted, hcleanup, hcolon, process_of_noColonOpens haccepted hcleanup hcolon⟩

end DefinitionLists
