/-
Module: DefinitionLists.Proofs.FencedCode.AddedLines
Purpose: Lines that the rewriting adds to running text leave the code of a document alone: blank lines
  above definitions, and items that are repeated below them.
Main exports: RepeatsAsText, RepeatsAsItem, Settles, IsHarmless, BlockState.InStep,
  BlockState.InStep.readLine, BlockState.InStep.readLine_spaced, BlockState.InStep.readLine_repeated
-/
import DefinitionLists.Prenormalization
import DefinitionLists.Proofs.Markdown.LineByLine
import DefinitionLists.Proofs.Markdown.Shallow

namespace DefinitionLists

open Markdown
open Text (dropCarriageReturn joinLines)

/-! ### Conditions on lines -/

/-- At the start of a single line of text. -/
def lineStart (line : List Char) : Cursor := ⟨dropCarriageReturn line, 0, 0, 0⟩

/-- Whether the repetition of an item goes on with a paragraph. -/
def RepeatsAsText (marker : Marker) (line : List Char) : Prop :=
  (lineStart (seedLine marker line)).AtText ∨ (lineStart (seedLine marker line)).AtDeepText

/-- Whether the repetition of an item opens an item of a list. -/
def RepeatsAsItem (marker : Marker) (line : List Char) : Prop :=
  (lineStart (seedLine marker line)).OpensItem

instance (marker : Marker) (line : List Char) : Decidable (RepeatsAsText marker line) :=
  inferInstanceAs (Decidable (_ ∨ _))

instance (marker : Marker) (line : List Char) : Decidable (RepeatsAsItem marker line) :=
  inferInstanceAs (Decidable (Cursor.OpensItem _))

/-- Whether lines are read the same below an item with a paragraph in it, or with nothing in it, as they
are where neither is. Up to a line that ends the item for sure, they are empty, or text that goes on with
the paragraph, or items that are repeated as items. -/
def Settles (inParagraph : Bool) : List (List Char) → Prop
  | [] => True
  | line :: more =>
    IsSingle line ∧
      ((dropCarriageReturn line = [] ∧ Settles false more) ∨
        (lineStart line).EndsParagraph ∨
        (inParagraph = false ∧ (lineStart line).IsUnindented) ∨
        (inParagraph = true ∧ (lineStart line).AtText ∧
          (∀ marker ∈ definitionMarker? line, RepeatsAsItem marker line) ∧ Settles true more))

instance decidableSettles (inParagraph : Bool) :
    (lines : List (List Char)) → Decidable (Settles inParagraph lines)
  | [] => isTrue trivial
  | line :: more =>
    have := decidableSettles false more
    have := decidableSettles true more
    inferInstanceAs (Decidable (IsSingle line ∧ (_ ∨ _ ∨ _ ∨ _)))

/-- Whether it makes no difference to code that lines are added at a line of text, before which the state
is `state` and after which the lines `more` come: it is running text outside of containers, or in an item
that makes no difference itself. -/
structure IsHarmless (state : BlockState) (line : List Char) (more : List (List Char)) : Prop where
  single : IsSingle line
  text : (lineStart line).AtPlainText
  added : (state.IsClear ∧ ∀ marker ∈ definitionMarker? line, RepeatsAsText marker line) ∨
    (state.IsShallow ∧ (∀ marker ∈ definitionMarker? line, RepeatsAsItem marker line) ∧
      Settles true more)

instance (state : BlockState) (line : List Char) (more : List (List Char)) :
    Decidable (IsHarmless state line more) :=
  decidable_of_iff (IsSingle line ∧ (lineStart line).AtPlainText ∧
      ((state.IsClear ∧ ∀ marker ∈ definitionMarker? line, RepeatsAsText marker line) ∨
        (state.IsShallow ∧ (∀ marker ∈ definitionMarker? line, RepeatsAsItem marker line) ∧
          Settles true more)))
    ⟨fun ⟨single, text, added⟩ => ⟨single, text, added⟩, fun h => ⟨h.single, h.text, h.added⟩⟩

section Conditions

variable {state : BlockState} {line : List Char} {more : List (List Char)}

theorem IsHarmless.ne_nil (h : IsHarmless state line more) : line ≠ [] := by
  rintro rfl
  obtain ⟨c, rest, hrest, -⟩ := h.text.opens.exists_cons
  cases hrest

/-- Wherever the line stands, text stands at its front. -/
theorem IsHarmless.atText (h : IsHarmless state line more) (start : Nat) (after : List (List Char)) :
    (Cursor.ofLine (.ofSingle start line after)).AtPlainText :=
  h.text

theorem RepeatsAsText.atText {marker : Marker} (h : RepeatsAsText marker line) (start : Nat)
    (after : List (List Char)) :
    (Cursor.ofLine (.ofSingle start (seedLine marker line) after)).AtText ∨
      (Cursor.ofLine (.ofSingle start (seedLine marker line) after)).AtDeepText :=
  h

theorem RepeatsAsItem.opensItem {marker : Marker} (h : RepeatsAsItem marker line) (start : Nat)
    (after : List (List Char)) :
    (Cursor.ofLine (.ofSingle start (seedLine marker line) after)).OpensItem :=
  h

theorem isSingle_nil : IsSingle [] := ⟨by simp, by simp⟩

/-- The repetition of a single line is a single line. -/
theorem isSingle_seedLine (h : IsSingle line) (marker : Marker) : IsSingle (seedLine marker line) := by
  have hsuffix : dropColon line <:+ line := by
    have hdrop : line.dropWhile isIndentation <:+ line := List.dropWhile_suffix _
    unfold dropColon
    split
    · next c rest heq =>
        rw [heq] at hdrop
        split
        · exact ((List.suffix_cons _ _).trans (List.suffix_cons _ _)).trans hdrop
        · exact (List.suffix_cons _ _).trans hdrop
    · exact List.nil_suffix
    · exact List.suffix_refl _
  refine IsSingle.append (fun c hc => ?_) (h.of_suffix hsuffix)
  rw [List.eq_of_mem_replicate hc]
  decide

theorem seedLine_ne_nil (marker : Marker) (line : List Char) : seedLine marker line ≠ [] := by
  cases marker <;> simp [seedLine]

/-- Text ends no paragraph. -/
theorem Markdown.Cursor.AtText.not_endsParagraph {cursor : Cursor} (h : cursor.AtText) :
    ¬ cursor.EndsParagraph := by
  intro he
  have hinterrupts := he.interrupts
  rw [(BlockState.interrupts_atText h _ _).1] at hinterrupts
  cases hinterrupts

/-- A line with text that is read in step neither is empty nor ends a paragraph. -/
theorem Settles.of_text {inParagraph : Bool} (h : Settles inParagraph (line :: more))
    (ht : (lineStart line).AtText) : inParagraph = false ∨
      ((∀ marker ∈ definitionMarker? line, RepeatsAsItem marker line) ∧ Settles true more) := by
  rcases h.2 with ⟨hblank, -⟩ | hends | ⟨hclosed, -⟩ | ⟨-, -, hitem, hsettles⟩
  · obtain ⟨c, rest, hrest, -⟩ := ht.opens.exists_cons
    rw [lineStart, hblank] at hrest
    cases hrest
  · exact absurd hends (ht.not_endsParagraph)
  · exact .inl hclosed
  · exact .inr ⟨hitem, hsettles⟩

end Conditions

namespace Markdown

/-- What a line of a text leaves at its end are a line feed and carriage returns. -/
theorem Line.endsTidily_ofSingle {line : List Char} (h : IsSingle line) (start : Nat)
    (more : List (List Char)) : (Line.ofSingle start line more).EndsTidily := by
  intro c hc
  have hreturn : ∀ d ∈ line.drop (dropCarriageReturn line).length, d = '\r' := by
    rcases h.ending with ⟨-, hdrop⟩ | ⟨-, hdrop⟩ <;> simp [hdrop]
  -- only before another line there is a line feed
  cases more with
  | nil =>
      have hnil : joinLines [] = [] := rfl
      have hraw : (Line.ofSingle start line []).rawFrom [] =
          line.drop (dropCarriageReturn line).length := by
        unfold ofSingle rawFrom
        rw [hnil]
        split <;> simp [lineEnd]
      exact .inr (hreturn c (hraw ▸ hc))
  | cons next more =>
      have hends : (Line.ofSingle start line (next :: more)).endsInCarriageReturn = false := by
        unfold ofSingle endsInCarriageReturn
        rw [lineEnd_of_ne_nil (by simp)]
        cases line.drop (dropCarriageReturn line).length with
        | nil => rfl
        | cons d after => cases after <;> simp
      rw [rawFrom, hends, List.nil_append] at hc
      rcases List.mem_append.1 hc with hc | hc
      · exact .inr (hreturn c hc)
      · rw [lineEnd_of_ne_nil (by simp)] at hc
        exact .inl (by simpa using hc)

namespace BlockState

/-- Whether two texts are read in step when the lines `more` come next in the first of them: what is open
agrees, or an item is open in one of them only, which makes no difference. -/
inductive InStep (state state' : BlockState) (more : List (List Char)) : Prop
  | alike (h : state.Alike state')
  | shallow (h : state.ShallowAlike state') (hs : Settles state.leaf.isSome more)

variable {state state' : BlockState} {line : List Char} {more more' : List (List Char)}

/-- At the end of both texts the code is the same. -/
theorem InStep.codes_closeLeaf (h : state.InStep state' more) :
    state.closeLeaf.codes = state'.closeLeaf.codes := by
  cases h with
  | alike h => exact h.closeLeaf.codes
  | shallow h hs => rw [h.left.closeLeaf.2, h.right.closeLeaf.2, h.codes]

/-- A line that is left alone is read in step. -/
theorem InStep.readLine (h : state.InStep state' (line :: more)) (hm : more.isEmpty = more'.isEmpty)
    (tasks : Bool) (start start' : Nat)
    (hn : opensBlank (joinLines more) = opensBlank (joinLines more') ∨
      (opensBlank (joinLines more) = false ∧ ¬ (state.readLine tasks start line more).InEmptyItem)) :
    (state.readLine tasks start line more).InStep (state'.readLine tasks start' line more') more := by
  cases h with
  | alike h => exact .alike (h.readLine tasks start start' line hm hn)
  | shallow h hs =>
      obtain ⟨hsingle, hline⟩ := hs
      by_cases hnone : line = [] ∧ more = []
      · -- there is no line at all
        obtain ⟨rfl, rfl⟩ := hnone
        obtain rfl : more' = [] := List.isEmpty_iff.1 hm.symm
        exact .shallow h trivial
      have hne : line ≠ [] ∨ more ≠ [] := Decidable.not_and_iff_not_or_not.1 hnone
      have hne' : line ≠ [] ∨ more' ≠ [] := hne.imp_right fun hmore hnil => by
        rw [hnil, List.isEmpty_nil, List.isEmpty_iff] at hm
        exact hmore hm
      rw [readLine_single hsingle hne, readLine_single hsingle hne']
      have htidy := Line.endsTidily_ofSingle hsingle start more
      have htidy' := Line.endsTidily_ofSingle hsingle start' more'
      have hsame := Line.same_ofSingle start start' line hm
      -- a blank line, one that ends the item, text outside of it, and text that goes on with its
      -- paragraph
      rcases hline with ⟨hblank, hsettles⟩ | hends | ⟨hleaf, hunindented⟩ | ⟨-, htext, -, hsettles⟩
      · obtain ⟨hshallow, hclosed⟩ := @ShallowAlike.takeBlankLine _ _ (.ofSingle start line more)
          (.ofSingle start' line more') h hblank hblank tasks
        exact .shallow hshallow (by rwa [hclosed])
      · exact .alike (h.takeLine hsame htidy htidy' (.inl hends) tasks)
      · exact .alike (h.takeLine hsame htidy htidy' (.inr ⟨hleaf, hunindented⟩) tasks)
      · obtain ⟨hshallow, hopen⟩ := @ShallowAlike.takeLine_text _ _ (.ofSingle start line more)
          (.ofSingle start' line more') h htext htext tasks
        exact .shallow hshallow (by rwa [hopen])

/-! ### Lines that are added -/

variable {tasks : Bool}

/-- A blank line above text makes no difference in an item. -/
theorem ShallowAlike.takeSpaced (h : state.ShallowAlike state') {blank line line' : Line}
    (hb : blank.text = []) (ht : (Cursor.ofLine line).AtText) (ht' : (Cursor.ofLine line').AtText) :
    (state.takeLine tasks line).ShallowAlike ((state'.takeLine tasks blank).takeLine tasks line') ∧
      (state.takeLine tasks line).leaf.isSome = true := by
  obtain ⟨hblank, -, hcodes⟩ := h.right.takeBlankLine hb tasks
  obtain ⟨hleft, hopen, hcodesLeft⟩ := h.left.takeLine_text ht tasks
  obtain ⟨hright, hopenRight, hcodesRight⟩ := hblank.takeLine_text ht' tasks
  exact ⟨⟨hleft, hright, by rw [hopen, hopenRight], by rw [hcodesLeft, hcodesRight, hcodes, h.codes]⟩,
    hopen⟩

/-- Nor does an item below it. -/
theorem ShallowAlike.takeRepeated (h : state.ShallowAlike state') {line line' seed : Line}
    (ht : (Cursor.ofLine line).AtText) (ht' : (Cursor.ofLine line').AtText)
    (ho : (Cursor.ofLine seed).OpensItem) (hs : seed.EndsTidily) :
    (state.takeLine tasks line).ShallowAlike ((state'.takeLine tasks line').takeLine tasks seed) ∧
      (state.takeLine tasks line).leaf.isSome = true := by
  obtain ⟨htaken, hopen⟩ := h.takeLine_text ht ht' tasks
  obtain ⟨hright, hopenRight, hcodes⟩ := htaken.right.takeLine_item ho hs tasks
  exact ⟨⟨htaken.left, hright, by rw [hopen, hopenRight], by rw [hcodes, htaken.codes]⟩, hopen⟩

namespace InStep

variable (h : state.InStep state' (line :: more)) (hh : IsHarmless state line more)
  (start start' start'' : Nat)

include h hh

/-- A definition that gets a blank line above it is read in step. -/
theorem readLine_spaced (hm : more.isEmpty = more'.isEmpty) :
    (state.readLine tasks start line more).InStep
      ((state'.readLine tasks start' [] (line :: more')).readLine tasks start'' line more') more := by
  have hne := hh.ne_nil
  have hsame := Line.same_ofSingle start start'' line hm
  have hplain := hh.atText start more
  have hplain' := hh.atText start'' more'
  have hempty : (Line.ofSingle start' [] (line :: more')).text = [] := rfl
  rw [readLine_single hh.single (.inl hne), readLine_single hh.single (.inl hne),
    readLine_single isSingle_nil (.inr (List.cons_ne_nil _ _))]
  cases h with
  | alike h =>
      rcases hh.added with ⟨hclear, -⟩ | ⟨hshallow, -, hsettles⟩
      · exact .alike (hclear.takeBlankLine_takeLine h hempty rfl hplain hplain' tasks)
      · obtain ⟨hspaced, hopen⟩ := (ShallowAlike.of_alike hshallow h).takeSpaced hempty
          hplain.toAtText hplain'.toAtText
        exact .shallow hspaced (by rwa [hopen])
  | shallow h hs =>
      rcases hs.of_text hh.text.toAtText with hclosed | ⟨-, hsettles⟩
      · -- the blank line closes the paragraph of the item; the line is outside of it in both texts then
        obtain ⟨hblank, hnone, hcodes⟩ := h.right.takeBlankLine hempty tasks
        have hspaced :
            state.ShallowAlike (state'.takeLine tasks (.ofSingle start' [] (line :: more'))) :=
          ⟨h.left, hblank, by rw [hclosed, hnone, Option.isSome_none], by rw [hcodes, h.codes]⟩
        exact .alike (hspaced.takeLine hsame (Line.endsTidily_ofSingle hh.single _ _)
          (Line.endsTidily_ofSingle hh.single _ _) (.inr ⟨hclosed, hplain.toAtText.isUnindented⟩) tasks)
      · obtain ⟨hspaced, hopen⟩ := h.takeSpaced hempty hplain.toAtText hplain'.toAtText
        exact .shallow hspaced (by rwa [hopen])

/-- A definition whose item is repeated below it is read in step. -/
theorem readLine_repeated {marker : Marker} (hmarker : definitionMarker? line = some marker) :
    (state.readLine tasks start line more).InStep
      ((state'.readLine tasks start' line (seedLine marker line :: more')).readLine tasks start''
        (seedLine marker line) more') more := by
  have hne := hh.ne_nil
  have hplain := hh.atText start more
  have hplain' := hh.atText start' (seedLine marker line :: more')
  have hseed := isSingle_seedLine hh.single marker
  have htidy := Line.endsTidily_ofSingle hseed start'' more'
  have hrepeated (hs : state.ShallowAlike state') (hr : RepeatsAsItem marker line)
      (hsettles : Settles true more) :
      (state.takeLine tasks (.ofSingle start line more)).InStep
        ((state'.takeLine tasks (.ofSingle start' line (seedLine marker line :: more'))).takeLine tasks
          (.ofSingle start'' (seedLine marker line) more')) more := by
    obtain ⟨htaken, hopen⟩ := hs.takeRepeated hplain.toAtText hplain'.toAtText
      (hr.opensItem start'' more') htidy
    exact .shallow htaken (by rwa [hopen])
  rw [readLine_single hh.single (.inl hne), readLine_single hh.single (.inl hne),
    readLine_single hseed (.inl (seedLine_ne_nil marker line))]
  cases h with
  | alike h =>
      rcases hh.added with ⟨hclear, hr⟩ | ⟨hshallow, hr, hsettles⟩
      · exact .alike (hclear.takeLine_repetition h hplain hplain'
          ((hr marker hmarker).atText start'' more') tasks)
      · exact hrepeated (.of_alike hshallow h) (hr marker hmarker) hsettles
  | shallow h hs =>
      rcases hs.of_text hh.text.toAtText with hclosed | ⟨hr, hsettles⟩
      · rcases hh.added with ⟨-, hr⟩ | ⟨-, hr, hsettles⟩
        · -- the paragraph is outside of the item in both texts, and goes on with the repetition
          obtain ⟨hnone, hnone'⟩ := h.leaf_eq_none hclosed
          have hcodes := (h.takeLine_text hplain.toAtText hplain'.toAtText tasks).1.codes
          have hleft := h.left.inText_takeLine hnone hplain tasks
          have hright := h.right.inText_takeLine hnone' hplain' tasks
          obtain ⟨hgone, hseeded⟩ := hright.takeLine ((hr marker hmarker).atText start'' more') tasks
          exact .alike (hleft.alike hgone (by rw [hseeded, hcodes]))
        · exact hrepeated h (hr marker hmarker) hsettles
      · exact hrepeated h (hr marker hmarker) hsettles

end InStep

end BlockState

end Markdown

end DefinitionLists
