/-
Module: DefinitionLists.Proofs.FencedCode
Purpose: The rewriting of lines keeps the code of a document where it adds lines to running text only. It
  takes any line of backticks or tildes for the end of fenced code, and adds lines to the code then.
Main exports: AddsToText, codes_prenormalize, fencedValues_prenormalize
-/
import DefinitionLists.Proofs.FencedCode.AddedLines

namespace DefinitionLists

open Markdown
open Markdown.BlockState (after after_append read read_joinLines_cons)
open Text (byteLength joinLines splitLines)

/-! ### Code of documents -/

namespace Markdown

/-- At the end of a document all of its code is done. -/
theorem BlockState.codes_finish (stop : Nat) (state : BlockState) :
    (state.finish stop).codes = state.closeLeaf.codes := by
  have hframes : (popMany stop state.closeLeaf.frames.length state.closeLeaf).frames = [] := by
    rw [frames_eq_nil_iff, kinds_popMany, kinds, List.drop_eq_nil_iff, List.length_map]
  have hcodes := codes_popMany stop state.closeLeaf.frames.length state.closeLeaf
  rw [← hcodes, BlockState.codes, hframes, List.map_nil, List.reverse_nil, List.flatten_nil,
    List.append_nil]
  rfl

end Markdown

/-! ### The rewriting -/

/-- A line stays alone, gets a blank line above it, or is repeated as an item. -/
theorem LineState.take_cases (state : LineState) (line : List Char) :
    (state.take line).1 = [line] ∨
      ((state.take line).1 = [[], line] ∧ [':', ' '].isPrefixOf line = true) ∨
      ∃ marker, definitionMarker? line = some marker ∧
        (state.take line).1 = [line, seedLine marker line] := by
  unfold take
  split
  · exact .inl rfl
  · split
    · exact .inl rfl
    · split
      · next marker hmarker => exact .inr (.inr ⟨marker, hmarker, rfl⟩)
      · split
        · next hprefix =>
            simp only
            split
            · exact .inl rfl
            · exact .inr (.inl ⟨rfl, hprefix⟩)
        · exact .inl rfl

theorem LineState.takeAll_eq (state : LineState) (line : List Char) (more : List (List Char)) :
    state.takeAll (line :: more) = (state.take line).1 ++ (state.take line).2.takeAll more :=
  rfl

theorem LineState.isEmpty_takeAll (state : LineState) (lines : List (List Char)) :
    (state.takeAll lines).isEmpty = lines.isEmpty := by
  cases lines with
  | nil => rfl
  | cons line more =>
      rw [takeAll_eq]
      rcases state.take_cases line with heq | ⟨heq, -⟩ | ⟨marker, -, heq⟩ <;> simp [heq]

/-- Whether no line that is added to the lines of a text makes a difference to code; `front` is all that
stands before them. -/
def AddsToTextFrom (tasks : Bool) (front : List Char) (state : LineState) : List (List Char) → Prop
  | [] => True
  | line :: more =>
    ((state.take line).1 ≠ [line] →
      IsHarmless (after tasks front (joinLines (line :: more))) line more) ∧
    AddsToTextFrom tasks (front ++ (line ++ ['\n'])) (state.take line).2 more

/-- Whether the rewriting of lines adds lines to running text only, outside of fenced code, of HTML, and
of containers that its lines would end or go on with. -/
def AddsToText (tasks : Bool) (source : List Char) : Prop :=
  AddsToTextFrom tasks [] {} (splitLines source)

instance decidableAddsToTextFrom (tasks : Bool) :
    (front : List Char) → (state : LineState) → (lines : List (List Char)) →
      Decidable (AddsToTextFrom tasks front state lines)
  | _, _, [] => isTrue trivial
  | front, state, line :: more =>
    have := decidableAddsToTextFrom tasks (front ++ (line ++ ['\n'])) (state.take line).2 more
    inferInstanceAs (Decidable ((_ → IsHarmless _ line more) ∧ _))

instance (tasks : Bool) (source : List Char) : Decidable (AddsToText tasks source) :=
  decidableAddsToTextFrom tasks [] {} (splitLines source)

/-- The rewriting adds no blank line where an empty item is open. -/
theorem AddsToTextFrom.lookahead {tasks : Bool} {front : List Char} {state : LineState}
    {lines : List (List Char)} (h : AddsToTextFrom tasks front state lines) :
    opensBlank (joinLines lines) = opensBlank (joinLines (state.takeAll lines)) ∨
      (opensBlank (joinLines lines) = false ∧
        ¬ (after tasks front (joinLines lines)).InEmptyItem) := by
  cases lines with
  | nil => exact .inl rfl
  | cons line more =>
      rw [LineState.takeAll_eq]
      rcases state.take_cases line with heq | ⟨heq, hprefix⟩ | ⟨marker, -, heq⟩
      · rw [heq, List.singleton_append, opensBlank_joinLines, opensBlank_joinLines]
        exact .inl rfl
      · refine .inr ⟨?_, ?_⟩
        · obtain ⟨text, rfl⟩ := List.isPrefixOf_iff_prefix.1 hprefix
          exact opensBlank_joinLines _ more
        rcases (h.1 (by simp [heq])).added with ⟨hclear, -⟩ | ⟨hshallow, -⟩
        · exact fun hitem => hitem.1 hclear.frames
        · exact hshallow.fresh
      · rw [heq, List.cons_append, opensBlank_joinLines, opensBlank_joinLines]
        exact .inl rfl

/-- Both texts are read in step from a line on if they were up to it. -/
theorem AddsToTextFrom.codes_read {tasks : Bool} {front : List Char} {known : LineState}
    {lines : List (List Char)} (h : AddsToTextFrom tasks front known lines) (hf : IsClosed front)
    {start start' : Nat} {state state' : BlockState}
    (hs : lines ≠ [] → start = byteLength front ∧ state = after tasks front (joinLines lines))
    (hi : state.InStep state' lines) :
    (read tasks start (joinLines lines) state).closeLeaf.codes =
      (read tasks start' (joinLines (known.takeAll lines)) state').closeLeaf.codes := by
  -- a line is read in both texts with what is added to it, which leaves the states in step
  induction lines generalizing front known start start' state state' with
  | nil => exact hi.codes_closeLeaf
  | cons line more ih =>
      obtain ⟨hadds, hmore⟩ := h
      obtain ⟨rfl, rfl⟩ := hs (List.cons_ne_nil _ _)
      have hempty := (LineState.isEmpty_takeAll (known.take line).2 more).symm
      have hnext : more ≠ [] → byteLength front + byteLength (line ++ lineEnd false more) =
            byteLength (front ++ (line ++ ['\n'])) ∧
          (after tasks front (joinLines (line :: more))).readLine tasks (byteLength front) line more =
            after tasks (front ++ (line ++ ['\n'])) (joinLines more) := by
        intro hne
        rw [← after_append hf, lineEnd_of_ne_nil hne]
        exact ⟨(Text.byteLength_append _ _).symm, rfl⟩
      -- the first line of what is left is the same in both texts, unless one is added before it
      have hahead : opensBlank (joinLines more) =
            opensBlank (joinLines ((known.take line).2.takeAll more)) ∨
          (opensBlank (joinLines more) = false ∧
            ¬ ((after tasks front (joinLines (line :: more))).readLine tasks (byteLength front) line
              more).InEmptyItem) := by
        cases more with
        | nil => exact .inl rfl
        | cons next more =>
            rw [(hnext (List.cons_ne_nil _ _)).2]
            exact hmore.lookahead
      rw [read_joinLines_cons, LineState.takeAll_eq]
      generalize after tasks front (joinLines (line :: more)) = state at hi hadds hahead hnext ⊢
      have hclosed : IsClosed (front ++ (line ++ ['\n'])) := .inr (by simp)
      -- the line stays alone, gets a blank line above it, or is repeated below it
      rcases known.take_cases line with heq | ⟨heq, -⟩ | ⟨marker, hmarker, heq⟩
      · rw [heq, List.singleton_append, read_joinLines_cons]
        exact ih hmore hclosed hnext (hi.readLine hempty tasks _ _ hahead)
      · have hharmless := hadds (by simp [heq])
        rw [heq, List.cons_append, List.singleton_append, read_joinLines_cons, read_joinLines_cons]
        exact ih hmore hclosed hnext (hi.readLine_spaced hharmless _ _ _ hempty)
      · have hharmless := hadds (by simp [heq])
        rw [heq, List.cons_append, List.singleton_append, read_joinLines_cons, read_joinLines_cons]
        exact ih hmore hclosed hnext (hi.readLine_repeated hharmless _ _ _ hmarker)

/-- Where lines are added to running text only, the code of a document stays as it is. -/
theorem codes_prenormalize {tasks : Bool} {source : List Char} (h : AddsToText tasks source) :
    (Document.ofText tasks (prenormalize source)).codes = (Document.ofText tasks source).codes := by
  have hread := @AddsToTextFrom.codes_read tasks [] {} (splitLines source) h (.inl rfl) 0 0 {} {}
    (fun _ => ⟨rfl, rfl⟩) (.alike (.refl _))
  rw [Text.joinLines_splitLines] at hread
  rw [← BlockState.finish_read, ← BlockState.finish_read, BlockState.codes_finish,
    BlockState.codes_finish]
  exact hread.symm

/-- Where lines are added to running text only, fenced code holds what it held before, and so does all
code in the tree of the text. -/
theorem fencedValues_prenormalize {tasks : Bool} {source : List Char} (h : AddsToText tasks source) :
    (Document.ofText tasks (prenormalize source)).fencedValues =
        (Document.ofText tasks source).fencedValues ∧
      (Node.ofMarkdown tasks (prenormalize source)).codeValues =
        (Node.ofMarkdown tasks source).codeValues := by
  have hcodes := codes_prenormalize h
  constructor
  · rw [Document.fencedValues, Document.fencedValues, hcodes]
  · rw [codeValues_ofMarkdown, codeValues_ofMarkdown, hcodes]

/-- Definitions with items and without them are rewritten, and one in fenced code is left alone. -/
theorem fencedValues_prenormalize_definitions :
    AddsToText false "T\n: x\n: - a\n  - b\n\nU\n: 1. c\n\n~~~\n: y\n~~~\n".toList ∧
      (Document.ofText false
        (prenormalize "T\n: x\n: - a\n  - b\n\nU\n: 1. c\n\n~~~\n: y\n~~~\n".toList)).fencedValues =
      (Document.ofText false
        "T\n: x\n: - a\n  - b\n\nU\n: 1. c\n\n~~~\n: y\n~~~\n".toList).fencedValues := by
  have hadds : AddsToText false "T\n: x\n: - a\n  - b\n\nU\n: 1. c\n\n~~~\n: y\n~~~\n".toList := by
    decide +kernel
  exact ⟨hadds, (fencedValues_prenormalize hadds).1⟩

/-- A shorter run of its character does not end fenced code, but the rewriting takes it for the end, and
adds a blank line to the code. -/
theorem not_fencedValues_prenormalize : ¬ ∀ (tasks : Bool) (source : List Char),
    (Document.ofText tasks (prenormalize source)).fencedValues =
      (Document.ofText tasks source).fencedValues := by
  have hne : (Document.ofText false (prenormalize "~~~~\n~~~\n: x\n~~~~\n".toList)).fencedValues ≠
      (Document.ofText false "~~~~\n~~~\n: x\n~~~~\n".toList).fencedValues := by
    decide +kernel
  exact fun h => hne (h false _)

end DefinitionLists
