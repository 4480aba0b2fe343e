/-
Module: DefinitionLists.Proofs.Written.Paragraphs
Purpose: Paragraphs that are written with a blank line between each two of them are read one by one.
Main exports: apart, IsParagraph, StandsFor, BlockState.finish_read_apart,
  Node.children_ofMarkdown_paragraphs
-/
import DefinitionLists.Proofs.Written.Formation

namespace DefinitionLists

open Markdown Markdown.BlockState
open Text (byteLength)

/-- Paragraphs line by line, with a blank line between each two of them. -/
def apart : List (List (List Char)) → List (List Char)
  | [] => []
  | [paragraph] => paragraph
  | paragraph :: more => paragraph ++ [] :: apart more

/-- A blank line comes after a paragraph if others follow. -/
theorem exists_apart_cons (paragraph : List (List Char)) (more : List (List (List Char))) :
    ∃ rest, apart (paragraph :: more) = paragraph ++ rest ∧
      (more = [] ∧ rest = [] ∨ more ≠ [] ∧ rest = [] :: apart more) := by
  cases more with
  | nil => exact ⟨[], (List.append_nil _).symm, .inl ⟨rfl, rfl⟩⟩
  | cons next more => exact ⟨_, rfl, .inr ⟨by simp, rfl⟩⟩

/-- Whether lines are written as one paragraph: the first opens with a letter or a colon, and the others
go on with it. -/
def IsParagraph (written : List (List Char)) : Prop :=
  ∃ c after conts, written = (c :: after) :: conts ∧ opensText c = true ∧ c.isDigit = false ∧
    Unbroken (c :: after) ∧ ∀ line ∈ conts, Unbroken line ∧ Continues line

theorem apart_ne_nil {paragraphs : List (List (List Char))} (hne : paragraphs ≠ [])
    (h : ∀ written ∈ paragraphs, written ≠ []) : apart paragraphs ≠ [] := by
  obtain ⟨first, more, rfl⟩ := List.exists_cons_of_ne_nil hne
  obtain ⟨rest, hapart, -⟩ := exists_apart_cons first more
  rw [hapart]
  exact List.append_ne_nil_of_left_ne_nil (h first (by simp)) rest

theorem IsParagraph.ne_nil {written : List (List Char)} (h : IsParagraph written) : written ≠ [] := by
  obtain ⟨c, after, conts, rfl, -⟩ := h
  simp

namespace Markdown

/-- Whether a block is the paragraph that lines are read as: it stands where they do, and holds the word
if they are one. -/
def Block.StandsFor (source : List Char) (written : List (List Char)) (block : Block) : Prop :=
  ∃ span content closed, block = .paragraph span none content ∧
    span.read? source = some (writeLines closed written) ∧
    ∀ word : Word, written = [word.chars] → content = Symbol.ofChars word.chars

namespace BlockState

/-- The lines of a paragraph are read as one. -/
theorem read_isParagraph {written : List (List Char)} (h : IsParagraph written)
    (rest : List (List Char)) (tasks closed blank : Bool) (start : Nat) (done : List Block) :
    ∃ lines, read tasks start (writeLines closed (written ++ rest)) (between done blank) =
        read tasks (start + byteLength (writeLines (closed || !rest.isEmpty) written))
          (writeLines closed rest) (inParagraph done lines) ∧
      TextLine.Reach start
        (start + byteLength (writeLines (closed || !rest.isEmpty) written)) lines ∧
      ∀ word : Word, written = [word.chars] →
        Symbol.ofLines lines.reverse = Symbol.ofChars word.chars := by
  obtain ⟨c, after, conts, rfl, hc, hd, hunbroken, hconts⟩ := h
  cases conts with
  | nil =>
      obtain ⟨line, hread, htext, hreach⟩ :=
        read_opening hc hd hunbroken rest tasks closed blank start done
      refine ⟨[line], hread, hreach, fun word hword => ?_⟩
      rw [List.reverse_singleton]
      exact ofLines_word (htext.trans (List.singleton_inj.1 hword))
  | cons next more =>
      obtain ⟨lines, hread, hreach⟩ :=
        read_paragraph hc hd hunbroken hconts rest tasks closed blank start done
      exact ⟨lines, hread, hreach, fun word hword => by simp at hword⟩

/-- The blank line after a paragraph ends it. -/
theorem read_blank {start stop : Nat} {lines : List TextLine} (h : TextLine.Reach start stop lines)
    {rest : List (List Char)} (hr : rest ≠ []) (tasks closed : Bool) (done : List Block) :
    read tasks stop (writeLines closed ([] :: rest)) (inParagraph done lines) =
      read tasks (stop + 1) (writeLines closed rest)
        (between (.paragraph ⟨start, stop⟩ none (Symbol.ofLines lines.reverse) :: done) true) := by
  have hflag : (closed || !rest.isEmpty) = true := by simp [hr]
  have hone : byteLength (writeLines true [[]]) = 1 := rfl
  rw [read_writeLines (by simp [Unbroken]) (.inr hr), takeLine_blank rfl h, hflag, hone]

/-- Paragraphs with blank lines between them are read as blocks in order. -/
theorem finish_read_apart {paragraphs : List (List (List Char))}
    (h : ∀ written ∈ paragraphs, IsParagraph written) (tasks closed blank : Bool)
    {before : List (List Char)} {source : List Char}
    (hs : source = writeLines closed (before ++ apart paragraphs)) (done : List Block)
    (length : Nat) :
    ∃ blocks, (read tasks (byteLength (writeLines true before)) (writeLines closed (apart paragraphs))
        (between done blank)).finish length = ⟨done.reverse ++ blocks, []⟩ ∧
      List.Forall₂ (Block.StandsFor source) paragraphs blocks := by
  -- `before` are the lines that were read so far, so its bytes are where the next paragraph starts
  induction paragraphs generalizing before done blank with
  | nil =>
      refine ⟨[], ?_, .nil⟩
      rw [apart, read_nil]
      simp [finish, closeLeaf, between, popMany]
  | cons written more ih =>
      obtain ⟨hwritten, hmore⟩ := List.forall_mem_cons.1 h
      obtain ⟨rest, hapart, hrest⟩ := exists_apart_cons written more
      obtain ⟨lines, hread, hreach, hword⟩ := read_isParagraph hwritten rest tasks closed blank
        (byteLength (writeLines true before)) done
      have hspan := Span.read?_writeLines closed before hwritten.ne_nil rest
      rw [← hapart, ← hs] at hspan
      have hstands : Block.StandsFor source written (.paragraph ⟨byteLength (writeLines true before),
          byteLength (writeLines true before) +
            byteLength (writeLines (closed || !rest.isEmpty) written)⟩ none
          (Symbol.ofLines lines.reverse)) := ⟨_, _, _, rfl, hspan, hword⟩
      rcases hrest with ⟨rfl, rfl⟩ | ⟨hne, rfl⟩
      · refine ⟨[_], ?_, .cons hstands .nil⟩
        rw [hapart, hread, read_nil, finish_inParagraph hreach]
      · simp only [List.isEmpty_cons, Bool.not_false, Bool.or_true] at hread hreach hstands
        have hnext := apart_ne_nil hne fun written hm => (hmore written hm).ne_nil
        have hoffset : byteLength (writeLines true before) + byteLength (writeLines true written) + 1 =
            byteLength (writeLines true (before ++ written ++ [[]])) := by
          rw [writeLines_append, writeLines_append, Text.byteLength_append, Text.byteLength_append]
          rfl
        have hlater : source = writeLines closed ((before ++ written ++ [[]]) ++ apart more) := by
          rw [hs, hapart]
          simp
        obtain ⟨blocks, hfinish, hblocks⟩ := ih hmore true hlater
          (.paragraph ⟨byteLength (writeLines true before), byteLength (writeLines true before) +
            byteLength (writeLines true written)⟩ none (Symbol.ofLines lines.reverse) :: done)
        refine ⟨_ :: blocks, ?_, .cons hstands hblocks⟩
        rw [hapart, hread, read_blank hreach hnext, hoffset, hfinish, List.reverse_cons,
          List.append_assoc]
        rfl

end BlockState

end Markdown

/-- Whether a node is the paragraph that lines are read as. -/
def Node.StandsFor (source : List Char) (written : List (List Char)) (node : Node) : Prop :=
  ∃ span children closed, node = .branch (.container .paragraph none (some span)) children ∧
    span.read? source = some (writeLines closed written) ∧
    ∀ word : Word, written = [word.chars] → children = [.text word.string]

/-- Paragraphs with blank lines between them are read as paragraphs in order. -/
theorem Node.children_ofMarkdown_paragraphs {paragraphs : List (List (List Char))}
    (h : ∀ written ∈ paragraphs, IsParagraph written) (extended closed : Bool) {source : List Char}
    (hs : source = writeLines closed (apart paragraphs)) :
    List.Forall₂ (StandsFor source) paragraphs (ofMarkdown extended source).children := by
  obtain ⟨blocks, hfinish, hblocks⟩ :=
    @finish_read_apart paragraphs h extended closed false [] source hs [] (byteLength source)
  have hdocument : Document.ofText extended source = ⟨blocks, []⟩ := by
    rw [← finish_read, hs] at *
    exact hfinish
  rw [children_ofMarkdown, hdocument, List.forall₂_map_right_iff]
  refine hblocks.imp fun written block hblock => ?_
  obtain ⟨span, content, closed, rfl, hread, hword⟩ := hblock
  refine ⟨span, _, closed, Block.node_paragraph _ _ _ _ _, hread, fun word hw => ?_⟩
  rw [hword word hw, Dialect.textNodes_word]
  rfl

end DefinitionLists
