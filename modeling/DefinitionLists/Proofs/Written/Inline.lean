/-
Module: DefinitionLists.Proofs.Written.Inline
Purpose: A word read as running text is one text, and what surrounds it in a paragraph and an item.
Main exports: Reading.step_letter, Inline.ofSymbols_word, Dialect.textNodes_word, Block.node_wordItem
-/
import Mathlib.Data.List.Forall2
import DefinitionLists.Proofs.Markdown.Nodes
import DefinitionLists.Proofs.Written.Word

namespace DefinitionLists

/-- The word as a string. -/
def Word.string (word : Word) : String := String.ofList word.chars

namespace Markdown

/-! ### Running text -/

/-- A letter begins nothing. -/
theorem Reading.step_letter {c : Char} (h : c.isAlpha = true) (deletions : Bool) (targets : Targets)
    (state : Reading) (rest : List Symbol) :
    Reading.step deletions targets state (.char c) rest = (state.text [c], rest) := by
  have hstar : c ≠ '*' := ne_of_class h (by decide)
  have hscore : c ≠ '_' := ne_of_class h (by decide)
  have htilde : c ≠ '~' := ne_of_class h (by decide)
  have hmark {d : Char} (hd : d.isAlpha = false) : Symbol.char c ≠ .char d := by
    intro heq
    exact ne_of_class h hd (Symbol.char.inj heq)
  unfold Reading.step
  split
  · next heq => cases heq
  · next heq => exact absurd heq (hmark (by decide))
  · next heq => exact absurd heq (hmark (by decide))
  · next heq => exact absurd heq (hmark (by decide))
  · next heq => exact absurd heq (hmark (by decide))
  · next heq => exact absurd heq (hmark (by decide))
  · next heq => exact absurd heq (hmark (by decide))
  · next heq => exact absurd heq (hmark (by decide))
  · next heq =>
      cases heq
      simp [hstar, hscore, htilde]

/-- Letters after a text go on with it. -/
theorem Reading.finish_run_letters (deletions : Bool) (targets : Targets) {chars : List Char}
    (h : ∀ c ∈ chars, c.isAlpha = true) {state : Reading} {backwards : List Char}
    (hp : state.pieces = [.text backwards]) (hb : state.brackets = []) :
    (Reading.run deletions targets chars.length state (Symbol.ofChars chars)).finish =
      [.text (chars.reverse ++ backwards)] := by
  induction chars generalizing state backwards with
  | nil =>
      rw [Symbol.ofChars, List.map_nil, List.length_nil, Reading.run, Reading.finish, hb, hp]
      rfl
  | cons c rest ih =>
      have hstep := step_letter (h c (by simp)) deletions targets state (Symbol.ofChars rest)
      have hpieces : (state.text [c]).pieces = [.text (c :: backwards)] := by
        simp [Reading.text, hp, Reading.addText]
      have hrest := ih (fun d hd => h d (by simp [hd])) hpieces hb
      rw [Symbol.ofChars, List.map_cons, List.length_cons, Reading.run, ← Symbol.ofChars, hstep,
        hrest]
      simp

theorem Inline.ofSymbols_word (deletions : Bool) (targets : Targets) (word : Word) :
    Inline.ofSymbols deletions targets (Symbol.ofChars word.chars) = [.text word.chars] := by
  obtain ⟨c, rest, heq, hc, hrest⟩ := word.exists_cons
  have hstep := Reading.step_letter hc deletions targets {} (Symbol.ofChars rest)
  have hpieces : (({} : Reading).text [c]).pieces = [.text [c]] := rfl
  have hfinish := Reading.finish_run_letters deletions targets hrest hpieces rfl
  have hlength : (Symbol.ofChars word.chars).length = rest.length + 1 := by
    simp [Symbol.ofChars, heq]
  rw [Inline.ofSymbols, hlength, heq, Symbol.ofChars, List.map_cons, Reading.run, ← Symbol.ofChars,
    hstep, hfinish]
  simp [Inline.ofPieces, Pairing.take, Pairing.add, Pairing.finish, Pairing.flatten]

theorem Dialect.textNodes_word (dialect : Dialect) (word : Word) :
    dialect.textNodes (Symbol.ofChars word.chars) = [.text word.string] := by
  rw [Dialect.textNodes, Inline.ofSymbols_word]
  rfl

/-! ### Paragraphs and items -/

/-- An item with the word in it, of a tight list. -/
def Block.IsWordItem (word : Word) (block : Block) : Prop :=
  ∃ span, block = .item none [.paragraph span none (Symbol.ofChars word.chars)]

theorem Block.node_wordParagraph (dialect : Dialect) (span : Span) (word : Word) :
    (Block.paragraph span none (Symbol.ofChars word.chars)).node dialect false =
      .branch (.container .paragraph none (some span)) [.text word.string] := by
  rw [Block.node_paragraph, Dialect.textNodes_word]
  rfl

/-- The text of an item of a tight list stands in a paragraph of its own again. -/
theorem Block.node_wordItem (dialect : Dialect) {word : Word} {block : Block}
    (h : block.IsWordItem word) : block.node dialect true = .itemOfText word.string := by
  obtain ⟨span, rfl⟩ := h
  have htext : Block.addAll dialect true [.paragraph span none (Symbol.ofChars word.chars)]
      Opening.item.node = .branch (.listItem false none none) [.text word.string] := by
    rw [Block.addAll, Block.addAll, Block.bareText?, if_pos rfl]
    simp only
    rw [Dialect.addText, Dialect.textNodes_word]
    rfl
  rw [Block.node, Option.elim_none, htext]
  rfl

/-- A list of such items. -/
theorem Block.node_wordList (dialect : Dialect) (start : Option Nat) {words : List Word}
    {items : List Block} (h : List.Forall₂ Block.IsWordItem words items) :
    (Block.list true start items).node dialect false =
      .branch (.list start.isSome (start.map Nat.toUInt64) false none)
        (words.map (fun word => .itemOfText word.string)) := by
  have hnodes : (∀ block ∈ items, block.bareText? true = none) ∧
      items.map (Block.node dialect true) =
        words.map (fun word => Node.itemOfText word.string) := by
    induction h with
    | nil => simp
    | cons hitem _ ih =>
        obtain ⟨hbare, hmap⟩ := ih
        rw [List.forall_mem_cons, List.map_cons, List.map_cons, Block.node_wordItem dialect hitem, hmap]
        obtain ⟨span, rfl⟩ := hitem
        exact ⟨⟨rfl, hbare⟩, rfl⟩
  have hspread : (words.map (fun word => Node.itemOfText word.string)).any Node.isSpreadItem = false := by
    simp [Node.itemOfText, Node.isSpreadItem]
  rw [Block.node, Opening.node, Block.addAll_branch dialect hnodes.1, hnodes.2, List.nil_append,
    Node.finish, hspread, Option.isSome_map]

end Markdown

end DefinitionLists
