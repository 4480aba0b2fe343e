/-
Module: DefinitionLists.Proofs.Written.Documents
Purpose: The blocks of documents that are written of words: a paragraph, items of a list, and a
  paragraph with items after it.
Main exports: Continues, BlockState.read, BlockState.finish_read, BlockState.read_paragraph,
  BlockState.HoldsItems, BlockState.holdsItems_read, BlockState.finish_read_bullets
-/
import DefinitionLists.Definition.Details
import DefinitionLists.Proofs.Written.Lines
import DefinitionLists.Proofs.Written.Steps

namespace DefinitionLists.Markdown

open Text (byteLength)

/-- Whether the line goes on with a paragraph before it. -/
def Continues (line : List Char) : Prop :=
  ∃ indent c rest, line = List.replicate indent ' ' ++ c :: rest ∧ indent ≤ 4 ∧ opensText c = true ∧
    (indent = 4 ∨ ∀ nextIsBlank, interruptsAsItem true nextIsBlank (c :: rest) = false)

theorem Continues.ne_nil {line : List Char} (h : Continues line) : line ≠ [] := by
  obtain ⟨indent, c, rest, rfl, -⟩ := h
  simp

theorem unbroken_append {first second : List Char} (hf : Unbroken first) (hs : Unbroken second) :
    Unbroken (first ++ second) := by
  intro c hc
  rcases List.mem_append.1 hc with hc | hc
  · exact hf c hc
  · exact hs c hc

theorem unbroken_word (word : Word) : Unbroken word.chars := by
  intro c hc
  have hletter := word.letters c hc
  exact ⟨ne_of_class hletter (by decide), ne_of_class hletter (by decide)⟩

theorem unbroken_written {marker : Marker} (h : marker.IsWritten) : Unbroken marker.written := by
  intro c hc
  cases marker with
  | bullet d =>
      obtain rfl : d = '-' := h
      obtain rfl : c = '-' := by simpa [Marker.written] using hc
      decide
  | ordinal value =>
      rcases List.mem_append.1 hc with hc | hc
      · have hdigit : c.isDigit = true := Nat.isDigit_of_mem_toDigits (by decide) (by decide) hc
        exact ⟨ne_of_class hdigit (by decide), ne_of_class hdigit (by decide)⟩
      · obtain rfl : c = '.' := by simpa using hc
        decide

/-- No line ends within the line of an item. -/
theorem unbroken_itemText (indent : Nat) {marker : Marker} (h : marker.IsWritten) (word : Word) :
    Unbroken (itemText indent marker word) := by
  have hspace : Unbroken [' '] := by
    intro c hc
    obtain rfl : c = ' ' := by simpa using hc
    decide
  have hspaces : Unbroken (List.replicate indent ' ') := by
    intro c hc
    exact hspace c (by simp [List.eq_of_mem_replicate hc])
  exact unbroken_append hspaces
    (unbroken_append (unbroken_written h) (unbroken_append hspace (unbroken_word word)))

namespace BlockState

/-- The state after the lines of a text that stands at a byte offset. -/
def read (tasks : Bool) (start : Nat) (text : List Char) (state : BlockState) : BlockState :=
  (Line.splitFrom start [] text).foldl (takeLine tasks) state

/-- The document at the end of a text. -/
def finish (stop : Nat) (state : BlockState) : Document :=
  let state := state.closeLeaf
  let state := popMany stop state.frames.length state
  ⟨state.done.reverse, state.targets⟩

theorem finish_read (tasks : Bool) (text : List Char) :
    (read tasks 0 text (between [] false)).finish (byteLength text) = Document.ofText tasks text :=
  rfl

theorem read_nil (tasks closed : Bool) (start : Nat) (state : BlockState) :
    read tasks start (writeLines closed []) state = state := by
  rw [writeLines_nil]
  rfl

/-- The line that is written first is taken first. -/
theorem read_writeLines {text : List Char} {more : List (List Char)} (h : Unbroken text)
    (hne : text ≠ [] ∨ more ≠ []) (tasks closed : Bool) (start : Nat) (state : BlockState) :
    read tasks start (writeLines closed (text :: more)) state =
      read tasks (start + byteLength (writeLines (closed || !more.isEmpty) [text]))
        (writeLines closed more) (state.takeLine tasks (.written closed start text more)) := by
  rw [read, Line.splitFrom_writeLines closed start h hne, List.foldl_cons, Line.stop_written]
  rfl

/-! ### Paragraphs -/

/-- Lines that go on with a paragraph are all read into it. -/
theorem read_continuing {conts : List (List Char)}
    (h : ∀ line ∈ conts, Unbroken line ∧ Continues line) (rest : List (List Char)) (tasks closed : Bool)
    {first offset : Nat} {lines : List TextLine} (hr : TextLine.Reach first offset lines)
    (done : List Block) :
    ∃ lines', read tasks offset (writeLines closed (conts ++ rest)) (inParagraph done lines) =
        read tasks (offset + byteLength (writeLines (closed || !rest.isEmpty) conts))
          (writeLines closed rest) (inParagraph done lines') ∧
      TextLine.Reach first (offset + byteLength (writeLines (closed || !rest.isEmpty) conts)) lines' := by
  -- the lines that were read so far reach up to where the next one starts
  induction conts generalizing offset lines with
  | nil =>
      refine ⟨lines, ?_, ?_⟩
      · rw [writeLines_nil]
        rfl
      · rw [writeLines_nil]
        exact hr
  | cons text more ih =>
      obtain ⟨hunbroken, hcontinues⟩ := h text (by simp)
      have hne := hcontinues.ne_nil
      obtain ⟨indent, c, after, htext, hi, hc, hitem⟩ := hcontinues
      obtain ⟨added, htake, hstop⟩ := @takeLine_continuing
        (.written closed offset text (more ++ rest)) done c after indent htext hi hc
        (Line.endsInCarriageReturn_written _ _ _ _) hitem tasks lines
      rw [Line.stop_written] at hstop
      obtain ⟨lines', hread, hreach⟩ := ih (fun line hl => h line (by simp [hl])) (hr.next hstop)
      have hsum := byteLength_writeLines_cons closed text more rest
      refine ⟨lines', ?_, ?_⟩
      · rw [List.cons_append, read_writeLines hunbroken (.inl hne), htake, hread, hsum, Nat.add_assoc]
      · rw [hsum, ← Nat.add_assoc]
        exact hreach

/-- A line of text opens a paragraph. -/
theorem read_opening {c : Char} {after : List Char} (hc : opensText c = true) (hd : c.isDigit = false)
    (hu : Unbroken (c :: after)) (rest : List (List Char)) (tasks closed blank : Bool) (start : Nat)
    (done : List Block) :
    ∃ line, read tasks start (writeLines closed ((c :: after) :: rest)) (between done blank) =
        read tasks (start + byteLength (writeLines (closed || !rest.isEmpty) [c :: after]))
          (writeLines closed rest) (inParagraph done [line]) ∧
      line.text = c :: after ∧
      TextLine.Reach start (start + byteLength (writeLines (closed || !rest.isEmpty) [c :: after]))
        [line] := by
  obtain ⟨line, htake, htext, hreach⟩ := @takeLine_opening (.written closed start (c :: after) rest) c
    after rfl hc hd (Line.endsInCarriageReturn_written _ _ _ _) tasks blank done
  refine ⟨line, ?_, htext, ?_⟩
  · rw [read_writeLines hu (.inl (by simp)), htake]
  · rw [Line.stop_written] at hreach
    exact hreach

/-- A line of text and lines that go on with it are read as one paragraph. -/
theorem read_paragraph {c : Char} {after : List Char} (hc : opensText c = true)
    (hd : c.isDigit = false) (hu : Unbroken (c :: after)) {conts : List (List Char)}
    (h : ∀ line ∈ conts, Unbroken line ∧ Continues line) (rest : List (List Char))
    (tasks closed blank : Bool) (start : Nat) (done : List Block) :
    ∃ lines, read tasks start (writeLines closed ((c :: after) :: conts ++ rest)) (between done blank) =
        read tasks (start + byteLength (writeLines (closed || !rest.isEmpty) ((c :: after) :: conts)))
          (writeLines closed rest) (inParagraph done lines) ∧
      TextLine.Reach start
        (start + byteLength (writeLines (closed || !rest.isEmpty) ((c :: after) :: conts))) lines := by
  obtain ⟨line, hopen, -, hfirst⟩ := read_opening hc hd hu (conts ++ rest) tasks closed blank start done
  obtain ⟨lines, hmore, hreach⟩ := read_continuing h rest tasks closed hfirst done
  have hsum := byteLength_writeLines_cons closed (c :: after) conts rest
  refine ⟨lines, ?_, ?_⟩
  · rw [List.cons_append, hopen, hmore, hsum, ← Nat.add_assoc]
  · rw [hsum, ← Nat.add_assoc]
    exact hreach

/-! ### Items -/

/-- Whether a tight list outside of other containers holds items of the words, each after its first line,
the last of them still open. The list's items stand further in than `outer` columns. -/
def HoldsItems (done : List Block) (char : Char) (number outer : Nat) (words : List Word)
    (state : BlockState) : Prop :=
  ∃ items inner content before last, state = inItem done char number items inner content ∧
    words = before ++ [last] ∧ List.Forall₂ Block.IsWordItem before items.reverse ∧
    content.text = last.chars ∧ outer < inner

section Items

variable {done : List Block} {char : Char} {number indent : Nat} {words : List Word}
  {state : BlockState}

/-- The line of another item adds its word. -/
theorem HoldsItems.takeLine (h : state.HoldsItems done char number indent words) (hi : indent ≤ 3)
    {marker : Marker} (hm : marker.IsWritten) (hc : marker.delimiter = char) {word : Word} {line : Line}
    (htext : line.text = itemText indent marker word) (hl : line.endsInCarriageReturn = false)
    (tasks : Bool) :
    (state.takeLine tasks line).HoldsItems done char number indent (words ++ [word]) := by
  obtain ⟨items, inner, content, before, last, rfl, rfl, hitems, hcontent, hinner⟩ := h
  subst hc
  obtain ⟨item, content', htake, hitem, hcontent'⟩ := @takeLine_nextItem line done marker hm word
    indent hi htext hl tasks number inner items content hinner last hcontent
  refine ⟨item :: items, _, content', before ++ [last], word, htake, rfl, ?_, hcontent', by omega⟩
  rw [List.reverse_cons]
  exact List.rel_append hitems (.cons hitem .nil)

/-- The lines of items add their words in order. -/
theorem HoldsItems.read {marked : List (Marker × Word)}
    (hm : ∀ item ∈ marked, item.1.IsWritten ∧ item.1.delimiter = char) (hi : indent ≤ 3)
    (h : state.HoldsItems done char number indent words) (tasks closed : Bool) (start : Nat) :
    (read tasks start (writeLines closed (itemTexts indent marked)) state).HoldsItems done char number
      indent (words ++ marked.map Prod.snd) := by
  induction marked generalizing start state words with
  | nil =>
      rw [itemTexts_nil, read_nil, List.map_nil, List.append_nil]
      exact h
  | cons item more ih =>
      obtain ⟨hwritten, hchar⟩ := hm item (by simp)
      have hunbroken := unbroken_itemText indent hwritten item.2
      have hne : itemText indent item.1 item.2 ≠ [] := by simp [itemText]
      have hnext : (state.takeLine tasks
          (.written closed start (itemText indent item.1 item.2) (itemTexts indent more))).HoldsItems done
            char number indent (words ++ [item.2]) :=
        h.takeLine hi hwritten hchar rfl (Line.endsInCarriageReturn_written _ _ _ _) tasks
      have hmore := ih (fun other ho => hm other (by simp [ho])) hnext
      rw [itemTexts_cons, read_writeLines hunbroken (.inl hne), List.map_cons, List.append_cons]
      exact hmore _

/-- The lines of items make a list where nothing is open. -/
theorem holdsItems_read {first : Marker × Word} {more : List (Marker × Word)}
    (hm : ∀ item ∈ first :: more, item.1.IsWritten ∧ item.1.delimiter = first.1.delimiter)
    (hi : indent ≤ 3) (done : List Block) (tasks closed blank : Bool) (start : Nat) :
    (read tasks start (writeLines closed (itemTexts indent (first :: more)))
      (between done blank)).HoldsItems done first.1.delimiter first.1.number indent
        ((first :: more).map Prod.snd) := by
  obtain ⟨hfirst, hmore⟩ := List.forall_mem_cons.1 hm
  have hunbroken := unbroken_itemText indent hfirst.1 first.2
  have hne : itemText indent first.1 first.2 ≠ [] := by simp [itemText]
  obtain ⟨content, htake, hcontent⟩ := @takeLine_firstItem
    (.written closed start (itemText indent first.1 first.2) (itemTexts indent more)) first.1 hfirst.1
    first.2 indent hi rfl (Line.endsInCarriageReturn_written _ _ _ _) tasks blank done
  have hholds : ((between done blank).takeLine tasks (.written closed start
      (itemText indent first.1 first.2) (itemTexts indent more))).HoldsItems done first.1.delimiter
        first.1.number indent [first.2] :=
    ⟨[], _, content, [], first.2, htake, rfl, .nil, hcontent, by omega⟩
  rw [itemTexts_cons, read_writeLines hunbroken (.inl hne)]
  exact hholds.read hmore hi tasks closed _

/-- The list ends with the document. -/
theorem HoldsItems.finish (h : state.HoldsItems done char number indent words) (stop : Nat) :
    ∃ items, state.finish stop = ⟨done.reverse ++
        [.list true (if isNumberDelimiter char then some number else none) items], []⟩ ∧
      List.Forall₂ Block.IsWordItem words items := by
  obtain ⟨items, inner, content, before, last, rfl, rfl, hitems, hcontent, -⟩ := h
  obtain ⟨item, hframes, hpop, hitem⟩ := closeLeaf_inItem hcontent done char number items inner stop
  refine ⟨(item :: items).reverse, ?_, ?_⟩
  · unfold BlockState.finish
    simp only
    rw [hframes, popMany, hpop]
    simp [popMany, pop, inList, Frame.close, add]
  · rw [List.reverse_cons]
    exact List.rel_append hitems (.cons hitem .nil)

end Items

/-! ### A paragraph with items after it -/

/-- At the end of the text the open paragraph is done. -/
theorem finish_inParagraph {start stop : Nat} {lines : List TextLine}
    (h : TextLine.Reach start stop lines) (done : List Block) (length : Nat) :
    (inParagraph done lines).finish length =
      ⟨done.reverse ++ [.paragraph ⟨start, stop⟩ none (Symbol.ofLines lines.reverse)], []⟩ := by
  unfold finish
  simp only
  rw [closeLeaf_inParagraph h]
  simp [between, popMany]

/-- Items with bullets after a paragraph make a list after it, and the document ends with both. -/
theorem finish_read_bullets {start stop offset : Nat} {lines : List TextLine}
    (h : TextLine.Reach start stop lines) (done : List Block) (tasks closed : Bool)
    (words : List Word) (length : Nat) :
    ∃ lists, (read tasks offset (writeLines closed (itemTexts 2 (words.map (Marker.bullet '-', ·))))
        (inParagraph done lines)).finish length =
      ⟨done.reverse ++ .paragraph ⟨start, stop⟩ none (Symbol.ofLines lines.reverse) :: lists, []⟩ ∧
      ∀ dialect, lists.map (Block.node dialect false) =
        listOf (words.map fun word => .itemOfText word.string) := by
  have hwritten : (Marker.bullet '-').IsWritten := rfl
  cases words with
  | nil =>
      refine ⟨[], ?_, fun dialect => rfl⟩
      rw [List.map_nil, itemTexts_nil, read_nil, finish_inParagraph h]
  | cons word more =>
      have hunbroken := unbroken_itemText 2 hwritten word
      have hne : itemText 2 (.bullet '-') word ≠ [] := by simp [itemText]
      obtain ⟨content, htake, hcontent⟩ := @takeLine_interrupting
        (.written closed offset (itemText 2 (.bullet '-') word)
          (itemTexts 2 (more.map (.bullet '-', ·))))
        done _ hwritten rfl word 2 (by decide) rfl (Line.endsInCarriageReturn_written _ _ _ _) _ _ _ h
        tasks
      have hholds : ((inParagraph done lines).takeLine tasks (.written closed offset
          (itemText 2 (.bullet '-') word) (itemTexts 2 (more.map (.bullet '-', ·))))).HoldsItems
            (.paragraph ⟨start, stop⟩ none (Symbol.ofLines lines.reverse) :: done) '-' 0 2 [word] :=
        ⟨[], _, content, [], word, htake, rfl, .nil, hcontent, by decide⟩
      have hread := hholds.read (Marker.isWritten_bullets more) (by decide) tasks closed
      obtain ⟨items, hfinish, hitems⟩ := (hread _).finish length
      refine ⟨[.list true none items], ?_, fun dialect => ?_⟩
      · rw [List.map_cons, itemTexts_cons, read_writeLines hunbroken (.inl hne), hfinish]
        simp [isNumberDelimiter]
      · have hnode := Block.node_wordList dialect none hitems
        rw [List.map_singleton, hnode]
        simp [listOf, Node.bulletList, Function.comp_def]

end BlockState

end DefinitionLists.Markdown
