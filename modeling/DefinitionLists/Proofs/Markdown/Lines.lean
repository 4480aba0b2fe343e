/-
Module: DefinitionLists.Proofs.Markdown.Lines
Purpose: Where the lines of a document stand in it, and which places of a line its cursors reach.
Main exports: Text.IsCut, Text.EndsLine, Span.LiesWithin, Span.Fits, Line.StandsIn, Line.foldl_split,
  Cursor.Fits, Cursor.Fits.isCut, Cursor.Indents
-/
import DefinitionLists.Markdown.BlockStart
import DefinitionLists.Text.Blank

namespace DefinitionLists

namespace Text

/-- Whether a byte offset lies in a text and splits no character. -/
def IsCut (text : List Char) (offset : Nat) : Prop :=
  ∃ before after, text = before ++ after ∧ byteLength before = offset

theorem IsCut.le_byteLength {text : List Char} {offset : Nat} (h : IsCut text offset) :
    offset ≤ byteLength text := by
  obtain ⟨before, after, rfl, rfl⟩ := h
  rw [byteLength_append]
  exact Nat.le_add_right _ _

/-- Each character takes a byte at least. -/
theorem length_le_byteLength (text : List Char) : text.length ≤ byteLength text := by
  induction text with
  | nil => simp
  | cons c rest ih =>
      have hc := c.utf8Size_pos
      simp only [List.length_cons, byteLength_cons]
      omega

/-- Characters of one byte each take as many bytes as they are. -/
theorem byteLength_eq_length {text : List Char} (h : ∀ c ∈ text, c.utf8Size = 1) :
    byteLength text = text.length := by
  induction text with
  | nil => rfl
  | cons c rest ih =>
      rw [byteLength_cons, h c (by simp), ih fun d hd => h d (by simp [hd]), List.length_cons,
        Nat.add_comm]

theorem utf8Size_of_isDigit {c : Char} (h : c.isDigit = true) : c.utf8Size = 1 := by
  have hrange : '0'.val ≤ c.val ∧ c.val ≤ '9'.val := by simpa [Char.isDigit] using h
  rw [Char.utf8Size_eq_one_iff]
  exact UInt32.le_trans hrange.2 (by decide)

/-- Whether the character ends a line. -/
def isLineBreak (c : Char) : Bool := c == '\n' || c == '\r'

/-- Whether a text is empty or ends with the end of a line. -/
def EndsLine (text : List Char) : Prop := ∀ c ∈ text.getLast?, isLineBreak c = true

theorem drop_length_takeWhile (p : Char → Bool) (text : List Char) :
    text.drop (text.takeWhile p).length = text.dropWhile p := by
  calc text.drop (text.takeWhile p).length
      = (text.takeWhile p ++ text.dropWhile p).drop (text.takeWhile p).length := by
        rw [List.takeWhile_append_dropWhile]
    _ = text.dropWhile p := List.drop_left

end Text

namespace Span

open Text

/-- Whether both ends of a span are among the first `bound` offsets or right after them. -/
def LiesWithin (bound : Nat) (span : Span) : Prop := span.start ≤ bound ∧ span.stop ≤ bound

instance (bound : Nat) (span : Span) : Decidable (span.LiesWithin bound) :=
  inferInstanceAs (Decidable (_ ∧ _))

/-- Whether a span lies in a text, with both its ends between characters. -/
structure Fits (span : Span) (text : List Char) : Prop where
  start : IsCut text span.start
  stop : IsCut text span.stop
  ordered : span.start ≤ span.stop

theorem Fits.liesWithin {span : Span} {text : List Char} (h : span.Fits text) :
    span.LiesWithin (byteLength text) :=
  ⟨h.start.le_byteLength, h.stop.le_byteLength⟩

/-- What stands at a span that fits can be read. -/
theorem Fits.read {span : Span} {text : List Char} (h : span.Fits text) :
    ∃ piece, span.read? text = some piece := by
  obtain ⟨⟨before, rest, hrest, hstart⟩, ⟨whole, after, hafter, hstop⟩, hordered⟩ := h
  have hprefix : before <+: whole := by
    rcases List.prefix_or_prefix_of_prefix ⟨rest, hrest.symm⟩ ⟨after, hafter.symm⟩ with hp | hp
    · exact hp
    · -- the longer prefix has no more bytes than the shorter one, so both are the same
      obtain ⟨more, hmore⟩ := hp
      have hlength := length_le_byteLength more
      rw [← hmore, byteLength_append] at hstart
      obtain rfl : more = [] := List.length_eq_zero_iff.1 (by omega)
      exact ⟨[], by simpa using hmore.symm⟩
  obtain ⟨piece, rfl⟩ := hprefix
  refine ⟨piece, ?_⟩
  have hspan : span = ⟨byteLength before, byteLength before + byteLength piece⟩ := by
    cases span
    simp_all
  rw [hspan, hafter, List.append_assoc]
  exact read?_append before piece after

theorem fits_of_read {span : Span} {text piece : List Char} (h : span.read? text = some piece) :
    span.Fits text := by
  obtain ⟨before, after, rfl, hstart, hstop⟩ := read?_eq_some_iff.1 h
  refine ⟨⟨before, piece ++ after, rfl, hstart⟩, ⟨before ++ piece, after, ?_, ?_⟩, by omega⟩
  · rw [List.append_assoc]
  · rw [byteLength_append, hstop]

/-- Exactly at a span that fits something can be read. -/
theorem read?_eq_none_iff {span : Span} {text : List Char} :
    span.read? text = none ↔ ¬span.Fits text := by
  constructor
  · intro hnone hfits
    obtain ⟨piece, hpiece⟩ := hfits.read
    rw [hpiece] at hnone
    cases hnone
  · intro hfits
    cases hread : span.read? text with
    | none => rfl
    | some piece => exact absurd (fits_of_read hread) hfits

end Span

namespace Markdown

open Text (byteLength isBlank EndsLine IsCut isLineBreak)

namespace Line

/-- Whether the line is one of the document: it starts where a line before it ends. Each character of
its end takes one byte. -/
structure StandsIn (document : List Char) (line : Line) : Prop where
  place : ∃ before, document = before ++ (line.text ++ (line.ending ++ line.following)) ∧
    byteLength before = line.start ∧ EndsLine before
  ending : byteLength line.ending = line.ending.length

/-- What follows a line follows the byte offset after it. -/
theorem following_eq {document before : List Char} {line : Line}
    (hdocument : document = before ++ (line.text ++ (line.ending ++ line.following)))
    (hstart : byteLength before = line.start)
    (hending : byteLength line.ending = line.ending.length) :
    document = before ++ (line.text ++ line.ending) ++ line.following ∧
      byteLength (before ++ (line.text ++ line.ending)) = line.stop := by
  constructor
  · rw [hdocument]
    simp
  · rw [stop, Text.byteLength_append, Text.byteLength_append, hstart, hending, Nat.add_assoc]

theorem StandsIn.isCut_stop {document : List Char} {line : Line} (h : line.StandsIn document) :
    IsCut document line.stop := by
  obtain ⟨before, hdocument, hstart, -⟩ := h.place
  exact ⟨_, _, following_eq hdocument hstart h.ending⟩

theorem start_le_stop (line : Line) : line.start ≤ line.stop := by
  unfold stop
  omega

/-- Whether a line, apart from its end, lies in the first `bound` bytes of a document. -/
def LiesWithin (bound : Nat) (line : Line) : Prop := line.start + byteLength line.text ≤ bound

theorem StandsIn.liesWithin {document : List Char} {line : Line} (h : line.StandsIn document) :
    line.LiesWithin (byteLength document) := by
  have hstop := h.isCut_stop.le_byteLength
  rw [stop] at hstop
  exact Nat.le_trans (Nat.le_add_right _ _) hstop

section Folds

variable {σ : Type} {step : σ → Line → σ} {holds : Nat → σ → Prop} {document : List Char}

/-- What each line of a document carries on from its start to its stop holds at the end of the document.
-/
private theorem foldl_splitFrom
    (hstep : ∀ {line : Line} {state : σ}, line.StandsIn document → holds line.start state →
      holds line.stop (step state line))
    (start : Nat) (before rest : List Char) {done : List Char} {state : σ}
    (hdocument : document = done ++ (before.reverse ++ rest)) (hstart : byteLength done = start)
    (hends : EndsLine done) (h : holds start state) :
    holds (byteLength document) ((splitFrom start before rest).foldl step state) := by
  have hline (line : Line) {done : List Char} {state : σ}
      (hdocument : document = done ++ (line.text ++ (line.ending ++ line.following)))
      (hstart : byteLength done = line.start) (hends : EndsLine done)
      (hending : byteLength line.ending = line.ending.length) (h : holds line.start state) :
      document = done ++ (line.text ++ line.ending) ++ line.following ∧
        byteLength (done ++ (line.text ++ line.ending)) = line.stop ∧
        holds line.stop (step state line) := by
    obtain ⟨hrest, hstop⟩ := following_eq hdocument hstart hending
    exact ⟨hrest, hstop, hstep ⟨⟨done, hdocument, hstart, hends⟩, hending⟩ h⟩
  have hended {done text ending : List Char} (hlast : ∃ c, ending.getLast? = some c ∧
      isLineBreak c = true) : EndsLine (done ++ (text ++ ending)) := by
    obtain ⟨c, hlast, hbreak⟩ := hlast
    simpa [EndsLine, hlast] using hbreak
  -- `done` is the part of the document before the line that is being read
  fun_induction splitFrom start before rest generalizing done state with
  | case1 start before hempty =>
      obtain rfl : before = [] := by simpa using hempty
      have hdone : document = done := by simpa using hdocument
      rw [hdone, hstart]
      exact h
  | case2 start before hempty =>
      obtain ⟨hrest, hstop, hnext⟩ :=
        hline ⟨start, before.reverse, [], []⟩ hdocument hstart hends rfl h
      rw [List.append_nil] at hrest
      rw [hrest, hstop]
      exact hnext
  | case3 start before rest line =>
      rename_i ih
      obtain ⟨hrest, hstop, hnext⟩ := hline line hdocument hstart hends rfl h
      exact ih hrest hstop (hended ⟨'\n', rfl, rfl⟩) hnext
  | case4 start before rest line =>
      rename_i ih
      obtain ⟨hrest, hstop, hnext⟩ := hline line hdocument hstart hends rfl h
      exact ih hrest hstop (hended ⟨'\n', rfl, rfl⟩) hnext
  | case5 start before rest _ line =>
      rename_i ih
      obtain ⟨hrest, hstop, hnext⟩ := hline line hdocument hstart hends rfl h
      exact ih hrest hstop (hended ⟨'\r', rfl, rfl⟩) hnext
  | case6 start before c rest _ _ _ ih => exact ih (by simpa using hdocument) hstart hends h

/-- What every line carries on from the byte offset where it starts to the one after it holds at the
end of the document, if it holds at its start. -/
theorem foldl_split
    (hstep : ∀ {line : Line} {state : σ}, line.StandsIn document → holds line.start state →
      holds line.stop (step state line))
    {state : σ} (h : holds 0 state) :
    holds (byteLength document) ((split document).foldl step state) :=
  @foldl_splitFrom _ _ _ _ hstep 0 [] document [] _ rfl rfl (by simp [EndsLine]) h

end Folds

end Line

/-! ### Cursors

All that is taken from the front of a line is spaces, tabs and marks, each character of one byte. So
the number of characters taken is a byte offset in the line. -/

theorem utf8Size_of_isInlineSpace {c : Char} (h : isInlineSpace c = true) : c.utf8Size = 1 := by
  have hone : ((c = ' ' ∨ c = '\t') ∨ c = '\x0b') ∨ c = '\x0c' := by simpa [isInlineSpace] using h
  rcases hone with ((rfl | rfl) | rfl) | rfl <;> decide

namespace Cursor

/-- Whether the cursor stands in the text: what it took and what it left are the text. -/
def Fits (text : List Char) (cursor : Cursor) : Prop :=
  ∃ front, text = front ++ cursor.rest ∧ byteLength front = cursor.taken

theorem fits_ofLine (line : Line) : (ofLine line).Fits line.text := ⟨[], rfl, rfl⟩

variable {text : List Char} {cursor : Cursor}

/-- Where the cursor stands is an offset of the document, on the cursor's line. -/
theorem Fits.isCut {document : List Char} {line : Line} (hl : line.StandsIn document)
    (h : cursor.Fits line.text) :
    IsCut document (line.start + cursor.taken) ∧ line.start + cursor.taken ≤ line.stop := by
  obtain ⟨before, hdocument, hstart, -⟩ := hl.place
  obtain ⟨front, htext, htaken⟩ := h
  constructor
  · refine ⟨before ++ front, cursor.rest ++ (line.ending ++ line.following), ?_, ?_⟩
    · rw [hdocument, htext]
      simp
    · rw [Text.byteLength_append, hstart, htaken]
  · rw [Line.stop, htext, Text.byteLength_append, htaken]
    omega

theorem Fits.taken_le (h : cursor.Fits text) : cursor.taken ≤ byteLength text := by
  obtain ⟨front, rfl, htaken⟩ := h
  rw [Text.byteLength_append, htaken]
  exact Nat.le_add_right _ _

theorem Fits.take {c : Char} {rest : List Char} {taken : Nat} (hc : c.utf8Size = 1)
    (h : ∃ front, text = front ++ c :: rest ∧ byteLength front = taken) :
    ∃ front, text = front ++ rest ∧ byteLength front = taken + 1 := by
  obtain ⟨front, htext, htaken⟩ := h
  refine ⟨front ++ [c], by simpa using htext, ?_⟩
  rw [Text.byteLength_append, htaken, Text.byteLength_cons, Text.byteLength_nil, hc]

theorem fits_takeSpacesFrom {wanted taken column : Nat} {rest : List Char}
    (h : ∃ front, text = front ++ rest ∧ byteLength front = taken) :
    (takeSpacesFrom wanted rest taken column).2.Fits text := by
  fun_induction takeSpacesFrom wanted rest taken column with
  | case1 => exact h
  | case2 => exact h
  | case3 wanted taken column rest _ ih => exact ih (Fits.take (by decide) h)
  | case4 => exact Fits.take (by decide) h
  | case5 wanted taken column rest _ _ _ _ ih => exact ih (Fits.take (by decide) h)
  | case6 => exact h

theorem Fits.takeSpaces (h : cursor.Fits text) (wanted : Nat) :
    (cursor.takeSpaces wanted).2.Fits text := by
  unfold Cursor.takeSpaces
  split
  · exact h
  · exact fits_takeSpacesFrom h

theorem Fits.advance {c : Char} (h : cursor.Fits text) (hrest : cursor.rest.head? = some c)
    (hc : c.utf8Size = 1) : cursor.advance.Fits text := by
  obtain ⟨rest, taken, column, pending⟩ := cursor
  cases rest with
  | nil => cases hrest
  | cons d rest =>
      obtain rfl : d = c := Option.some.inj hrest
      exact Fits.take hc h

/-- Taking characters of one byte each. -/
theorem Fits.advanceBy {count : Nat} (h : cursor.Fits text)
    (hrest : ∀ c ∈ cursor.rest.take count, c.utf8Size = 1) : (cursor.advanceBy count).Fits text := by
  induction count generalizing cursor with
  | zero => exact h
  | succ count ih =>
      unfold Cursor.advanceBy
      cases hr : cursor.rest with
      | nil =>
          have hsame : cursor.advance = cursor := by simp [Cursor.advance, hr]
          rw [hsame]
          exact ih h (by simp [hr])
      | cons c rest =>
          have hadvanced : cursor.advance.rest = rest := by simp [Cursor.advance, hr]
          rw [hr, List.take_succ_cons, List.forall_mem_cons] at hrest
          refine ih (h.advance (by rw [hr, List.head?_cons]) hrest.1) ?_
          rw [hadvanced]
          exact hrest.2

theorem Fits.takeQuoteMark {after : Cursor} (h : cursor.Fits text)
    (hm : cursor.takeQuoteMark? = some after) : after.Fits text := by
  unfold takeQuoteMark? takeChar? at hm
  split at hm
  · next hhead =>
      cases hm
      exact (h.advance hhead (by decide)).takeSpaces 1
  · cases hm

theorem Fits.skipBlanks (h : cursor.Fits text) : cursor.skipBlanks.Fits text := by
  obtain ⟨front, htext, htaken⟩ := h
  refine ⟨front ++ cursor.rest.takeWhile (fun c => c == ' ' || c == '\t'), ?_, ?_⟩
  · simp only [Cursor.skipBlanks]
    rw [Text.drop_length_takeWhile, List.append_assoc, List.takeWhile_append_dropWhile, htext]
  · rw [Text.byteLength_append, htaken, Text.byteLength_eq_length]
    · rfl
    · intro c hc
      have hblank : (c == ' ' || c == '\t') = true :=
        List.all_eq_true.1 (List.all_takeWhile (p := fun c => c == ' ' || c == '\t')) c hc
      rcases (Bool.or_eq_true _ _).mp hblank with hblank | hblank
      · rw [eq_of_beq hblank]
        decide
      · rw [eq_of_beq hblank]
        decide

/-- A list mark is a bullet, or digits and a delimiter. -/
theorem take_listMark {rest : List Char} {char : Char} {number width : Nat}
    (h : listMark? rest = some (char, number, width)) :
    (rest.take width = [char] ∧ (char = '-' ∨ char = '+' ∨ char = '*')) ∨
      ∃ digits, rest.take width = digits ++ [char] ∧ (∀ d ∈ digits, d.isDigit = true) ∧
        isNumberDelimiter char = true := by
  unfold listMark? at h
  split at h
  · cases h
  · next c rest =>
      split at h
      · next hbullet =>
          obtain ⟨rfl, -, rfl⟩ : c = char ∧ 0 = number ∧ 1 = width := by simpa using h
          exact .inl ⟨rfl, hbullet⟩
      · simp only at h
        split at h
        · next delimiter after hdrop =>
            split at h
            · next hmark =>
                simp only [Option.some.injEq, Prod.mk.injEq] at h
                obtain ⟨rfl, -, rfl⟩ := h
                rw [Text.drop_length_takeWhile] at hdrop
                have hsplit := List.takeWhile_append_dropWhile (p := Char.isDigit) (l := c :: rest)
                have hdigits : ∀ d ∈ (c :: rest).takeWhile Char.isDigit, d.isDigit = true :=
                  fun d hd => List.all_eq_true.1 List.all_takeWhile d hd
                rw [hdrop] at hsplit
                generalize (c :: rest).takeWhile Char.isDigit = digits at hsplit hdigits hmark ⊢
                rw [← hsplit, List.take_length_add_append]
                exact .inr ⟨digits, rfl, hdigits, hmark.2.2⟩
            · cases h
        · cases h

/-- The characters of a list mark take one byte each. -/
theorem utf8Size_of_listMark {rest : List Char} {char : Char} {number width : Nat}
    (h : listMark? rest = some (char, number, width)) : ∀ c ∈ rest.take width, c.utf8Size = 1 := by
  intro c hc
  rcases take_listMark h with ⟨htake, hbullet⟩ | ⟨digits, htake, hdigits, hdelimiter⟩
  · rw [htake, List.mem_singleton] at hc
    subst hc
    rcases hbullet with rfl | rfl | rfl <;> decide
  · rw [htake] at hc
    rcases List.mem_append.1 hc with hc | hc
    · exact Text.utf8Size_of_isDigit (hdigits c hc)
    · obtain rfl := List.mem_singleton.1 hc
      rcases (Bool.or_eq_true _ _).mp hdelimiter with heq | heq
      · rw [eq_of_beq heq]
        decide
      · rw [eq_of_beq heq]
        decide

/-- The mark of an item is taken from the front of the line. -/
theorem Fits.listMarker {outer : Nat} {marker : ListMarker} {after : Cursor}
    (h : cursor.Fits text) (hm : cursor.listMarker? outer = some (marker, after)) :
    after.Fits text := by
  unfold listMarker? at hm
  split at hm
  · next char number width hmark =>
      split at hm
      · cases hm
      · have hadvanced : (cursor.advanceBy width).Fits text :=
          h.advanceBy (utf8Size_of_listMark hmark)
        unfold finishMarker? at hm
        simp only at hm
        split at hm
        · split at hm
          · cases hm
            exact hadvanced.takeSpaces 1
          · split at hm
            · cases hm
              exact hadvanced.takeSpaces 1
            · cases hm
              exact (hadvanced.takeSpaces 1).takeSpaces 4
        · cases hm
  · cases hm

theorem Fits.taskMark {ended checked : Bool} {after : Cursor} (h : cursor.Fits text)
    (hm : cursor.taskMark? ended = some (checked, after)) : after.Fits text := by
  unfold taskMark? at hm
  simp only at hm
  split at hm
  · next state rest hrest =>
      rw [Option.ite_none_right_eq_some] at hm
      obtain ⟨hmark, hafter⟩ := hm
      cases hafter
      refine (h.takeSpaces 3).advanceBy fun c hc => ?_
      rw [hrest] at hc
      have hone : c = '[' ∨ c = state ∨ c = ']' := by simpa using hc
      rcases hone with rfl | rfl | rfl
      · decide
      · have hstate : ((c = 'x' ∨ c = 'X') ∨ isInlineSpace c = true) := by
          simpa using ((Bool.and_eq_true _ _).mp hmark).1
        rcases hstate with (rfl | rfl) | hspace
        · decide
        · decide
        · exact utf8Size_of_isInlineSpace hspace
      · decide
  · cases hm

/-- Whether the cursor stands in the text, and took only blanks from its front. -/
def Indents (text : List Char) (cursor : Cursor) : Prop :=
  ∃ front, text = front ++ cursor.rest ∧ byteLength front = cursor.taken ∧
    ∀ c ∈ front, isBlank c = true

theorem indents_ofLine (line : Line) : (ofLine line).Indents line.text := ⟨[], rfl, rfl, by simp⟩

theorem Indents.fits (h : cursor.Indents text) : cursor.Fits text := by
  obtain ⟨front, htext, htaken, -⟩ := h
  exact ⟨front, htext, htaken⟩

/-- Taking one more blank of one byte. -/
theorem Indents.take {c : Char} {rest : List Char} {taken : Nat} (hc : c.utf8Size = 1)
    (hb : isBlank c = true)
    (h : ∃ front, text = front ++ c :: rest ∧ byteLength front = taken ∧
      ∀ c ∈ front, isBlank c = true) :
    ∃ front, text = front ++ rest ∧ byteLength front = taken + 1 ∧
      ∀ c ∈ front, isBlank c = true := by
  obtain ⟨front, htext, htaken, hfront⟩ := h
  refine ⟨front ++ [c], by simpa using htext, ?_, ?_⟩
  · rw [Text.byteLength_append, htaken, Text.byteLength_cons, Text.byteLength_nil, hc]
  · intro d hd
    rcases List.mem_append.1 hd with hd | hd
    · exact hfront d hd
    · obtain rfl := List.mem_singleton.1 hd
      exact hb

theorem indents_takeSpacesFrom {wanted taken column : Nat} {rest : List Char}
    (h : ∃ front, text = front ++ rest ∧ byteLength front = taken ∧
      ∀ c ∈ front, isBlank c = true) :
    (takeSpacesFrom wanted rest taken column).2.Indents text := by
  fun_induction takeSpacesFrom wanted rest taken column with
  | case1 => exact h
  | case2 => exact h
  | case3 wanted taken column rest _ ih => exact ih (Indents.take rfl rfl h)
  | case4 => exact Indents.take rfl rfl h
  | case5 wanted taken column rest _ _ _ _ ih => exact ih (Indents.take rfl rfl h)
  | case6 => exact h

theorem Indents.takeSpaces (h : cursor.Indents text) (wanted : Nat) :
    (cursor.takeSpaces wanted).2.Indents text := by
  unfold Cursor.takeSpaces
  split
  · exact h
  · exact indents_takeSpacesFrom h

theorem Indents.skipBlanks (h : cursor.Indents text) : cursor.skipBlanks.Indents text := by
  obtain ⟨front', htext', htaken'⟩ := h.fits.skipBlanks
  obtain ⟨front, htext, htaken, hfront⟩ := h
  have hblanks : ∀ c ∈ cursor.rest.takeWhile (fun c => c == ' ' || c == '\t'),
      isBlank c = true ∧ c.utf8Size = 1 := by
    intro c hc
    have hblank := List.all_eq_true.1 (List.all_takeWhile (p := fun c => c == ' ' || c == '\t')) c hc
    rcases (Bool.or_eq_true _ _).mp hblank with hblank | hblank
    · rw [eq_of_beq hblank]
      exact ⟨rfl, rfl⟩
    · rw [eq_of_beq hblank]
      exact ⟨rfl, rfl⟩
  refine ⟨front ++ cursor.rest.takeWhile (fun c => c == ' ' || c == '\t'), ?_, ?_, ?_⟩
  · simp only [Cursor.skipBlanks]
    rw [Text.drop_length_takeWhile, List.append_assoc, List.takeWhile_append_dropWhile, htext]
  · rw [Text.byteLength_append, htaken, Text.byteLength_eq_length fun c hc => (hblanks c hc).2]
    rfl
  · intro c hc
    rcases List.mem_append.1 hc with hc | hc
    · exact hfront c hc
    · exact (hblanks c hc).1

end Cursor

end Markdown

end DefinitionLists
