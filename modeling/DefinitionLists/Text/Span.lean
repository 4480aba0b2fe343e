/-
Module: DefinitionLists.Text.Span
Purpose: Byte counts of text in UTF-8, and the part of a text between two byte offsets.
Main exports: byteLength, Span, Span.read?
-/

namespace DefinitionLists

namespace Text

/-- How many bytes the text takes in UTF-8. -/
def byteLength : List Char → Nat
  | [] => 0
  | c :: rest => c.utf8Size + byteLength rest

/-- What follows the first `n` bytes, unless the text is shorter or the cut splits a character. -/
def dropBytes? : Nat → List Char → Option (List Char)
  | 0, text => some text
  | _ + 1, [] => none
  | n + 1, c :: rest => if c.utf8Size ≤ n + 1 then dropBytes? (n + 1 - c.utf8Size) rest else none

/-- The first `n` bytes, unless the text is shorter or the cut splits a character. -/
def takeBytes? : Nat → List Char → Option (List Char)
  | 0, _ => some []
  | _ + 1, [] => none
  | n + 1, c :: rest =>
    if c.utf8Size ≤ n + 1 then (takeBytes? (n + 1 - c.utf8Size) rest).map (c :: ·) else none

@[simp] theorem byteLength_nil : byteLength [] = 0 := rfl

@[simp] theorem byteLength_cons (c : Char) (rest : List Char) :
    byteLength (c :: rest) = c.utf8Size + byteLength rest := rfl

@[simp] theorem byteLength_append (first second : List Char) :
    byteLength (first ++ second) = byteLength first + byteLength second := by
  induction first with
  | nil => simp
  | cons c rest ih => simp [ih, Nat.add_assoc]

@[simp] theorem dropBytes?_zero (text : List Char) : dropBytes? 0 text = some text := by
  cases text <;> rfl

@[simp] theorem takeBytes?_zero (text : List Char) : takeBytes? 0 text = some [] := by
  cases text <;> rfl

theorem byteLength_le_of_sublist {part whole : List Char} (h : part.Sublist whole) :
    byteLength part ≤ byteLength whole := by
  induction h with
  | slnil => exact Nat.le_refl _
  | cons c _ ih => exact Nat.le_trans ih (Nat.le_add_left _ _)
  | cons_cons c _ ih => exact Nat.add_le_add_left ih _

/-- What is taken is a piece of the text, and takes the bytes that it should. -/
theorem exists_of_takeBytes {count : Nat} {text piece : List Char}
    (h : takeBytes? count text = some piece) :
    ∃ after, text = piece ++ after ∧ byteLength piece = count := by
  fun_induction takeBytes? count text generalizing piece with
  | case1 text =>
    cases h
    exact ⟨text, rfl, rfl⟩
  | case2 => cases h
  | case3 n c rest hfits ih =>
    obtain ⟨more, hmore, rfl⟩ := Option.map_eq_some_iff.1 h
    obtain ⟨after, rfl, hlength⟩ := ih hmore
    refine ⟨after, rfl, ?_⟩
    rw [byteLength_cons]
    omega
  | case4 => cases h

/-- What is left comes after a piece of the text that takes the bytes that it should. -/
theorem exists_of_dropBytes {count : Nat} {text rest : List Char}
    (h : dropBytes? count text = some rest) :
    ∃ before, text = before ++ rest ∧ byteLength before = count := by
  fun_induction dropBytes? count text with
  | case1 =>
    cases h
    exact ⟨[], rfl, rfl⟩
  | case2 => cases h
  | case3 n c more hfits ih =>
    obtain ⟨before, rfl, hlength⟩ := ih h
    refine ⟨c :: before, rfl, ?_⟩
    rw [byteLength_cons]
    omega
  | case4 => cases h

theorem prefix_of_takeBytes {count : Nat} {text piece : List Char}
    (h : takeBytes? count text = some piece) : piece <+: text := by
  obtain ⟨after, rfl, -⟩ := exists_of_takeBytes h
  exact List.prefix_append piece after

/-- Cutting after a whole piece of the text leaves the other piece. -/
theorem dropBytes?_append (first second : List Char) :
    dropBytes? (byteLength first) (first ++ second) = some second := by
  induction first with
  | nil => simp
  | cons c rest ih =>
    have hc := c.utf8Size_pos
    obtain ⟨n, hn⟩ : ∃ n, byteLength (c :: rest) = n + 1 :=
      ⟨byteLength (c :: rest) - 1, by simp only [byteLength_cons]; omega⟩
    have : n + 1 - c.utf8Size = byteLength rest := by simp only [byteLength_cons] at hn; omega
    rw [hn, List.cons_append, dropBytes?, if_pos (by simp only [byteLength_cons] at hn; omega), this, ih]

/-- Cutting after a whole piece of the text takes that piece. -/
theorem takeBytes?_append (first second : List Char) :
    takeBytes? (byteLength first) (first ++ second) = some first := by
  induction first with
  | nil => simp
  | cons c rest ih =>
    have hc := c.utf8Size_pos
    obtain ⟨n, hn⟩ : ∃ n, byteLength (c :: rest) = n + 1 :=
      ⟨byteLength (c :: rest) - 1, by simp only [byteLength_cons]; omega⟩
    have : n + 1 - c.utf8Size = byteLength rest := by simp only [byteLength_cons] at hn; omega
    rw [hn, List.cons_append, takeBytes?, if_pos (by simp only [byteLength_cons] at hn; omega), this, ih]
    rfl

end Text

/-- A range of byte offsets in a text: from `start` up to, not including, `stop`. -/
structure Span where
  start : Nat
  stop : Nat
deriving Repr, Inhabited, DecidableEq

namespace Span

/-- The characters of `text` in the span, if the span lies in the text and cuts no character. -/
def read? (span : Span) (text : List Char) : Option (List Char) :=
  if span.start ≤ span.stop then
    (Text.dropBytes? span.start text).bind (Text.takeBytes? (span.stop - span.start))
  else none

/-- The span of a whole piece of a text reads that piece. -/
theorem read?_append (before piece after : List Char) :
    Span.read? ⟨Text.byteLength before, Text.byteLength before + Text.byteLength piece⟩
      (before ++ (piece ++ after)) = some piece := by
  simp [read?, Text.dropBytes?_append, Text.takeBytes?_append]

/-- What stands at a span is the piece of the text between its offsets. -/
theorem read?_eq_some_iff {span : Span} {text piece : List Char} :
    span.read? text = some piece ↔ ∃ before after, text = before ++ (piece ++ after) ∧
      Text.byteLength before = span.start ∧
      Text.byteLength before + Text.byteLength piece = span.stop := by
  constructor
  · intro h
    unfold read? at h
    split at h
    · next hordered =>
      obtain ⟨rest, hrest, hpiece⟩ := Option.bind_eq_some_iff.1 h
      obtain ⟨before, rfl, hbefore⟩ := Text.exists_of_dropBytes hrest
      obtain ⟨after, rfl, hlength⟩ := Text.exists_of_takeBytes hpiece
      exact ⟨before, after, rfl, hbefore, by omega⟩
    · cases h
  · rintro ⟨before, after, rfl, hstart, hstop⟩
    obtain ⟨start, stop⟩ := span
    obtain rfl : Text.byteLength before = start := hstart
    obtain rfl : Text.byteLength before + Text.byteLength piece = stop := hstop
    exact read?_append before piece after

theorem sublist_of_read {span : Span} {text piece : List Char} (h : span.read? text = some piece) :
    piece.Sublist text := by
  obtain ⟨before, after, rfl, -⟩ := read?_eq_some_iff.1 h
  exact (List.sublist_append_left piece after).trans (List.sublist_append_right before _)

end Span

end DefinitionLists
