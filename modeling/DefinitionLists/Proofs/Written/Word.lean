/-
Module: DefinitionLists.Proofs.Written.Word
Purpose: Words of letters and the markers of items as they are written, and what texts that open with
  them are read as.
Main exports: Word, opensText, Marker.written, Marker.IsWritten, Markdown.listMark_written,
  Marker.match_written, Marker.match_of_opensText
-/
import DefinitionLists.Marker
import DefinitionLists.Markdown.HtmlBlock

namespace DefinitionLists

/-- A word: one ASCII letter or more. -/
structure Word where
  chars : List Char
  letters : ∀ c ∈ chars, c.isAlpha = true
  ne_nil : chars ≠ []

/-- A letter, a digit or a colon. A line that opens with one of them opens no block but a paragraph or
a numbered item. -/
def opensText (c : Char) : Bool := c.isAlphanum || c == ':'

/-- What holds of each such character by its number holds of all of them. -/
theorem forall_opensText (holds : Char → Prop)
    (h : ∀ n < 128, opensText (Char.ofNat n) = true → holds (Char.ofNat n)) {c : Char}
    (hc : opensText c = true) : holds c := by
  have hascii : c.toNat < 128 := by
    have hclasses : opensText c =
        (decide (c.val ≥ 'A'.val ∧ c.val ≤ 'Z'.val) ||
          decide (c.val ≥ 'a'.val) && decide (c.val ≤ 'z'.val) ||
          decide (c.val ≥ '0'.val) && decide (c.val ≤ '9'.val) || c == ':') := rfl
    simp only [hclasses, Bool.or_eq_true, Bool.and_eq_true, decide_eq_true_eq, beq_iff_eq, ge_iff_le,
      UInt32.le_iff_toNat_le] at hc
    have hz : 'Z'.val.toNat = 90 := rfl
    have hl : 'z'.val.toNat = 122 := rfl
    have hd : '9'.val.toNat = 57 := rfl
    show c.val.toNat < 128
    rcases hc with ((hc | hc) | hc) | rfl
    · omega
    · omega
    · omega
    · decide
  have hchar := h c.toNat hascii
  rw [Char.ofNat_toNat] at hchar
  exact hchar hc

theorem opensText_of_isAlpha {c : Char} (h : c.isAlpha = true) : opensText c = true := by
  simp [opensText, Char.isAlphanum, h]

theorem opensText_of_isDigit {c : Char} (h : c.isDigit = true) : opensText c = true := by
  simp [opensText, Char.isAlphanum, h]

/-- A character of a class is none of those outside of it. -/
theorem ne_of_class {p : Char → Bool} {c d : Char} (h : p c = true) (hd : p d = false) : c ≠ d := by
  rintro rfl
  rw [h] at hd
  cases hd

theorem isBlank_of_opensText {c : Char} (h : opensText c = true) : Text.isBlank c = false :=
  forall_opensText (fun c => Text.isBlank c = false) (by decide +kernel) h

theorem isInlineSpace_of_opensText {c : Char} (h : opensText c = true) :
    Markdown.isInlineSpace c = false :=
  forall_opensText (fun c => Markdown.isInlineSpace c = false) (by decide +kernel) h

theorem isDigit_of_isAlpha {c : Char} (h : c.isAlpha = true) : c.isDigit = false :=
  forall_opensText (fun c => c.isAlpha = true → c.isDigit = false) (by decide +kernel)
    (opensText_of_isAlpha h) h

namespace Word

/-- A word of one letter. -/
def ofLetter (c : Char) (h : c.isAlpha = true) : Word := ⟨[c], List.forall_mem_singleton.2 h, by simp⟩

/-- A word opens with a letter. -/
theorem exists_cons (word : Word) :
    ∃ c rest, word.chars = c :: rest ∧ c.isAlpha = true ∧ ∀ d ∈ rest, d.isAlpha = true := by
  obtain ⟨c, rest, heq⟩ := List.exists_cons_of_ne_nil word.ne_nil
  have hletters := word.letters
  rw [heq, List.forall_mem_cons] at hletters
  exact ⟨c, rest, heq, hletters⟩

end Word

namespace Markdown

/-! ### Lines that open with text -/

section Starts

variable {c : Char} {rest : List Char}

theorem isBlankRest_of_opensText (h : opensText c = true) : isBlankRest (c :: rest) = false := by
  simp [isBlankRest, isInlineSpace_of_opensText h]

theorem isRule_of_opensText (h : opensText c = true) : isRule (c :: rest) = false := by
  have hstar : c ≠ '*' := ne_of_class h (by decide)
  have hhyphen : c ≠ '-' := ne_of_class h (by decide)
  have hscore : c ≠ '_' := ne_of_class h (by decide)
  simp [isRule, hstar, hhyphen, hscore]

theorem headingLevel_of_opensText (h : opensText c = true) : headingLevel? (c :: rest) = none := by
  have hsign : c ≠ '#' := ne_of_class h (by decide)
  simp [headingLevel?, hsign]

theorem underlineLevel_of_opensText (h : opensText c = true) :
    underlineLevel? (c :: rest) = none := by
  have hequals : c ≠ '=' := ne_of_class h (by decide)
  have hhyphen : c ≠ '-' := ne_of_class h (by decide)
  simp [underlineLevel?, hequals, hhyphen]

theorem openingFence_of_opensText (h : opensText c = true) : openingFence? (c :: rest) = none := by
  have htick : c ≠ '`' := ne_of_class h (by decide)
  have htilde : c ≠ '~' := ne_of_class h (by decide)
  simp [openingFence?, htick, htilde]

theorem htmlStart_of_opensText (h : opensText c = true) (inParagraph : Bool) :
    htmlStart? inParagraph (c :: rest) = none := by
  have hangle : c ≠ '<' := ne_of_class h (by decide)
  have hmarked : markedHtml? (c :: rest) = none := by
    unfold markedHtml?
    split
    · next heq => exact absurd (List.cons.inj heq).1 hangle
    · rfl
  have hnamed : namedHtml (c :: rest) = false := by
    unfold namedHtml
    split
    · next heq => exact absurd (List.cons.inj heq).1 hangle
    · rfl
  have hlone : loneTag (c :: rest) = false := by
    unfold loneTag
    split
    · next heq => exact absurd (List.cons.inj heq).1 hangle
    · rfl
  simp [htmlStart?, hmarked, hnamed, hlone]

/-- A text that opens with a letter or a colon has no mark of an item. -/
theorem listMark_of_opensText (h : opensText c = true) (hd : c.isDigit = false) :
    listMark? (c :: rest) = none := by
  have hplus : c ≠ '+' := ne_of_class h (by decide)
  have hstar : c ≠ '*' := ne_of_class h (by decide)
  have hhyphen : c ≠ '-' := ne_of_class h (by decide)
  simp [listMark?, hplus, hstar, hhyphen, hd]

end Starts

end Markdown

/-! ### Markers -/

namespace Marker

/-- The marker as it is written. -/
def written : Marker → List Char
  | .bullet c => [c]
  | .ordinal value => Nat.toDigits 10 value ++ ['.']

/-- The least number of ten digits. -/
def numberLimit : Nat := 1000000000

/-- Whether the marker is a hyphen or a number of at most nine digits. -/
def IsWritten : Marker → Prop
  | .bullet c => c = '-'
  | .ordinal value => value < numberLimit

/-- The character that tells lists of markers apart in Markdown. -/
def delimiter : Marker → Char
  | .bullet c => c
  | .ordinal _ => '.'

/-- The number of the marker in Markdown. Bullets have none. -/
def number : Marker → Nat
  | .bullet _ => 0
  | .ordinal value => value

/-- Words may all be written with bullets. -/
theorem isWritten_bullets (words : List Word) : ∀ item ∈ words.map (Marker.bullet '-', ·),
    item.1.IsWritten ∧ item.1.delimiter = '-' := by
  intro item hitem
  obtain ⟨word, -, rfl⟩ := List.mem_map.1 hitem
  exact ⟨rfl, rfl⟩

/-- The decimal digits of a number are those in front of what is no digit. -/
theorem takeWhile_toDigits (value : Nat) {c : Char} (hc : c.isDigit = false) (rest : List Char) :
    (Nat.toDigits 10 value ++ c :: rest).takeWhile Char.isDigit = Nat.toDigits 10 value := by
  have hdigits : ∀ d ∈ Nat.toDigits 10 value, d.isDigit = true :=
    fun d hd => Nat.isDigit_of_mem_toDigits (by decide) (by decide) hd
  rw [List.takeWhile_append_of_pos hdigits, List.takeWhile_cons_of_neg (by simp [hc]),
    List.append_nil]

/-- The digits of a written number end where it does. -/
theorem dropWhile_toDigits (value : Nat) {c : Char} (hc : c.isDigit = false) (rest : List Char) :
    (Nat.toDigits 10 value ++ c :: rest).dropWhile Char.isDigit = c :: rest := by
  have hdigits : ∀ d ∈ Nat.toDigits 10 value, d.isDigit = true :=
    fun d hd => Nat.isDigit_of_mem_toDigits (by decide) (by decide) hd
  rw [List.dropWhile_append_of_pos hdigits, List.dropWhile_cons_of_neg (by simp [hc])]

theorem digitsValue_toDigits (value : Nat) : digitsValue (Nat.toDigits 10 value) = value := by
  have hvalue := Nat.ofDigitChars_ten_toDigits (n := value)
  simp only [Nat.ofDigitChars, Nat.mul_comm 10] at hvalue
  exact hvalue

/-- A number is written with a digit first. -/
theorem exists_digit_cons (value : Nat) (rest : List Char) :
    ∃ c more, Nat.toDigits 10 value ++ rest = c :: more ∧ c.isDigit = true := by
  obtain ⟨c, more, heq⟩ := List.exists_cons_of_ne_nil (Nat.toDigits_ne_nil (n := value) (b := 10))
  have hdigit : c.isDigit = true :=
    Nat.isDigit_of_mem_toDigits (by decide) (by decide) (b := 10) (n := value) (by simp [heq])
  exact ⟨c, more ++ rest, by rw [heq, List.cons_append], hdigit⟩

end Marker

/-- In Markdown a marker is the mark of an item. -/
theorem Markdown.listMark_written {marker : Marker} (h : marker.IsWritten) (rest : List Char) :
    listMark? (marker.written ++ rest) =
      some (marker.delimiter, marker.number, marker.written.length) := by
  cases marker with
  | bullet c =>
      obtain rfl : c = '-' := h
      rfl
  | ordinal value =>
      have hlength : (Nat.toDigits 10 value).length ≤ 9 :=
        (Nat.length_toDigits_le_iff (by decide) (by decide)).2 h
      have hpos : 1 ≤ (Nat.toDigits 10 value).length := Nat.length_toDigits_pos
      have hvalue : (Nat.toDigits 10 value).foldl
          (fun n d => n * 10 + (d.toNat - '0'.toNat)) 0 = value := Marker.digitsValue_toDigits value
      obtain ⟨c, more, hcons, hc⟩ := Marker.exists_digit_cons value ('.' :: rest)
      have htake := Marker.takeWhile_toDigits value (c := '.') (by decide) rest
      have hdrop : (Nat.toDigits 10 value ++ '.' :: rest).drop (Nat.toDigits 10 value).length =
          '.' :: rest := List.drop_left
      have hplus : c ≠ '+' := ne_of_class hc (by decide)
      have hstar : c ≠ '*' := ne_of_class hc (by decide)
      have hhyphen : c ≠ '-' := ne_of_class hc (by decide)
      rw [Marker.written, List.append_assoc, List.singleton_append]
      rw [hcons] at htake hdrop ⊢
      simp only [listMark?, hplus, hstar, hhyphen, false_or, if_false, htake, hdrop, hpos, hlength,
        true_and, isNumberDelimiter, hvalue]
      simp [Marker.delimiter, Marker.number]

/-- A marker is found with the space after it. -/
theorem Marker.match_written {marker : Marker} (h : marker.IsWritten) (rest : List Char) :
    ∃ length, Marker.match? (marker.written ++ ' ' :: rest) = some ⟨marker, 0, length, rest⟩ := by
  cases marker with
  | bullet c =>
      obtain rfl : c = '-' := h
      exact ⟨_, rfl⟩
  | ordinal value =>
      have hlimit : min value maxValue = value := by
        have hsmall : value < 1000000000 := h
        have hmax : maxValue = 18446744073709551615 := rfl
        omega
      obtain ⟨c, more, hcons, hc⟩ := exists_digit_cons value ('.' :: ' ' :: rest)
      have htake := takeWhile_toDigits value (c := '.') (by decide) (' ' :: rest)
      have hdrop := dropWhile_toDigits value (c := '.') (by decide) (' ' :: rest)
      have hblank : Text.isBlank c = false := isBlank_of_opensText (opensText_of_isDigit hc)
      have hplus : c ≠ '+' := ne_of_class hc (by decide)
      have hstar : c ≠ '*' := ne_of_class hc (by decide)
      have hhyphen : c ≠ '-' := ne_of_class hc (by decide)
      have hbare : bare? (c :: more) =
          some (.ordinal value, (Nat.toDigits 10 value).length + 1, ' ' :: rest) := by
        rw [hcons] at htake hdrop
        simp only [bare?, hplus, hstar, hhyphen, or_self, if_false, hc, if_true, htake, hdrop,
          cappedValue_eq, digitsValue_toDigits, hlimit]
      refine ⟨(Nat.toDigits 10 value).length + 1 + ' '.utf8Size, ?_⟩
      have hspace : Text.isBlank ' ' = true := rfl
      rw [written, List.append_assoc, List.singleton_append, hcons]
      simp [match?, Text.trimStart_cons_of_not_isBlank hblank, hbare, hblank, hspace]

/-- A text that opens with a letter or a colon has no marker. -/
theorem Marker.match_of_opensText {c : Char} (h : opensText c = true) (hd : c.isDigit = false)
    (rest : List Char) : Marker.match? (c :: rest) = none := by
  have hplus : c ≠ '+' := ne_of_class h (by decide)
  have hstar : c ≠ '*' := ne_of_class h (by decide)
  have hhyphen : c ≠ '-' := ne_of_class h (by decide)
  simp [match?, Text.trimStart_cons_of_not_isBlank (isBlank_of_opensText h), bare?, hplus, hstar,
    hhyphen, hd]

end DefinitionLists
