/-
Module: DefinitionLists.Proofs.Markers.Bytes
Purpose: What a marker takes of a text, counted in bytes. A marker is found exactly where a text reads as
  blanks, a marker, one blank, and anything, which it does in one way at most; and a run of markers is
  cut off by the lengths found without splitting a character.
Main exports: Marker.Reading, Marker.Reading.match?_eq, Marker.match?_finds_reading, CutsTo,
  cutsTo_iff, stripMarkers_cuts_markers
-/
import Mathlib.Algebra.Group.Nat.Defs
import DefinitionLists.Proofs.Markdown.Lines
import DefinitionLists.Proofs.Markers

namespace DefinitionLists

open Text (byteLength dropBytes? dropBytes?_append isBlank)

namespace Marker

/-! ### Marks -/

/-- Digits count up to the decimal number that they write. -/
theorem digitsValue_eq_ofDigitChars (digits : List Char) :
    digitsValue digits = Nat.ofDigitChars 10 digits 0 := by
  rw [digitsValue, Nat.ofDigitChars]
  simp only [Nat.mul_comm]

/-- All characters of a mark take one byte. -/
theorem Spells.byteLength_eq {marker : Marker} {mark : List Char} (h : marker.Spells mark) :
    byteLength mark = mark.length := by
  refine Text.byteLength_eq_length fun c hc => ?_
  cases h with
  | bullet hbullet =>
      obtain rfl := List.mem_singleton.1 hc
      rcases hbullet with rfl | rfl | rfl <;> rfl
  | ordinal _ hdigits =>
      rcases List.mem_append.1 hc with hc | hc
      · exact Text.utf8Size_of_isDigit (hdigits c hc)
      · obtain rfl := List.mem_singleton.1 hc
        rfl

/-- A single character spells itself as a bullet. -/
theorem Spells.eq_bullet {marker : Marker} {c : Char} (h : marker.Spells [c]) :
    marker = .bullet c := by
  generalize hmark : [c] = mark at h
  cases h with
  | bullet =>
      cases hmark
      rfl
  | @ordinal digits hne =>
      obtain ⟨d, more, rfl⟩ := List.exists_cons_of_ne_nil hne
      simp at hmark

/-- Digits and a full stop spell the number that the digits write, or the largest number if that is
less. -/
theorem Spells.eq_ordinal {marker : Marker} {digits : List Char} (h : marker.Spells (digits ++ ['.'])) :
    marker = .ordinal (min (Nat.ofDigitChars 10 digits 0) (2 ^ 64 - 1)) := by
  generalize hmark : digits ++ ['.'] = mark at h
  cases h with
  | @bullet c hbullet =>
      have hlast := congrArg List.getLast? hmark
      rw [List.getLast?_concat] at hlast
      obtain rfl : '.' = c := by simpa using hlast
      simp at hbullet
  | @ordinal digits' =>
      obtain ⟨rfl, -⟩ := List.append_inj' hmark rfl
      rw [digitsValue_eq_ofDigitChars]
      rfl

/-! ### Readings -/

/-- A way to read a text as one that starts with a marker: blanks, a mark that spells the marker, one
blank, and anything after it. -/
structure Reading (text : List Char) where
  blanks : List Char
  mark : List Char
  gap : Char
  rest : List Char
  marker : Marker
  text_eq : text = blanks ++ (mark ++ gap :: rest)
  isBlank_of_mem : ∀ c ∈ blanks, isBlank c = true
  spells : marker.Spells mark
  isBlank_gap : isBlank gap = true

namespace Reading

variable {text : List Char}

/-- All that belongs to the marker, the blanks around it included. -/
def lead (reading : Reading text) : List Char := reading.blanks ++ (reading.mark ++ [reading.gap])

theorem lead_append (reading : Reading text) : reading.lead ++ reading.rest = text := by
  refine Eq.trans ?_ reading.text_eq.symm
  simp [lead]

theorem takeWhile_isBlank (reading : Reading text) : text.takeWhile isBlank = reading.blanks :=
  (congrArg (List.takeWhile isBlank) reading.text_eq).trans
    (Marker.takeWhile_isBlank reading.isBlank_of_mem reading.spells (reading.gap :: reading.rest)).1

/-- A reading of a text tells what the search for a marker finds. -/
theorem match?_eq (reading : Reading text) : match? text =
    some ⟨reading.marker, byteLength reading.blanks, byteLength reading.lead, reading.rest⟩ := by
  refine match?_eq_some_iff.2 ⟨reading.blanks, reading.mark, reading.gap, reading.text_eq,
    reading.isBlank_of_mem, reading.spells, reading.isBlank_gap, rfl, ?_⟩
  simp only [lead, Text.byteLength_append, Text.byteLength_cons, Text.byteLength_nil,
    reading.spells.byteLength_eq, Nat.add_zero, Nat.add_assoc]

/-- The bytes that a marker takes end where a character does. -/
theorem dropBytes?_lead (reading : Reading text) :
    dropBytes? (byteLength reading.lead) text = some reading.rest := by
  have hcut := dropBytes?_append reading.lead reading.rest
  rwa [reading.lead_append] at hcut

/-- A text can be read in one way only: blanks end where the mark begins, and what is found is what comes
after the one blank. -/
theorem unique (first second : Reading text) : first = second := by
  have hfound := first.match?_eq.symm.trans second.match?_eq
  simp only [Option.some.injEq, Match.mk.injEq] at hfound
  obtain ⟨hmarker, -, -, hrest⟩ := hfound
  have hblanks : first.blanks = second.blanks :=
    first.takeWhile_isBlank.symm.trans second.takeWhile_isBlank
  have hmarked : first.mark ++ [first.gap] = second.mark ++ [second.gap] := by
    have hsplit := first.text_eq.symm.trans second.text_eq
    rw [hblanks, List.append_cancel_left_eq, hrest] at hsplit
    have hends : first.mark ++ [first.gap] ++ second.rest =
        second.mark ++ [second.gap] ++ second.rest := by simpa using hsplit
    exact List.append_cancel_right hends
  obtain ⟨hmark, hgap⟩ := List.append_inj' hmarked rfl
  cases first
  cases second
  simp_all

end Reading

/-- What is found comes from a reading of the text. -/
theorem exists_reading {text : List Char} {found : Match} (h : match? text = some found) :
    ∃ reading : Reading text, reading.marker = found.marker ∧ reading.rest = found.rest ∧
      byteLength reading.lead = found.length := by
  obtain ⟨blanks, mark, gap, htext, hblanks, hspells, hgap, -, -⟩ := match?_eq_some_iff.1 h
  obtain ⟨reading, hmarker, hrest⟩ : ∃ reading : Reading text, reading.marker = found.marker ∧
      reading.rest = found.rest :=
    ⟨⟨blanks, mark, gap, found.rest, found.marker, htext, hblanks, hspells, hgap⟩, rfl, rfl⟩
  refine ⟨reading, hmarker, hrest, ?_⟩
  have hfound := reading.match?_eq
  rw [h, Option.some.injEq] at hfound
  rw [hfound]

/-- A marker is found exactly in the texts that read as blanks, a marker, one blank, and anything. There
is one such reading of a text then, and it is what is found: the bytes of the blanks, and the bytes up
to the end of the one blank, which end within the text and where a character does. A number is the
decimal number written, however many digits it has, or `2 ^ 64 - 1` if that is less. -/
theorem match?_finds_reading (text : List Char) :
    ((match? text).isSome = true ↔ Nonempty (Reading text)) ∧
      (∀ first second : Reading text, first = second) ∧
      ∀ reading : Reading text,
        match? text = some ⟨reading.marker, byteLength reading.blanks,
          byteLength (reading.blanks ++ (reading.mark ++ [reading.gap])), reading.rest⟩ ∧
        byteLength (reading.blanks ++ (reading.mark ++ [reading.gap])) ≤ byteLength text ∧
        dropBytes? (byteLength (reading.blanks ++ (reading.mark ++ [reading.gap]))) text =
          some reading.rest ∧
        (∀ c, reading.mark = [c] → reading.marker = .bullet c) ∧
        ∀ digits, reading.mark = digits ++ ['.'] →
          reading.marker = .ordinal (min (Nat.ofDigitChars 10 digits 0) (2 ^ 64 - 1)) := by
  refine ⟨⟨fun hsome => ?_, fun ⟨reading⟩ => ?_⟩, Reading.unique, fun reading =>
    ⟨reading.match?_eq, ?_, reading.dropBytes?_lead, fun c hc => ?_, fun digits hdigits => ?_⟩⟩
  · obtain ⟨found, hfound⟩ := Option.isSome_iff_exists.1 hsome
    obtain ⟨reading, -⟩ := exists_reading hfound
    exact ⟨reading⟩
  · rw [reading.match?_eq]
    rfl
  · have hwithin := List.sublist_append_left reading.lead reading.rest
    rw [reading.lead_append] at hwithin
    exact Text.byteLength_le_of_sublist hwithin
  · exact Spells.eq_bullet (hc ▸ reading.spells)
  · exact Spells.eq_ordinal (hdigits ▸ reading.spells)

/-- Zeros in front count for nothing, and a number too large stands for the largest. -/
example : match? "\u3000007.\u00a0x".toList = some ⟨.ordinal 7, 3, 9, ['x']⟩ ∧
    match? "18446744073709551616.\n".toList = some ⟨.ordinal 18446744073709551615, 0, 22, []⟩ := by
  decide +kernel

/-- A mark at the start of a text is cut off whole. -/
theorem dropBytes?_of_bare? {body : List Char} {marker : Marker} {size : Nat} {rest : List Char}
    (h : bare? body = some (marker, size, rest)) : dropBytes? size body = some rest := by
  obtain ⟨mark, rfl, hspells, rfl⟩ := bare?_eq_some_iff.1 h
  rw [← hspells.byteLength_eq]
  exact dropBytes?_append mark rest

/-- The bytes that a match counts end between characters. -/
theorem dropBytes?_of_match? {text : List Char} {found : Match} (h : match? text = some found) :
    dropBytes? found.length text = some found.rest := by
  obtain ⟨reading, -, hrest, hlength⟩ := exists_reading h
  rw [← hlength, ← hrest]
  exact reading.dropBytes?_lead

end Marker

/-! ### Runs of markers -/

/-- Markers of a set are cut off a text, one after the other, by the bytes that each of them takes, until
the text starts with none. There is no way on from a cut that does not end where a character does. -/
inductive CutsTo (set : MarkerSet) : List Char → List Char → Prop where
  | done {text : List Char} (none : startsWithMarker set text = false) : CutsTo set text text
  | cut {text rest result : List Char} {found : Marker.Match} (starts : Marker.match? text = some found)
      (admits : set.admits found.marker = true) (slice : dropBytes? found.length text = some rest)
      (later : CutsTo set rest result) : CutsTo set text result

/-- The loop never cuts within a character. -/
theorem cutsTo_stripMarkers (set : MarkerSet) (text : List Char) :
    CutsTo set text (stripMarkers set text) := by
  fun_induction stripMarkers set text with
  | case1 text found hfound hadmits ih =>
      exact .cut hfound hadmits (Marker.dropBytes?_of_match? hfound) ih
  | case2 text found hfound hadmits =>
      exact .done (by simpa [startsWithMarker, hfound] using hadmits)
  | case3 text hnone => exact .done (by simp [startsWithMarker, hnone])

/-- Cutting can go on in one way only. -/
theorem CutsTo.deterministic {set : MarkerSet} {text result result' : List Char}
    (h : CutsTo set text result) (h' : CutsTo set text result') : result = result' := by
  induction h generalizing result' with
  | done none =>
      cases h' with
      | done => rfl
      | cut starts admits => simp [startsWithMarker, starts, admits] at none
  | cut starts admits slice _ ih =>
      cases h' with
      | done none => simp [startsWithMarker, starts, admits] at none
      | cut starts' _ slice' later' =>
          obtain rfl := Option.some.inj (starts.symm.trans starts')
          obtain rfl := Option.some.inj (slice.symm.trans slice')
          exact ih later'

theorem cutsTo_iff {set : MarkerSet} {text result : List Char} :
    CutsTo set text result ↔ result = stripMarkers set text :=
  ⟨fun h => h.deterministic (cutsTo_stripMarkers set text), fun h => h ▸ cutsTo_stripMarkers set text⟩

/-- Cutting the markers of a set off a text comes to its end, and no cut splits a character, neither
behind a mark nor behind the blank after it. What is left is the end of the text; before it stand markers
of the set, each with any blanks before it and one blank after it. What is left starts with no marker of
the set, so that cutting again changes nothing. -/
theorem stripMarkers_cuts_markers (set : MarkerSet) (text : List Char) :
    (∀ result, CutsTo set text result ↔ result = stripMarkers set text) ∧
      (∀ body marker size rest, Marker.bare? body = some (marker, size, rest) →
        dropBytes? size body = some rest) ∧
      stripMarkers set text <:+ text ∧
      (∃ leads : List (List Char), text = leads.flatten ++ stripMarkers set text ∧
        ∀ lead ∈ leads, ∃ marker : Marker, set.admits marker = true ∧ marker.IsLead lead) ∧
      (∀ (marker : Marker) (lead after : List Char), set.admits marker = true → marker.IsLead lead →
        stripMarkers set text ≠ lead ++ after) ∧
      startsWithMarker set (stripMarkers set text) = false ∧
      stripMarkers set (stripMarkers set text) = stripMarkers set text := by
  obtain ⟨hleads, hnone⟩ := stripsTo_stripMarkers set text
  refine ⟨fun _ => cutsTo_iff, fun _ _ _ _ => Marker.dropBytes?_of_bare?, ?_, hleads, hnone,
    startsWithMarker_stripMarkers set text, stripMarkers_stripMarkers set text⟩
  obtain ⟨leads, htext, -⟩ := hleads
  exact ⟨leads.flatten, htext.symm⟩

/-- Blanks may take more than one byte, and the run ends at a marker of another kind. -/
example : stripMarkers .bullets "\u2003-\n + 1. x".toList = "1. x".toList := by decide +kernel

end DefinitionLists
