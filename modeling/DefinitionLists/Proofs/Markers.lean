/-
Module: DefinitionLists.Proofs.Markers
Purpose: The grammar of list markers, without reference to how they are found, and with it what the texts
  are that start with a marker, read as numbered items, or are left without their markers.
Main exports: Marker.Spells, Marker.IsLead, Marker.match?_eq_some_iff, OpensWithNumber, isOrdinalItem_iff,
  StripsTo, stripsTo_stripMarkers, stripMarkers_stripMarkers
-/
import Mathlib.Data.List.TakeWhile
import DefinitionLists.Marker

namespace DefinitionLists

open Text (byteLength isBlank trimStart)

/-! ### The grammar -/

namespace Marker

/-- How a marker is spelled: a bullet as it is, a number by its digits and a full stop. -/
inductive Spells : Marker → List Char → Prop where
  | bullet {c : Char} (h : c = '-' ∨ c = '+' ∨ c = '*') : Spells (.bullet c) [c]
  | ordinal {digits : List Char} (hne : digits ≠ []) (hdigits : ∀ c ∈ digits, c.isDigit = true) :
      Spells (.ordinal (min (digitsValue digits) maxValue)) (digits ++ ['.'])

/-- Whether this is what a text starts with that starts with the marker: any blanks, the marker, and one
blank after it. -/
def IsLead (marker : Marker) (lead : List Char) : Prop :=
  ∃ blanks mark gap, lead = blanks ++ (mark ++ [gap]) ∧ (∀ c ∈ blanks, isBlank c = true) ∧
    marker.Spells mark ∧ isBlank gap = true

theorem isBlank_of_isDigit {c : Char} (h : c.isDigit = true) : isBlank c = false := by
  have hrange : 48 ≤ c.toNat ∧ c.toNat ≤ 57 := by
    simpa [Char.isDigit, UInt32.le_iff_toNat_le] using h
  have hvalues : ∀ n : Fin 58, 48 ≤ n.val → isBlank (Char.ofNat n.val) = false := by decide
  have hblank := hvalues ⟨c.toNat, by omega⟩ hrange.1
  rwa [Char.ofNat_toNat] at hblank

/-- No marker opens with a blank. -/
theorem Spells.exists_cons {marker : Marker} {mark : List Char} (h : marker.Spells mark) :
    ∃ c more, mark = c :: more ∧ isBlank c = false := by
  cases h with
  | @bullet c hc =>
      refine ⟨c, [], rfl, ?_⟩
      rcases hc with rfl | rfl | rfl <;> rfl
  | @ordinal digits hne hdigits =>
      obtain ⟨c, more, rfl⟩ := List.exists_cons_of_ne_nil hne
      exact ⟨c, more ++ ['.'], rfl, isBlank_of_isDigit (hdigits c (by simp))⟩

/-! ### Finding a marker -/

theorem dropWhile_isDigit {digits : List Char} (h : ∀ c ∈ digits, c.isDigit = true)
    (rest : List Char) :
    (digits ++ '.' :: rest).takeWhile Char.isDigit = digits ∧
      (digits ++ '.' :: rest).dropWhile Char.isDigit = '.' :: rest := by
  rw [List.takeWhile_append_of_pos h, List.dropWhile_append_of_pos h]
  simp

/-- Without blanks before it, the marker that is found is the one spelled at the front of the text. -/
theorem bare?_eq_some_iff {text : List Char} {marker : Marker} {size : Nat} {rest : List Char} :
    bare? text = some (marker, size, rest) ↔
      ∃ mark, text = mark ++ rest ∧ marker.Spells mark ∧ size = mark.length := by
  constructor
  · intro h
    unfold bare? at h
    split at h
    · cases h
    · next c more =>
        split at h
        · next hbullet =>
            cases h
            exact ⟨[c], rfl, .bullet hbullet, rfl⟩
        · split at h
          · next hdigit =>
              simp only at h
              split at h
              · next after hdrop =>
                  cases h
                  refine ⟨(c :: more).takeWhile Char.isDigit ++ ['.'], ?_, ?_, by simp⟩
                  · rw [List.append_assoc, List.singleton_append, ← hdrop,
                      List.takeWhile_append_dropWhile]
                  · rw [cappedValue_eq]
                    refine .ordinal ?_ fun d hd => ?_
                    · simp [hdigit]
                    · exact List.all_eq_true.1 List.all_takeWhile d hd
              · cases h
          · cases h
  · rintro ⟨mark, rfl, hspells, rfl⟩
    cases hspells with
    | bullet hc => simp [bare?, hc]
    | @ordinal digits hne hdigits =>
        obtain ⟨htake, hdrop⟩ := dropWhile_isDigit hdigits rest
        obtain ⟨c, more, rfl⟩ := List.exists_cons_of_ne_nil hne
        have hc : c.isDigit = true := hdigits c (by simp)
        have hbullet : ¬ (c = '-' ∨ c = '+' ∨ c = '*') := by
          rintro (rfl | rfl | rfl) <;> cases hc
        rw [List.append_assoc, List.singleton_append] at *
        simp only [List.cons_append] at htake hdrop ⊢
        simp only [bare?, hbullet, hc, htake, hdrop, if_true, if_false, cappedValue_eq,
          List.length_append, List.length_cons, List.length_nil]

/-- Blanks end where a marker begins. -/
theorem takeWhile_isBlank {marker : Marker} {blanks mark : List Char}
    (hb : ∀ c ∈ blanks, isBlank c = true) (hm : marker.Spells mark) (rest : List Char) :
    (blanks ++ (mark ++ rest)).takeWhile isBlank = blanks ∧
      trimStart (blanks ++ (mark ++ rest)) = mark ++ rest := by
  obtain ⟨c, more, rfl, hc⟩ := hm.exists_cons
  rw [trimStart, List.takeWhile_append_of_pos hb, List.dropWhile_append_of_pos hb]
  simp [hc]

/-- What is found is what stands there: the blanks, the marker, one blank, and the rest. -/
theorem match?_eq_some_iff {text : List Char} {found : Match} : match? text = some found ↔
    ∃ blanks mark gap, text = blanks ++ (mark ++ gap :: found.rest) ∧
      (∀ c ∈ blanks, isBlank c = true) ∧ found.marker.Spells mark ∧ isBlank gap = true ∧
      found.indent = byteLength blanks ∧
      found.length = byteLength blanks + mark.length + gap.utf8Size := by
  constructor
  · intro h
    unfold match? at h
    split at h
    · next marker size gap rest hbare =>
        split at h
        · next hgap =>
            cases h
            obtain ⟨mark, hmark, hspells, rfl⟩ := bare?_eq_some_iff.1 hbare
            refine ⟨text.takeWhile isBlank, mark, gap, ?_, fun c hc => ?_, hspells, hgap, rfl, rfl⟩
            · rw [← hmark, trimStart, List.takeWhile_append_dropWhile]
            · exact List.all_eq_true.1 List.all_takeWhile c hc
        · cases h
    · cases h
  · rintro ⟨blanks, mark, gap, rfl, hblanks, hspells, hgap, hindent, hlength⟩
    obtain ⟨htake, htrim⟩ := takeWhile_isBlank hblanks hspells (gap :: found.rest)
    have hbare : bare? (mark ++ gap :: found.rest) =
        some (found.marker, mark.length, gap :: found.rest) :=
      bare?_eq_some_iff.2 ⟨mark, rfl, hspells, rfl⟩
    unfold match?
    rw [htrim, hbare]
    simp only [hgap, htake, ← hindent, if_true]
    rw [hindent, ← hlength, ← hindent]

/-- A marker is found wherever the grammar has one. -/
theorem exists_match? {marker : Marker} {blanks mark : List Char} {gap : Char}
    (hb : ∀ c ∈ blanks, isBlank c = true) (hm : marker.Spells mark) (hg : isBlank gap = true)
    (rest : List Char) : ∃ found, match? (blanks ++ (mark ++ gap :: rest)) = some found ∧
      found.marker = marker ∧ found.indent = byteLength blanks ∧ found.rest = rest := by
  refine ⟨⟨marker, byteLength blanks, byteLength blanks + mark.length + gap.utf8Size, rest⟩, ?_, rfl,
    rfl, rfl⟩
  exact match?_eq_some_iff.2 ⟨blanks, mark, gap, rfl, hb, hm, hg, rfl, rfl⟩

end Marker

/-! ### Texts with markers -/

/-- A text starts with a marker of the set exactly if the grammar says so. -/
theorem startsWithMarker_iff {set : MarkerSet} {text : List Char} : startsWithMarker set text = true ↔
    ∃ marker lead rest, set.admits marker = true ∧ marker.IsLead lead ∧ text = lead ++ rest := by
  rw [startsWithMarker, Option.any_eq_true]
  constructor
  · rintro ⟨found, hfound, hadmits⟩
    obtain ⟨blanks, mark, gap, rfl, hblanks, hspells, hgap, -, -⟩ :=
      Marker.match?_eq_some_iff.1 hfound
    exact ⟨found.marker, blanks ++ (mark ++ [gap]), found.rest, hadmits,
      ⟨blanks, mark, gap, rfl, hblanks, hspells, hgap⟩, by simp⟩
  · rintro ⟨marker, lead, rest, hadmits, ⟨blanks, mark, gap, rfl, hblanks, hspells, hgap⟩, rfl⟩
    obtain ⟨found, hfound, rfl, -, -⟩ := Marker.exists_match? hblanks hspells hgap rest
    exact ⟨found, by simpa using hfound, hadmits⟩

/-- Whether the text opens with the marker of a numbered item, without blanks before it: digits, a full
stop, and a blank. -/
def OpensWithNumber (text : List Char) : Prop :=
  ∃ digits gap rest, text = digits ++ '.' :: gap :: rest ∧ digits ≠ [] ∧
    (∀ c ∈ digits, c.isDigit = true) ∧ isBlank gap = true

/-- What the test for a numbered item accepts is the marker of one, with no blanks before it. -/
theorem isOrdinalItem_iff {text : List Char} : isOrdinalItem text = true ↔ OpensWithNumber text := by
  rw [isOrdinalItem, Option.any_eq_true]
  constructor
  · rintro ⟨found, hfound, hfits⟩
    obtain ⟨blanks, mark, gap, rfl, -, hspells, hgap, hindent, -⟩ :=
      Marker.match?_eq_some_iff.1 hfound
    obtain ⟨hzero, hadmits⟩ := (Bool.and_eq_true _ _).mp hfits
    have hblanks : blanks = [] := by
      cases blanks with
      | nil => rfl
      | cons c more =>
          have hpos := c.utf8Size_pos
          rw [Text.byteLength_cons] at hindent
          simp only [beq_iff_eq] at hzero
          omega
    generalize found.marker = marker at hspells hadmits
    cases hspells with
    | bullet => cases hadmits
    | @ordinal digits hne hdigits =>
        exact ⟨digits, gap, found.rest, by simp [hblanks], hne, hdigits, hgap⟩
  · rintro ⟨digits, gap, rest, rfl, hne, hdigits, hgap⟩
    obtain ⟨found, hfound, hmarker, hindent, -⟩ :=
      @Marker.exists_match? _ [] _ gap (by simp) (.ordinal hne hdigits) hgap rest
    refine ⟨found, by simpa using hfound, ?_⟩
    rw [hmarker, hindent]
    rfl

/-- What is left of a text without the markers of the set that it starts with, and the blanks around
them: the whole run is gone, and no marker of the set comes after it. -/
def StripsTo (set : MarkerSet) (text rest : List Char) : Prop :=
  (∃ leads : List (List Char), text = leads.flatten ++ rest ∧
    ∀ lead ∈ leads, ∃ marker : Marker, set.admits marker = true ∧ marker.IsLead lead) ∧
  ∀ (marker : Marker) (lead after : List Char), set.admits marker = true → marker.IsLead lead →
    rest ≠ lead ++ after

/-- No marker of the set is left at the front. -/
theorem startsWithMarker_stripMarkers (set : MarkerSet) (text : List Char) :
    startsWithMarker set (stripMarkers set text) = false := by
  fun_induction stripMarkers set text with
  | case1 text found hfound hadmits ih => exact ih
  | case2 text found hfound hadmits => simpa [startsWithMarker, hfound] using hadmits
  | case3 text hnone => simp [startsWithMarker, hnone]

theorem stripMarkers_of_startsWithMarker {set : MarkerSet} {text : List Char}
    (h : startsWithMarker set text = false) : stripMarkers set text = text := by
  unfold stripMarkers
  split
  · next found hfound =>
      have hadmits : set.admits found.marker = false := by simpa [startsWithMarker, hfound] using h
      rw [hadmits, if_neg Bool.false_ne_true]
  · rfl

/-- A text without any marker reads as no numbered item. -/
theorem isOrdinalItem_stripMarkers (text : List Char) :
    isOrdinalItem (stripMarkers .any text) = false := by
  have hstarts := startsWithMarker_stripMarkers .any text
  rw [startsWithMarker] at hstarts
  rw [isOrdinalItem]
  cases hfound : Marker.match? (stripMarkers .any text) with
  | none => rfl
  | some found => simp [hfound, MarkerSet.admits] at hstarts

/-- The loop takes away what it should and nothing else. -/
theorem stripsTo_stripMarkers (set : MarkerSet) (text : List Char) :
    StripsTo set text (stripMarkers set text) := by
  refine ⟨?_, fun marker lead after hadmits hlead heq => ?_⟩
  · fun_induction stripMarkers set text with
    | case1 text found hfound hadmits ih =>
        obtain ⟨leads, hrest, hleads⟩ := ih
        obtain ⟨blanks, mark, gap, htext, hblanks, hspells, hgap, -, -⟩ :=
          Marker.match?_eq_some_iff.1 hfound
        refine ⟨(blanks ++ (mark ++ [gap])) :: leads, ?_, fun lead hl => ?_⟩
        · rw [htext, List.flatten_cons, List.append_assoc _ leads.flatten, ← hrest]
          simp
        · rcases List.mem_cons.1 hl with rfl | hl
          · exact ⟨found.marker, hadmits, blanks, mark, gap, rfl, hblanks, hspells, hgap⟩
          · exact hleads lead hl
    | case2 text => exact ⟨[], rfl, by simp⟩
    | case3 text => exact ⟨[], rfl, by simp⟩
  · have hstarts := startsWithMarker_iff.2 ⟨marker, lead, after, hadmits, hlead, heq⟩
    rw [startsWithMarker_stripMarkers] at hstarts
    cases hstarts

/-- A text without markers has none to lose. -/
theorem stripMarkers_stripMarkers (set : MarkerSet) (text : List Char) :
    stripMarkers set (stripMarkers set text) = stripMarkers set text :=
  stripMarkers_of_startsWithMarker (startsWithMarker_stripMarkers set text)

end DefinitionLists
