/-
Module: DefinitionLists.Marker
Purpose: List markers at the start of a text: bullets and numbered markers, found and stripped.
Main exports: Marker, MarkerSet, Marker.cappedValue, Marker.Match, Marker.match?, startsWithMarker,
  isOrdinalItem, stripMarkers
-/
import DefinitionLists.Text.Blank
import DefinitionLists.Text.Span

namespace DefinitionLists

open Text

/-- A list marker: a bullet character, or the number written before a full stop. -/
inductive Marker where
  | bullet (char : Char)
  | ordinal (value : Nat)
deriving Repr, Inhabited, DecidableEq

/-- Which kinds of marker count. -/
inductive MarkerSet where
  | bullets
  | ordinals
  | any
deriving Repr, Inhabited, DecidableEq

/-- Whether the set has markers of this kind. -/
def MarkerSet.admits : MarkerSet → Marker → Bool
  | .any, _ => true
  | .bullets, .bullet _ => true
  | .ordinals, .ordinal _ => true
  | _, _ => false

namespace Marker

/-- The largest number a marker stands for; longer numbers stand for this one. -/
def maxValue : Nat := UInt64.size - 1

/-- The number that decimal digits write. -/
def digitsValue (digits : List Char) : Nat :=
  digits.foldl (fun value c => value * 10 + (c.toNat - '0'.toNat)) 0

/-- The number that decimal digits stand for, counted up digit by digit: no product or sum on the way
goes past the largest number. -/
def cappedValue (digits : List Char) : Nat :=
  digits.foldl
    (fun value c => min (min (value * 10) maxValue + (c.toNat - '0'.toNat)) maxValue) 0

/-- Counting never past the largest number ends at the number written, or at the largest number if that
is less. -/
theorem cappedValue_eq (digits : List Char) :
    cappedValue digits = min (digitsValue digits) maxValue := by
  have hfold (total : Nat) : digits.foldl
        (fun value c => min (min (value * 10) maxValue + (c.toNat - '0'.toNat)) maxValue)
        (min total maxValue) =
      min (digits.foldl (fun value c => value * 10 + (c.toNat - '0'.toNat)) total) maxValue := by
    induction digits generalizing total with
    | nil => rfl
    | cons c rest ih =>
      -- a total that is capped before the digit is counted is capped after it too
      have hstep : min (min (min total maxValue * 10) maxValue + (c.toNat - '0'.toNat)) maxValue =
          min (total * 10 + (c.toNat - '0'.toNat)) maxValue := by omega
      rw [List.foldl_cons, List.foldl_cons, hstep, ih]
  exact hfold 0

/-- A marker at the start of a text, with the blanks before it and the one blank after it. -/
structure Match where
  marker : Marker
  /-- The bytes of the blanks before the marker. -/
  indent : Nat
  /-- The bytes of the blanks, the marker, and the blank after it. -/
  length : Nat
  /-- The text after the match. -/
  rest : List Char
deriving Repr, DecidableEq

/-- A marker and what follows it. A bullet is one of `-`, `+` and `*`; a number is a run of digits
with a full stop after it. -/
def bare? : List Char → Option (Marker × Nat × List Char)
  | [] => none
  | c :: rest =>
    if c = '-' ∨ c = '+' ∨ c = '*' then some (.bullet c, 1, rest)
    else if c.isDigit then
      let digits := (c :: rest).takeWhile Char.isDigit
      match (c :: rest).dropWhile Char.isDigit with
      | '.' :: rest => some (.ordinal (cappedValue digits), digits.length + 1, rest)
      | _ => none
    else none

/-- The marker that the text starts with, after blanks, if a blank follows it. -/
def match? (text : List Char) : Option Match :=
  match bare? (trimStart text) with
  | some (marker, size, gap :: rest) =>
    if isBlank gap then
      let indent := byteLength (text.takeWhile isBlank)
      some { marker, indent, length := indent + size + gap.utf8Size, rest }
    else none
  | _ => none

theorem length_rest_lt_of_bare? {text : List Char} {marker : Marker} {size : Nat}
    {rest : List Char} (h : bare? text = some (marker, size, rest)) : rest.length < text.length := by
  unfold bare? at h
  split at h
  · simp at h
  · next c tail =>
    split at h
    · simp only [Option.some.injEq, Prod.mk.injEq] at h
      simp [← h.2.2]
    · split at h
      · simp only at h
        split at h
        · next after heq =>
          simp only [Option.some.injEq, Prod.mk.injEq] at h
          have : ((c :: tail).dropWhile Char.isDigit).length ≤ (c :: tail).length :=
            (List.dropWhile_sublist _).length_le
          rw [heq, h.2.2] at this
          simp only [List.length_cons] at this ⊢
          omega
        · simp at h
      · simp at h

/-- What follows a marker is shorter than the text. -/
theorem length_rest_lt_of_match? {text : List Char} {found : Match} (h : match? text = some found) :
    found.rest.length < text.length := by
  unfold match? at h
  split at h
  · next marker size gap rest heq =>
    split at h
    · have := length_rest_lt_of_bare? heq
      have : (trimStart text).length ≤ text.length := (List.dropWhile_sublist _).length_le
      simp only [Option.some.injEq] at h
      rw [← h]
      simp only [List.length_cons] at *
      omega
    · simp at h
  · simp at h

end Marker

/-- Whether the text starts with a marker of the set, at any indentation. -/
def startsWithMarker (set : MarkerSet) (text : List Char) : Bool :=
  (Marker.match? text).any (fun found => set.admits found.marker)

/-- Whether the text reads as a numbered item: a number marker without blanks before it. -/
def isOrdinalItem (text : List Char) : Bool :=
  (Marker.match? text).any (fun found => found.indent == 0 && MarkerSet.ordinals.admits found.marker)

/-- The text after the whole run of markers of the set that it starts with. The run ends at the
first marker outside the set. -/
def stripMarkers (set : MarkerSet) (text : List Char) : List Char :=
  match _h : Marker.match? text with
  | some found => if set.admits found.marker then stripMarkers set found.rest else text
  | none => text
termination_by text.length
decreasing_by exact Marker.length_rest_lt_of_match? _h

end DefinitionLists
