/-
Module: DefinitionLists.Proofs.Settings.Spellings
Purpose: Which spellings of a name are one name: those that differ in blanks around it, in the case of
  letters, and in hyphens and underscores.
Main exports: Padded, SameLetter, Respelled, normalizeKey_eq_iff, normalizeKey_normalizeKey
-/
import Mathlib
import DefinitionLists.Settings

namespace DefinitionLists

open Text (isBlank trim trimEnd trimEndWhile trimStart)

/-! ### Blanks around a text -/

/-- Whether the text is another one with any blanks around it. -/
def Padded (core text : List Char) : Prop :=
  ∃ before after, text = before ++ (core ++ after) ∧ (∀ c ∈ before, isBlank c = true) ∧
    ∀ c ∈ after, isBlank c = true

theorem padded_trim (text : List Char) : Padded (trim text) text := by
  refine ⟨text.takeWhile isBlank, ((trimStart text).reverse.takeWhile isBlank).reverse, ?_,
    List.all_eq_true.1 List.all_takeWhile, fun c hc => ?_⟩
  · rw [trim, trimEnd, trimEndWhile, ← List.reverse_append, List.takeWhile_append_dropWhile,
      List.reverse_reverse, trimStart, List.takeWhile_append_dropWhile]
  · exact List.all_eq_true.1 List.all_takeWhile c (List.mem_reverse.1 hc)

theorem trimEnd_append_of_blank {after : List Char} (h : ∀ c ∈ after, isBlank c = true)
    (text : List Char) : trimEnd (text ++ after) = trimEnd text := by
  rw [trimEnd, trimEnd, trimEndWhile, trimEndWhile, List.reverse_append,
    List.dropWhile_append_of_pos fun c hc => h c (List.mem_reverse.1 hc)]

theorem trim_of_blank {text : List Char} (h : ∀ c ∈ text, isBlank c = true) : trim text = [] := by
  have hstart : trimStart text = [] := List.dropWhile_eq_nil_iff.2 h
  rw [trim, hstart]
  rfl

/-- Blanks around a text are trimmed as its own are. -/
theorem Padded.trim_eq {core text : List Char} (h : Padded core text) : trim text = trim core := by
  obtain ⟨before, after, rfl, hbefore, hafter⟩ := h
  have hstart : trimStart (before ++ (core ++ after)) = trimStart (core ++ after) :=
    List.dropWhile_append_of_pos hbefore
  rw [trim, hstart, trimStart, List.dropWhile_append]
  split
  · next hblank =>
      have hcore : ∀ c ∈ core, isBlank c = true :=
        List.dropWhile_eq_nil_iff.1 (List.isEmpty_iff.1 hblank)
      have hnone : after.dropWhile isBlank = [] := List.dropWhile_eq_nil_iff.2 hafter
      rw [trim_of_blank hcore, hnone]
      rfl
  · rw [trimEnd_append_of_blank hafter]
    rfl

theorem trim_trim (text : List Char) : trim (trim text) = trim text :=
  (padded_trim text).trim_eq.symm

/-! ### Letters -/

/-- Whether a name may have one of the characters in place of the other: the same letter in another case,
or a hyphen and an underscore. Case is that of the letters from `A` to `Z`, which are all that names of
stages have. -/
def SameLetter (c d : Char) : Prop :=
  c.toLower = d.toLower ∨ (c = '_' ∨ c = '-') ∧ (d = '_' ∨ d = '-')

/-- What a character counts as in a name. -/
def keyLetter (c : Char) : Char := if c = '_' then '-' else c.toLower

/-- Only a letter is lowered, and to a letter. -/
theorem toLower_eq_iff {c d : Char} (h : d.isAlpha = false) : c.toLower = d ↔ c = d := by
  constructor
  · intro heq
    have hletter : c.isAlpha = false := by rw [← Char.isAlpha_toLower_eq_isAlpha, heq, h]
    have hupper : ¬ c.isUpper = true := fun hu => by simp [Char.isAlpha, hu] at hletter
    rwa [Char.toLower_eq_of_not_isUpper hupper] at heq
  · rintro rfl
    exact Char.toLower_eq_of_not_isUpper fun hu => by simp [Char.isAlpha, hu] at h

/-- Two characters count as the same in a name just if one may stand for the other. -/
theorem keyLetter_eq_iff {c d : Char} : keyLetter c = keyLetter d ↔ SameLetter c d := by
  have hhyphen (e : Char) : e.toLower = '-' ↔ e = '-' := toLower_eq_iff rfl
  have hunderscore (e : Char) : e.toLower = '_' ↔ e = '_' := toLower_eq_iff rfl
  unfold keyLetter SameLetter
  by_cases hc : c = '_' <;> by_cases hd : d = '_'
  · simp [hc, hd]
  · have hlower : '_'.toLower = '_' := rfl
    simp only [hc, hd, if_true, if_false, hlower, true_or, true_and, false_or]
    rw [eq_comm, hhyphen, eq_comm (a := '_'), hunderscore]
    simp [hd]
  · have hlower : '_'.toLower = '_' := rfl
    simp only [hc, hd, if_true, if_false, hlower, true_or, and_true, false_or]
    rw [hhyphen, hunderscore]
    simp [hc]
  · simp only [hc, hd, if_false, false_or]
    refine ⟨.inl, ?_⟩
    rintro (heq | ⟨rfl, rfl⟩)
    · exact heq
    · rfl

theorem keyLetter_keyLetter (c : Char) : keyLetter (keyLetter c) = keyLetter c := by
  refine keyLetter_eq_iff.2 ?_
  unfold keyLetter
  split
  · next hc => exact .inr ⟨.inr rfl, .inl hc⟩
  · exact .inl (Char.toLower_toLower_eq_toLower c)

/-- A letter counts as a letter, and a blank as itself. -/
theorem isBlank_keyLetter (c : Char) : isBlank (keyLetter c) = isBlank c := by
  have hletters : ∀ n : Fin 128, isBlank (keyLetter (Char.ofNat n.val)) = isBlank (Char.ofNat n.val) := by
    decide
  by_cases hc : c.toNat < 128
  · have hletter := hletters ⟨c.toNat, hc⟩
    rwa [Char.ofNat_toNat] at hletter
  · have hupper : ¬ c.isUpper = true := fun hu => by
      simp only [Char.isUpper, decide_eq_true_eq, UInt32.le_iff_toNat_le] at hu
      exact hc (Nat.lt_of_le_of_lt hu.2 (by decide))
    have hunderscore : c ≠ '_' := by
      rintro rfl
      exact hc (by decide)
    rw [keyLetter, if_neg hunderscore, Char.toLower_eq_of_not_isUpper hupper]

theorem trim_map_keyLetter (text : List Char) :
    trim (text.map keyLetter) = (trim text).map keyLetter := by
  have hblank : isBlank ∘ keyLetter = isBlank := funext isBlank_keyLetter
  simp only [trim, trimEnd, trimEndWhile, trimStart, List.dropWhile_map, hblank, ← List.map_reverse]

/-! ### Names -/

/-- A name is normalized character by character once the blanks around it are gone. -/
theorem toList_normalizeKey (name : String) :
    (normalizeKey name).toList = (trim name.toList).map keyLetter := by
  rw [normalizeKey, String.toList_ofList]
  rfl

/-- Two spellings of one name: they differ at most in the blanks around it, in the case of its letters, and
in having a hyphen where the other has an underscore. -/
def Respelled (name other : String) : Prop :=
  ∃ core core', Padded core name.toList ∧ Padded core' other.toList ∧ List.Forall₂ SameLetter core core'

/-- Names are normalized alike exactly if they are spellings of one name. -/
theorem normalizeKey_eq_iff {name other : String} :
    normalizeKey name = normalizeKey other ↔ Respelled name other := by
  rw [← String.toList_inj, toList_normalizeKey, toList_normalizeKey]
  constructor
  · intro heq
    refine ⟨_, _, padded_trim _, padded_trim _, ?_⟩
    have hletters : List.Forall₂ (· = ·) ((trim name.toList).map keyLetter)
        ((trim other.toList).map keyLetter) := by rw [List.forall₂_eq_eq_eq, heq]
    rw [List.forall₂_map_left_iff, List.forall₂_map_right_iff] at hletters
    exact hletters.imp fun _ _ => keyLetter_eq_iff.1
  · rintro ⟨core, core', hname, hother, hsame⟩
    have hletters : core.map keyLetter = core'.map keyLetter := by
      rw [← List.forall₂_eq_eq_eq, List.forall₂_map_left_iff, List.forall₂_map_right_iff]
      exact hsame.imp fun _ _ => keyLetter_eq_iff.2
    rw [hname.trim_eq, hother.trim_eq, ← trim_map_keyLetter, ← trim_map_keyLetter, hletters]

/-- A normalized name is a spelling of the name. -/
theorem normalizeKey_normalizeKey (name : String) :
    normalizeKey (normalizeKey name) = normalizeKey name := by
  rw [← String.toList_inj, toList_normalizeKey, toList_normalizeKey, trim_map_keyLetter, trim_trim,
    List.map_map]
  exact List.map_congr_left fun c _ => keyLetter_keyLetter c

end DefinitionLists
