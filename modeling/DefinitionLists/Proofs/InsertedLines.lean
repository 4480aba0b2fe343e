/-
Module: DefinitionLists.Proofs.InsertedLines
Purpose: What the rewriting of lines inserts at a line, told from the line and the lines above it in the
  document, without reference to what is kept in mind from one line to the next. All lines stay.
Main exports: DefinesItem, definitionMarker?_eq_some_iff, ColonContent, IsPlainDefinition, IsBarrier,
  InFence, FollowsTerm, Inserts, LineState.Tells, prenormalize_inserts_lines
-/
import Mathlib.Data.List.TakeWhile
import DefinitionLists.Prenormalization
import DefinitionLists.Proofs.Markers

namespace DefinitionLists

open Text (isBlank joinLines splitLines trim trimStart)

/-! ### Kinds of lines -/

/-- Whether the line defines a term by an item with that marker: spaces and tabs, a colon, and a marker
that a space or a tab follows. -/
def DefinesItem (line : List Char) (marker : Marker) : Prop :=
  ∃ indent blanks mark gap rest, line = indent ++ ':' :: (blanks ++ (mark ++ gap :: rest)) ∧
    (∀ c ∈ indent, isIndentation c = true) ∧ (∀ c ∈ blanks, isBlank c = true) ∧
    marker.Spells mark ∧ isIndentation gap = true

/-- Whether this is the line without its colon, the spaces and tabs before it, and one space or tab after
it if one is there. -/
def ColonContent (line content : List Char) : Prop :=
  ∃ indent gap, line = indent ++ ':' :: (gap ++ content) ∧ (∀ c ∈ indent, isIndentation c = true) ∧
    ((∃ c, gap = [c] ∧ isIndentation c = true) ∨
      gap = [] ∧ ∀ c ∈ content.head?, isIndentation c = false)

/-- Whether the line defines a term by text: it starts with a colon and a space, and with no marker after
them. -/
def IsPlainDefinition (line : List Char) : Prop :=
  [':', ' '] <+: line ∧ ∀ marker, ¬ DefinesItem line marker

/-- Whether no definition goes on after the line: it is blank, a definition by an item, or a fence. -/
def IsBarrier (line : List Char) : Prop :=
  (∀ c ∈ line, isBlank c = true) ∨ (∃ marker, DefinesItem line marker) ∨ isFenceLine line = true

section Lines

variable {line : List Char} {marker : Marker}

theorem isBlank_of_isIndentation {c : Char} (h : isIndentation c = true) : isBlank c = true := by
  rcases (Bool.or_eq_true _ _).mp h with h | h <;> rw [eq_of_beq h] <;> rfl

/-- Spaces and tabs end where something else begins. -/
theorem dropWhile_isIndentation {indent rest : List Char} (hi : ∀ c ∈ indent, isIndentation c = true)
    (hr : ∀ c ∈ rest.head?, isIndentation c = false) :
    (indent ++ rest).dropWhile isIndentation = rest := by
  rw [List.dropWhile_append_of_pos hi]
  cases rest with
  | nil => rfl
  | cons c more => rw [List.dropWhile_cons_of_neg (by simp [hr c rfl])]

theorem isIndentation_of_mem_takeWhile {c : Char} (h : c ∈ line.takeWhile isIndentation) :
    isIndentation c = true :=
  List.all_eq_true.1 List.all_takeWhile c h

/-- No marker opens with a space or a tab. -/
theorem Marker.Spells.head_append {mark : List Char} (h : marker.Spells mark) (rest : List Char) :
    ∀ c ∈ (mark ++ rest).head?, isIndentation c = false := by
  obtain ⟨c, more, rfl, hblank⟩ := h.exists_cons
  rintro d hd
  obtain rfl : c = d := Option.some.inj hd
  rw [Bool.eq_false_iff]
  intro hindent
  rw [isBlank_of_isIndentation hindent] at hblank
  cases hblank

/-- Where a marker stands behind blanks, it still does without the spaces and tabs among them that come
first. -/
theorem exists_dropWhile_isIndentation {blanks mark : List Char} (hb : ∀ c ∈ blanks, isBlank c = true)
    (hm : marker.Spells mark) (rest : List Char) :
    ∃ left, (blanks ++ (mark ++ rest)).dropWhile isIndentation = left ++ (mark ++ rest) ∧
      ∀ c ∈ left, isBlank c = true := by
  refine ⟨blanks.dropWhile isIndentation, ?_, fun c hc => hb c ((List.dropWhile_sublist _).subset hc)⟩
  have hmark : (mark ++ rest).dropWhile isIndentation = mark ++ rest :=
    @dropWhile_isIndentation [] _ (by simp) (hm.head_append rest)
  rw [List.dropWhile_append, hmark]
  split
  · next hempty => rw [List.isEmpty_iff.1 hempty, List.nil_append]
  · rfl

/-- The blank after a marker is the last character before what follows. -/
theorem getLast?_take_gap (front : List Char) (gap : Char) (rest : List Char) :
    ((front ++ gap :: rest).take ((front ++ gap :: rest).length - rest.length)).getLast? =
      some gap := by
  have hfront : front ++ gap :: rest = (front ++ [gap]) ++ rest := by simp
  rw [hfront, List.length_append, Nat.add_sub_cancel, List.take_left, List.getLast?_concat]

/-- The marker that is found is the one that the line defines an item by. -/
theorem definitionMarker?_eq_some_iff : definitionMarker? line = some marker ↔
    DefinesItem line marker := by
  constructor
  · intro h
    unfold definitionMarker? at h
    split at h
    · next rest hrest =>
        simp only at h
        split at h
        · next found hfound =>
            obtain ⟨blanks, mark, gap, htext, hblanks, hspells, -, -, -⟩ :=
              Marker.match?_eq_some_iff.1 hfound
            rw [htext, ← List.append_assoc, getLast?_take_gap, Option.any_some] at h
            split at h
            · next hgap =>
                cases h
                refine ⟨line.takeWhile isIndentation, rest.takeWhile isIndentation ++ blanks, mark, gap,
                  found.rest, ?_, fun _ => isIndentation_of_mem_takeWhile, fun c hc => ?_, hspells, hgap⟩
                · rw [List.append_assoc, ← htext, List.takeWhile_append_dropWhile, ← hrest,
                    List.takeWhile_append_dropWhile]
                · rcases List.mem_append.1 hc with hc | hc
                  · exact isBlank_of_isIndentation (isIndentation_of_mem_takeWhile hc)
                  · exact hblanks c hc
            · cases h
        · cases h
    · cases h
  · rintro ⟨indent, blanks, mark, gap, rest, rfl, hindent, hblanks, hspells, hgap⟩
    have hcolon : (indent ++ ':' :: (blanks ++ (mark ++ gap :: rest))).dropWhile isIndentation =
        ':' :: (blanks ++ (mark ++ gap :: rest)) :=
      dropWhile_isIndentation hindent (by rintro c ⟨⟩; rfl)
    -- the blanks before the marker may end in some that are no indentation; these are skipped with the
    -- marker
    obtain ⟨left, hdrop, hleft⟩ := exists_dropWhile_isIndentation hblanks hspells (gap :: rest)
    obtain ⟨found, hfound, rfl, -, rfl⟩ :=
      Marker.exists_match? hleft hspells (isBlank_of_isIndentation hgap) rest
    have hlast := getLast?_take_gap (left ++ mark) gap found.rest
    rw [List.append_assoc] at hlast
    unfold definitionMarker?
    rw [hcolon]
    simp only [hdrop, hfound, hlast, Option.any_some, hgap, if_true]

/-- A line that a colon opens, behind spaces and tabs, is no fence. -/
theorem isFenceLine_of_colon {indent : List Char} (hi : ∀ c ∈ indent, isIndentation c = true)
    (rest : List Char) : isFenceLine (indent ++ ':' :: rest) = false := by
  have hblanks : ∀ c ∈ indent, isBlank c = true := fun c hc => isBlank_of_isIndentation (hi c hc)
  have hcolon : isBlank ':' = false := rfl
  have htrim : trim (indent ++ ':' :: rest) = ':' :: Text.trimEnd rest := by
    rw [trim, trimStart, List.dropWhile_append_of_pos hblanks,
      List.dropWhile_cons_of_neg (by simp [hcolon]), Text.trimEnd, Text.trimEndWhile_cons hcolon]
    rfl
  rw [isFenceLine, htrim]
  rfl

/-- A fence begins with backticks or tildes, and a definition with a colon. -/
theorem DefinesItem.not_isFenceLine (h : DefinesItem line marker) : isFenceLine line = false := by
  obtain ⟨indent, blanks, mark, gap, rest, rfl, hindent, -⟩ := h
  exact isFenceLine_of_colon hindent _

theorem IsPlainDefinition.not_isFenceLine (h : IsPlainDefinition line) : isFenceLine line = false := by
  obtain ⟨⟨rest, rfl⟩, -⟩ := h
  exact @isFenceLine_of_colon [] (by simp) _

/-- A line is one of four kinds. -/
inductive LineKind (line : List Char) : Prop where
  | fence (hf : isFenceLine line = true) (hm : ∀ marker, ¬ DefinesItem line marker)
      (hp : ¬ IsPlainDefinition line)
  | item {marker : Marker} (hm : DefinesItem line marker)
  | plain (hp : IsPlainDefinition line)
  | other (hf : isFenceLine line = false) (hm : ∀ marker, ¬ DefinesItem line marker)
      (hp : ¬ IsPlainDefinition line)

/-- The kinds leave out no line, and no fence is a definition. -/
theorem lineKind (line : List Char) : LineKind line := by
  by_cases hm : ∃ marker, DefinesItem line marker
  · obtain ⟨marker, hmarker⟩ := hm
    exact .item hmarker
  · have hm := not_exists.1 hm
    by_cases hp : IsPlainDefinition line
    · exact .plain hp
    · cases hf : isFenceLine line with
      | true => exact .fence hf hm hp
      | false => exact .other hf hm hp

end Lines

/-! ### The lines above -/

/-- Whether a fence is open after these lines: every other fence closes the one before it. -/
def InFence (earlier : List (List Char)) : Prop := earlier.countP isFenceLine % 2 = 1

/-- Whether a plain definition is met before any barrier on the way back from the end of these lines. -/
def InDefinition (earlier : List (List Char)) : Prop :=
  ∃ front plain between, earlier = front ++ plain :: between ∧ IsPlainDefinition plain ∧
    ∀ line ∈ between, ¬ IsBarrier line

/-- Whether the last of these lines is neither a barrier nor a plain definition, so that it may be a term,
and a plain definition is met before any barrier on the way back from it. -/
def FollowsTerm (earlier : List (List Char)) : Prop :=
  ∃ above last, earlier = above ++ [last] ∧ ¬ IsBarrier last ∧ ¬ IsPlainDefinition last ∧
    InDefinition above

section Earlier

variable {earlier : List (List Char)} {line : List Char}

/-- A fence opens what is closed and closes what is open. -/
theorem inFence_concat_of_fence (h : isFenceLine line = true) :
    InFence (earlier ++ [line]) ↔ ¬ InFence earlier := by
  rw [InFence, InFence, List.countP_append, List.countP_singleton, h, if_pos rfl]
  omega

theorem inFence_concat_of_not_fence (h : isFenceLine line = false) :
    InFence (earlier ++ [line]) ↔ InFence earlier := by
  rw [InFence, InFence, List.countP_append, List.countP_singleton, h, if_neg Bool.false_ne_true,
    Nat.add_zero]

theorem not_inDefinition_nil : ¬ InDefinition [] := by
  rintro ⟨front, plain, between, heq, -⟩
  cases List.nil_eq_append_iff.1 heq |>.2

/-- Going back, the last line comes first: it is a plain definition itself, or no barrier. -/
theorem inDefinition_concat : InDefinition (earlier ++ [line]) ↔
    IsPlainDefinition line ∨ (InDefinition earlier ∧ ¬ IsBarrier line) := by
  constructor
  · rintro ⟨front, plain, between, heq, hplain, hbetween⟩
    rcases List.eq_nil_or_concat between with rfl | ⟨between, last, rfl⟩
    · obtain ⟨rfl, hlast⟩ := List.append_inj' heq rfl
      cases hlast
      exact .inl hplain
    · rw [List.concat_eq_append] at heq hbetween
      rw [← List.cons_append, ← List.append_assoc] at heq
      obtain ⟨rfl, hlast⟩ := List.append_inj' heq rfl
      cases hlast
      refine .inr ⟨⟨front, plain, between, rfl, hplain, fun other ho => hbetween other ?_⟩,
        hbetween _ (by simp)⟩
      exact List.mem_append_left _ ho
  · rintro (hplain | ⟨⟨front, plain, between, rfl, hplain, hbetween⟩, hline⟩)
    · exact ⟨earlier, line, [], rfl, hplain, by simp⟩
    · refine ⟨front, plain, between ++ [line], by simp, hplain, fun other ho => ?_⟩
      rcases List.mem_append.1 ho with ho | ho
      · exact hbetween other ho
      · rwa [List.mem_singleton.1 ho]

/-- A definition goes on at the last line unless it has just begun there. -/
theorem followsTerm_iff : FollowsTerm earlier ↔
    InDefinition earlier ∧ ∀ last ∈ earlier.getLast?, ¬ IsPlainDefinition last := by
  rcases List.eq_nil_or_concat earlier with rfl | ⟨above, last, rfl⟩
  · refine ⟨?_, fun h => absurd h.1 not_inDefinition_nil⟩
    rintro ⟨above, last, heq, -⟩
    cases List.nil_eq_append_iff.1 heq |>.2
  · rw [List.concat_eq_append, List.getLast?_concat, inDefinition_concat]
    constructor
    · rintro ⟨above, last, heq, hbarrier, hplain, hin⟩
      obtain ⟨rfl, hlast⟩ := List.append_inj' heq rfl
      cases hlast
      exact ⟨.inr ⟨hin, hbarrier⟩, by rintro _ ⟨⟩; exact hplain⟩
    · rintro ⟨hin, hlast⟩
      have hplain := hlast last rfl
      obtain ⟨hin, hbarrier⟩ := hin.resolve_left hplain
      exact ⟨above, last, rfl, hbarrier, hplain, hin⟩

end Earlier

/-! ### Rules -/

/-- How far the repeated item is indented. -/
def Marker.seedIndent : Marker → Nat
  | .bullet _ => 2
  | .ordinal _ => 4

/-- Which lines are inserted above and below a line that comes after `earlier` in the document. -/
inductive Inserts (earlier : List (List Char)) (line : List Char) :
    (above below : List (List Char)) → Prop where
  /-- In a fence lines are left alone. -/
  | fenced (h : InFence earlier) : Inserts earlier line [] []
  /-- The item that a definition opens with is repeated below it. -/
  | repeated (h : ¬ InFence earlier) {marker : Marker} {content : List Char}
      (hm : DefinesItem line marker) (hc : ColonContent line content) :
      Inserts earlier line [] [List.replicate marker.seedIndent ' ' ++ content]
  /-- A plain definition is set apart from what stands above it. -/
  | spaced (h : ¬ InFence earlier) (hp : IsPlainDefinition line) (ht : ¬ FollowsTerm earlier) :
      Inserts earlier line [[]] []
  /-- It is not if a term stands above it that follows a definition. -/
  | joined (h : ¬ InFence earlier) (hp : IsPlainDefinition line) (ht : FollowsTerm earlier) :
      Inserts earlier line [] []
  /-- Lines that define nothing are left alone. -/
  | other (h : ¬ InFence earlier) (hm : ∀ marker, ¬ DefinesItem line marker)
      (hp : ¬ IsPlainDefinition line) : Inserts earlier line [] []

/-- The content of a definition is what is left of it without its colon. -/
theorem DefinesItem.colonContent {line : List Char} {marker : Marker} (h : DefinesItem line marker) :
    ColonContent line (dropColon line) := by
  obtain ⟨indent, blanks, mark, gap, rest, rfl, hindent, -, hspells, -⟩ := h
  obtain ⟨c, more, hmore⟩ : ∃ c more, blanks ++ (mark ++ gap :: rest) = c :: more := by
    refine List.exists_cons_of_ne_nil ?_
    simp
  have hcolon : (indent ++ ':' :: c :: more).dropWhile isIndentation = ':' :: c :: more :=
    dropWhile_isIndentation hindent (by rintro d ⟨⟩; rfl)
  rw [hmore, dropColon, hcolon]
  cases hc : isIndentation c with
  | true => exact ⟨indent, [c], by simp [hc], hindent, .inl ⟨c, rfl, hc⟩⟩
  | false => exact ⟨indent, [], by simp [hc], hindent, .inr ⟨rfl, by simp [hc]⟩⟩

theorem seedLine_eq (marker : Marker) (line : List Char) :
    seedLine marker line = List.replicate marker.seedIndent ' ' ++ dropColon line := by
  cases marker <;> rfl

namespace LineState

/-- Whether what is kept in mind before a line is what the lines above it tell. -/
structure Tells (state : LineState) (earlier : List (List Char)) : Prop where
  inFence : state.inFence = true ↔ InFence earlier
  inDefinition : state.inDefinition = true ↔ ¬ InFence earlier ∧ InDefinition earlier
  previous : state.previousIsDefinition = true ↔
    ¬ InFence earlier ∧ ∃ last ∈ earlier.getLast?, IsPlainDefinition last

/-- Before the first line nothing is open and nothing was defined. -/
theorem tells_start : Tells {} [] where
  inFence := by simp [InFence]
  inDefinition := by simp [not_inDefinition_nil]
  previous := by simp

section Taking

variable {state : LineState} {earlier : List (List Char)} {line : List Char}

theorem take_fence (h : isFenceLine line = true) :
    state.take line = ([line], ⟨!state.inFence, false, false⟩) := by
  rw [take, if_pos h]

theorem take_inFence (hs : state.inFence = true) (h : isFenceLine line = false) :
    state.take line = ([line], state) := by
  rw [take, h, if_neg Bool.false_ne_true, if_pos hs]

theorem take_item {marker : Marker} (hs : state.inFence = false) (h : DefinesItem line marker) :
    state.take line = ([line, seedLine marker line], ⟨false, false, false⟩) := by
  rw [take, h.not_isFenceLine, hs, definitionMarker?_eq_some_iff.2 h]
  rfl

theorem definitionMarker?_eq_none (h : ∀ marker, ¬ DefinesItem line marker) :
    definitionMarker? line = none := by
  refine Option.eq_none_iff_forall_ne_some.2 fun marker hmarker => ?_
  exact h marker (definitionMarker?_eq_some_iff.1 hmarker)

theorem take_plain (hs : state.inFence = false) (h : IsPlainDefinition line) :
    state.take line = (if state.inDefinition && !state.previousIsDefinition then [line] else [[], line],
      ⟨false, true, true⟩) := by
  rw [take, h.not_isFenceLine, hs, definitionMarker?_eq_none h.2]
  simp only [List.isPrefixOf_iff_prefix.2 h.1, Bool.false_eq_true, if_false, if_true]

theorem take_other (hs : state.inFence = false) (hf : isFenceLine line = false)
    (hm : ∀ marker, ¬ DefinesItem line marker) (hp : ¬ IsPlainDefinition line) :
    state.take line = ([line], ⟨false, state.inDefinition && !(trim line).isEmpty, false⟩) := by
  have hstarts : ¬ [':', ' '].isPrefixOf line = true := fun h =>
    hp ⟨List.isPrefixOf_iff_prefix.1 h, hm⟩
  rw [take, hf, hs, definitionMarker?_eq_none hm]
  simp only [hstarts, Bool.false_eq_true, if_false]

theorem isEmpty_trim_iff : (trim line).isEmpty = true ↔ ∀ c ∈ line, isBlank c = true := by
  rw [List.isEmpty_iff, trim, Text.trimEnd, Text.trimEndWhile, List.reverse_eq_nil_iff,
    List.dropWhile_eq_nil_iff, trimStart]
  constructor
  · intro h
    have hnone : line.dropWhile isBlank = [] := by
      cases hdrop : line.dropWhile isBlank with
      | nil => rfl
      | cons c more =>
          have hhead := List.head?_dropWhile_not isBlank line
          have hblank : isBlank c = true := h c (by simp [hdrop])
          simp [hdrop, hblank] at hhead
    exact List.dropWhile_eq_nil_iff.1 hnone
  · intro h
    rw [List.dropWhile_eq_nil_iff.2 h]
    simp

theorem Tells.not_inFence (h : state.Tells earlier) (hs : state.inFence = false) :
    ¬ InFence earlier := by
  rw [← h.inFence, hs]
  exact Bool.false_ne_true

/-- In a fence nothing is kept in mind that a line could change, but where the fence ends. -/
theorem Tells.take_fenced (h : state.Tells earlier) (hs : state.inFence = true) (line : List Char) :
    (state.take line).2.Tells (earlier ++ [line]) := by
  have hin : InFence earlier := h.inFence.1 hs
  cases hf : isFenceLine line with
  | true =>
      have hout : ¬ InFence (earlier ++ [line]) :=
        (inFence_concat_of_fence hf).not.2 (not_not_intro hin)
      have hplain : ¬ IsPlainDefinition line := fun hp => by
        rw [hp.not_isFenceLine] at hf
        cases hf
      rw [take_fence hf, hs]
      refine ⟨by simp [hout], ?_, by simp [hplain]⟩
      simp [inDefinition_concat, hplain, IsBarrier, hf]
  | false =>
      have hin' : InFence (earlier ++ [line]) := (inFence_concat_of_not_fence hf).2 hin
      rw [take_inFence hs hf]
      refine ⟨by simp [hs, hin'], ?_, ?_⟩
      · simpa [hin, hin'] using h.inDefinition
      · simpa [hin, hin'] using h.previous

/-- Outside of fences each kind of line leaves behind what the lines up to it tell. -/
theorem Tells.take_outside (h : state.Tells earlier) (hs : state.inFence = false) (line : List Char) :
    (state.take line).2.Tells (earlier ++ [line]) := by
  have hout : ¬ InFence earlier := h.not_inFence hs
  have hout' (hf : isFenceLine line = false) : ¬ InFence (earlier ++ [line]) :=
    (inFence_concat_of_not_fence hf).not.2 hout
  cases lineKind line with
  | fence hf hm hp =>
      have hin : InFence (earlier ++ [line]) := (inFence_concat_of_fence hf).2 hout
      rw [take_fence hf, hs]
      exact ⟨by simp [hin], by simp [hin], by simp [hin]⟩
  | item hm =>
      have hplain : ¬ IsPlainDefinition line := fun hp => hp.2 _ hm
      have hbarrier : IsBarrier line := .inr (.inl ⟨_, hm⟩)
      rw [take_item hs hm]
      refine ⟨by simp [hout' hm.not_isFenceLine], ?_, by simp [hplain]⟩
      simp [inDefinition_concat, hplain, hbarrier]
  | plain hp =>
      have hout' := hout' hp.not_isFenceLine
      rw [take_plain hs hp]
      refine ⟨by simp [hout'], ?_, by simp [hp, hout']⟩
      simp [inDefinition_concat, hp, hout']
  | other hf hm hp =>
      -- of the other lines only a blank one is a barrier
      have hbarrier : IsBarrier line ↔ (trim line).isEmpty = true := by
        rw [isEmpty_trim_iff]
        simp [IsBarrier, hm, hf]
      rw [take_other hs hf hm hp]
      refine ⟨by simp [hout' hf], ?_, by simp [hp]⟩
      simp [inDefinition_concat, hp, hout' hf, hout, hbarrier, h.inDefinition]

/-- What is known before a line and the line tell what is known after it. -/
theorem Tells.take (h : state.Tells earlier) (line : List Char) :
    (state.take line).2.Tells (earlier ++ [line]) := by
  cases hs : state.inFence with
  | true => exact h.take_fenced hs line
  | false => exact h.take_outside hs line

/-- What is known before a line inserts there what the lines above it call for. -/
theorem Tells.inserts (h : state.Tells earlier) (line : List Char) : ∃ above below,
    (state.take line).1 = above ++ line :: below ∧ Inserts earlier line above below := by
  cases hs : state.inFence with
  | true =>
      refine ⟨[], [], ?_, .fenced (h.inFence.1 hs)⟩
      cases hf : isFenceLine line with
      | true => rw [take_fence hf, List.nil_append]
      | false => rw [take_inFence hs hf, List.nil_append]
  | false =>
      have hout : ¬ InFence earlier := h.not_inFence hs
      cases lineKind line with
      | fence hf hm hp => exact ⟨[], [], by rw [take_fence hf, List.nil_append], .other hout hm hp⟩
      | item hm =>
          refine ⟨[], [_], ?_, .repeated hout hm hm.colonContent⟩
          rw [take_item hs hm, seedLine_eq, List.nil_append]
      | plain hp =>
          -- the two marks that are kept tell just whether a term stands above
          have hterm : (state.inDefinition && !state.previousIsDefinition) = true ↔
              FollowsTerm earlier := by
            rw [followsTerm_iff, Bool.and_eq_true, h.inDefinition, Bool.not_eq_true',
              ← Bool.not_eq_true, h.previous]
            simp [hout]
          rw [take_plain hs hp]
          by_cases ht : FollowsTerm earlier
          · exact ⟨[], [], by rw [if_pos (hterm.2 ht), List.nil_append], .joined hout hp ht⟩
          · exact ⟨[[]], [], by rw [if_neg (hterm.not.2 ht)]; rfl, .spaced hout hp ht⟩
      | other hf hm hp =>
          exact ⟨[], [], by rw [take_other hs hf hm hp, List.nil_append], .other hout hm hp⟩

end Taking

end LineState

/-! ### Documents -/

/-- A line of a document with the lines that are inserted above and below it. -/
structure Framed where
  above : List (List Char)
  line : List Char
  below : List (List Char)

/-- All lines in order. -/
def Framed.lines (framed : Framed) : List (List Char) := framed.above ++ framed.line :: framed.below

/-- The lines that lines become are these lines, framed by what is inserted at each of them. -/
theorem LineState.Tells.takeAll {state : LineState} {earlier : List (List Char)}
    (h : state.Tells earlier) (lines : List (List Char)) : ∃ framed : List Framed,
      state.takeAll lines = framed.flatMap Framed.lines ∧ framed.map Framed.line = lines ∧
      ∀ before this after, framed = before ++ this :: after →
        Inserts (earlier ++ before.map Framed.line) this.line this.above this.below := by
  induction lines generalizing state earlier with
  | nil => exact ⟨[], rfl, rfl, by simp⟩
  | cons line more ih =>
      obtain ⟨above, below, htaken, hinserts⟩ := h.inserts line
      obtain ⟨framed, hmore, hlines, hrules⟩ := ih (h.take line)
      refine ⟨⟨above, line, below⟩ :: framed, ?_, by rw [List.map_cons, hlines],
        fun before this after heq => ?_⟩
      · rw [List.flatMap_cons, ← hmore, Framed.lines, ← htaken]
        rfl
      · cases before with
        | nil =>
            cases heq
            simpa using hinserts
        | cons first before =>
            obtain ⟨rfl, rfl⟩ := List.cons.inj heq
            simpa using hrules before this after rfl

/-- What is inserted has no line feeds that the line does not have. -/
theorem Inserts.not_mem {earlier : List (List Char)} {line : List Char} {above below : List (List Char)}
    (h : Inserts earlier line above below) (hl : '\n' ∉ line) :
    ∀ other ∈ above ++ line :: below, '\n' ∉ other := by
  cases h with
  | fenced | joined | other => simpa using hl
  | spaced => simpa using hl
  | repeated hout hm hc =>
      obtain ⟨indent, gap, rfl, -⟩ := hc
      simp only [List.mem_append, List.mem_cons, not_or] at hl
      simp [hl]

/-- The rewriting of a document only inserts lines. Its lines are those of the document in their order,
each of them framed by what the lines above it call for: without the inserted lines the document is what
it was. -/
theorem prenormalize_inserts_lines (source : List Char) : ∃ framed : List Framed,
    splitLines (prenormalize source) = framed.flatMap Framed.lines ∧
    framed.map Framed.line = splitLines source ∧ joinLines (framed.map Framed.line) = source ∧
    ∀ before this after, framed = before ++ this :: after →
      Inserts (before.map Framed.line) this.line this.above this.below := by
  obtain ⟨framed, htaken, hlines, hrules⟩ := LineState.tells_start.takeAll (splitLines source)
  refine ⟨framed, ?_, hlines, by rw [hlines, Text.joinLines_splitLines], hrules⟩
  have hsplit : ∀ line ∈ framed.flatMap Framed.lines, '\n' ∉ line := by
    intro line hline
    obtain ⟨this, hthis, hline⟩ := List.mem_flatMap.1 hline
    obtain ⟨before, after, heq⟩ := List.append_of_mem hthis
    have hown : '\n' ∉ this.line :=
      Text.not_mem_of_mem_splitLines (hlines ▸ List.mem_map_of_mem hthis)
    exact (hrules before this after heq).not_mem hown line hline
  have hne : framed.flatMap Framed.lines ≠ [] := by
    obtain ⟨line, more, hsource⟩ := List.exists_cons_of_ne_nil (Text.splitLines_ne_nil source)
    rw [hsource] at hlines
    obtain ⟨this, rest, rfl, -, -⟩ := List.map_eq_cons_iff.1 hlines
    simp [Framed.lines]
  rw [prenormalize, htaken, Text.splitLines_joinLines hne hsplit]

/-- A term that follows a definition stays with the definition below it; a marker that a line end follows
defines no item; and a fence that is open at the end leaves all below it alone. -/
example : prenormalize "A\n: a\nB\n: b\n\t:2. c\nC\n: -\r\n~~~x\n: - d\n: e".toList =
    "A\n\n: a\nB\n: b\n\t:2. c\n    2. c\nC\n\n: -\r\n~~~x\n: - d\n: e".toList := by
  decide +kernel

end DefinitionLists
