/-
Module: DefinitionLists.Proofs.Markdown.Excerpts
Purpose: What is found at the front of a text that ends with a line, where the text stands and where it
  is read alone: the same in both, unless it reaches beyond the text where that stands.
Main exports: SameText, AtLineEnd, AfterAlike, FoundAlike, skipSpace_alike, codeSpan_alike
-/
import DefinitionLists.Proofs.Markdown.Remainders
import DefinitionLists.Proofs.Words

namespace DefinitionLists.Markdown

open Markdown.Symbol (isChar skipSpace source sourceWithoutMargins)
open Text (lettered solid solid_append solid_cons solid_of_blank spaced worded words)

/-- Whether the end of a line has nothing but blanks in it, and is not empty. -/
structure Break.IsBlank (around : Break) : Prop where
  ends : around.ending ≠ []
  blank : ∀ c ∈ around.ending ++ around.margin ++ around.lead, Text.isBlank c = true

/-- A blank end of a line has no characters that count. -/
theorem Break.IsBlank.solid_eq_nil {around : Break} (h : around.IsBlank) :
    solid around.ending = [] ∧ solid around.margin = [] ∧ solid around.lead = [] := by
  have hall := solid_of_blank h.blank
  simp only [solid_append, List.append_eq_nil_iff] at hall
  exact ⟨hall.1.1, hall.1.2, hall.2⟩

/-- Whether two ends of lines are the same. Unless blanks count, they may differ in what ends the line
and in the blanks before the next one. -/
inductive Break.Alike : (blanks : Bool) → (around around' : Break) → Prop where
  | same (blanks : Bool) (around : Break) : Alike blanks around around
  | blank {around around' : Break} (trail : around.trail = around'.trail) (blank : around.IsBlank)
      (blank' : around'.IsBlank) : Alike false around around'

instance (around : Break) : Decidable around.IsBlank :=
  decidable_of_iff (around.ending ≠ [] ∧
      (around.ending ++ around.margin ++ around.lead).all Text.isBlank = true)
    ⟨fun h => ⟨h.1, List.all_eq_true.1 h.2⟩, fun h => ⟨h.ends, List.all_eq_true.2 h.blank⟩⟩

theorem Break.alike_iff {blanks : Bool} {around around' : Break} : around.Alike blanks around' ↔
    around = around' ∨
      blanks = false ∧ around.trail = around'.trail ∧ around.IsBlank ∧ around'.IsBlank := by
  constructor
  · intro h
    cases h with
    | same => exact .inl rfl
    | blank trail blank blank' => exact .inr ⟨rfl, trail, blank, blank'⟩
  · rintro (rfl | ⟨rfl, trail, blank, blank'⟩)
    · exact .same blanks around
    · exact .blank trail blank blank'

instance (blanks : Bool) (around around' : Break) : Decidable (around.Alike blanks around') :=
  decidable_of_iff _ Break.alike_iff.symm

/-- Alike ends of lines end the text before them in the same way. -/
theorem Break.Alike.trail {blanks : Bool} {around around' : Break} (h : around.Alike blanks around') :
    around.trail = around'.trail := by
  cases h with
  | same => rfl
  | blank trail _ _ => exact trail

/-- Two texts are the same but for the ends of their lines, which are alike. -/
inductive SameText (blanks : Bool) : List Symbol → List Symbol → Prop where
  | nil : SameText blanks [] []
  | char (c : Char) {own text : List Symbol} (more : SameText blanks own text) :
      SameText blanks (.char c :: own) (.char c :: text)
  | lineBreak {around around' : Break} {own text : List Symbol} (alike : around.Alike blanks around')
      (more : SameText blanks own text) :
      SameText blanks (.lineBreak around :: own) (.lineBreak around' :: text)

/-- Whether no character comes next, but the end of the line or of the text. -/
def AtLineEnd (symbols : List Symbol) : Prop := ∀ c, symbols.head? ≠ some (.char c)

instance : (symbols : List Symbol) → Decidable (AtLineEnd symbols)
  | [] => isTrue fun _ h => nomatch h
  | .lineBreak _ :: _ => isTrue fun _ h => nomatch h
  | .char c :: _ => isFalse fun h => h c rfl

namespace SameText

variable {blanks : Bool} {own text : List Symbol}

theorem length_eq (h : SameText blanks own text) : own.length = text.length := by
  induction h with
  | nil => rfl
  | char c _ ih | lineBreak _ _ ih => rw [List.length_cons, List.length_cons, ih]

theorem char_iff {c c' : Char} :
    SameText blanks (.char c :: own) (.char c' :: text) ↔ c = c' ∧ SameText blanks own text := by
  constructor
  · intro h
    cases h with
    | char _ more => exact ⟨rfl, more⟩
  · rintro ⟨rfl, more⟩
    exact .char c more

theorem lineBreak_iff {around around' : Break} :
    SameText blanks (.lineBreak around :: own) (.lineBreak around' :: text) ↔
      around.Alike blanks around' ∧ SameText blanks own text := by
  constructor
  · intro h
    cases h with
    | lineBreak alike more => exact ⟨alike, more⟩
  · rintro ⟨alike, more⟩
    exact .lineBreak alike more

/-- Whether two texts are the same can be decided. -/
instance decidable (blanks : Bool) : (own text : List Symbol) → Decidable (SameText blanks own text)
  | [], [] => isTrue .nil
  | .char _ :: own, .char _ :: text =>
    have := decidable blanks own text
    decidable_of_iff _ char_iff.symm
  | .lineBreak _ :: own, .lineBreak _ :: text =>
    have := decidable blanks own text
    decidable_of_iff _ lineBreak_iff.symm
  | [], _ :: _ | _ :: _, [] | .char _ :: _, .lineBreak _ :: _ | .lineBreak _ :: _, .char _ :: _ =>
    isFalse nofun

theorem append {own' text' : List Symbol} (h : SameText blanks own text)
    (h' : SameText blanks own' text') : SameText blanks (own ++ own') (text ++ text') := by
  induction h with
  | nil => exact h'
  | char c _ ih => exact .char c ih
  | lineBreak alike _ ih => exact .lineBreak alike ih

theorem reverse (h : SameText blanks own text) : SameText blanks own.reverse text.reverse := by
  induction h with
  | nil => exact .nil
  | char c _ ih =>
      rw [List.reverse_cons, List.reverse_cons]
      exact ih.append (.char c .nil)
  | lineBreak alike _ ih =>
      rw [List.reverse_cons, List.reverse_cons]
      exact ih.append (.lineBreak alike .nil)

theorem drop (h : SameText blanks own text) (count : Nat) :
    SameText blanks (own.drop count) (text.drop count) := by
  induction h generalizing count with
  | nil =>
      rw [List.drop_nil]
      exact .nil
  | char c more ih =>
      cases count with
      | zero => exact .char c more
      | succ n => exact ih n
  | lineBreak alike more ih =>
      cases count with
      | zero => exact .lineBreak alike more
      | succ n => exact ih n

theorem take (h : SameText blanks own text) (count : Nat) :
    SameText blanks (own.take count) (text.take count) := by
  induction h generalizing count with
  | nil =>
      rw [List.take_nil]
      exact .nil
  | char c _ ih =>
      cases count with
      | zero => exact .nil
      | succ n => exact .char c (ih n)
  | lineBreak alike _ ih =>
      cases count with
      | zero => exact .nil
      | succ n => exact .lineBreak alike (ih n)

/-- Skipping what does not tell one end of a line from another leaves the same text. -/
theorem dropWhile (h : SameText blanks own text) {p : Symbol → Bool}
    (hp : ∀ around around', p (.lineBreak around) = p (.lineBreak around')) :
    SameText blanks (own.dropWhile p) (text.dropWhile p) := by
  induction h with
  | nil => exact .nil
  | char c more ih =>
      rw [List.dropWhile_cons, List.dropWhile_cons]
      split
      · exact ih
      · exact .char c more
  | @lineBreak around around' _ _ alike more ih =>
      rw [List.dropWhile_cons, List.dropWhile_cons, hp around around']
      split
      · exact ih
      · exact .lineBreak alike more

/-- What the end of a line shows in code are blanks. -/
theorem words_codeChars_lineBreak {around : Break} (h : around.IsBlank) (front : List Char)
    (rest : List Symbol) : words (front ++ codeChars (.lineBreak around :: rest)) =
      words (front ++ around.trail) ++ words (codeChars rest) := by
  have hne : List.replicate around.ending.length ' ' ++ around.lead ≠ [] := by
    simp [h.ends]
  have hblank : ∀ c ∈ List.replicate around.ending.length ' ' ++ around.lead,
      Text.isBlank c = true := by
    intro c hc
    rcases List.mem_append.1 hc with hspace | hlead
    · rw [List.eq_of_mem_replicate hspace]
      rfl
    · exact h.blank c (List.mem_append_right _ hlead)
  rw [← Text.words_append_of_blank hblank hne, codeChars]
  simp only [List.append_assoc]

/-- Code in the texts is made of the same words. -/
theorem words_codeChars (h : SameText blanks own text) (front : List Char) :
    words (front ++ codeChars own) = words (front ++ codeChars text) := by
  induction h generalizing front with
  | nil => rfl
  | char c _ ih =>
      have hmore := ih (front ++ [c])
      rwa [List.append_assoc, List.append_assoc] at hmore
  | @lineBreak around around' own text alike _ ih =>
      cases alike with
      | same =>
          have hmore :=
            ih (front ++ (around.trail ++ List.replicate around.ending.length ' ' ++ around.lead))
          simp only [codeChars, List.append_assoc] at hmore ⊢
          exact hmore
      | blank trail blank blank' =>
          have hmore := ih []
          rw [List.nil_append, List.nil_append] at hmore
          rw [words_codeChars_lineBreak blank, words_codeChars_lineBreak blank', trail, hmore]

/-- Texts that are the same are written the same, blanks apart. -/
theorem solid_source (h : SameText blanks own text) : solid (source own) = solid (source text) := by
  induction h with
  | nil => rfl
  | char c _ ih =>
      rw [source, source, solid_cons, ih, ← solid_cons]
  | lineBreak alike _ ih =>
      cases alike with
      | same => simp only [source, solid_append, ih]
      | blank trail blank blank' =>
          obtain ⟨hending, hmargin, hlead⟩ := blank.solid_eq_nil
          obtain ⟨hending', hmargin', hlead'⟩ := blank'.solid_eq_nil
          simp only [source, solid_append, trail, hending, hmargin, hlead, hending', hmargin', hlead', ih]

theorem solid_sourceWithoutMargins (h : SameText blanks own text) :
    solid (sourceWithoutMargins own) = solid (sourceWithoutMargins text) := by
  induction h with
  | nil => rfl
  | char c _ ih =>
      rw [sourceWithoutMargins, sourceWithoutMargins, solid_cons, ih, ← solid_cons]
  | lineBreak alike _ ih =>
      cases alike with
      | same => simp only [sourceWithoutMargins, solid_append, ih]
      | blank trail blank blank' =>
          obtain ⟨hending, -, hlead⟩ := blank.solid_eq_nil
          obtain ⟨hending', -, hlead'⟩ := blank'.solid_eq_nil
          simp only [sourceWithoutMargins, solid_append, trail, hending, hlead, hending', hlead', ih]

/-- Where blanks count, the texts are the same. -/
theorem eq_of_blanks (h : SameText true own text) : own = text := by
  induction h with
  | nil => rfl
  | char c _ ih => rw [ih]
  | lineBreak alike _ ih =>
      cases alike with
      | same => rw [ih]

/-- Texts that are the same are written the same as far as blanks count. -/
theorem lettered_source (h : SameText blanks own text) :
    lettered blanks (source own) = lettered blanks (source text) := by
  cases blanks with
  | true => rw [h.eq_of_blanks]
  | false => exact h.solid_source

theorem lettered_sourceWithoutMargins (h : SameText blanks own text) :
    lettered blanks (sourceWithoutMargins own) = lettered blanks (sourceWithoutMargins text) := by
  cases blanks with
  | true => rw [h.eq_of_blanks]
  | false => exact h.solid_sourceWithoutMargins

end SameText

/-! ### Two findings -/

/-- What is left after something at the front of a text, where that stands and where it is read alone.
Nothing is found in the text alone if where it stands all that is found reaches beyond it. -/
inductive AfterAlike (blanks : Bool) (back : List Symbol) :
    (whole alone : Option (List Symbol)) → Prop where
  | same {own text : List Symbol} (left : SameText blanks own text) :
      AfterAlike blanks back (some (own ++ back)) (some text)
  | beyond {whole : Option (List Symbol)} (h : ∀ rest ∈ whole, rest.length < back.length) :
      AfterAlike blanks back whole none

/-- The same for something that has a value. -/
inductive FoundAlike {α : Type} (blanks : Bool) (rel : α → α → Prop) (back : List Symbol) :
    (whole alone : Option (α × List Symbol)) → Prop where
  | same {value value' : α} (related : rel value value') {own text : List Symbol}
      (left : SameText blanks own text) :
      FoundAlike blanks rel back (some (value, own ++ back)) (some (value', text))
  | beyond {whole : Option (α × List Symbol)}
      (h : ∀ found ∈ whole, found.2.length < back.length) : FoundAlike blanks rel back whole none

variable {blanks : Bool} {own text back : List Symbol}

/-- After the text there is nothing, or the end of its line. -/
theorem AtLineEnd.cases (h : AtLineEnd back) :
    back = [] ∨ ∃ around rest, back = .lineBreak around :: rest := by
  cases back with
  | nil => exact .inl rfl
  | cons symbol rest =>
      cases symbol with
      | char c => exact absurd rfl (h c)
      | lineBreak around => exact .inr ⟨around, rest, rfl⟩

/-- No characters go on where a line ends. -/
theorem AtLineEnd.dropWhile_append (h : AtLineEnd back) (p : Char → Bool) (own : List Symbol) :
    (own ++ back).dropWhile (isChar p) = own.dropWhile (isChar p) ++ back := by
  induction own with
  | nil =>
      obtain rfl | ⟨around, rest, rfl⟩ := h.cases
      · rfl
      · rfl
  | cons symbol more ih =>
      rw [List.cons_append, List.dropWhile_cons, List.dropWhile_cons]
      split
      · exact ih
      · rfl

/-- Characters are skipped alike in both texts. -/
theorem SameText.dropWhile_isChar (h : SameText blanks own text) (p : Char → Bool) :
    SameText blanks (own.dropWhile (isChar p)) (text.dropWhile (isChar p)) :=
  h.dropWhile fun _ _ => rfl

/-- White space either ends within the text or, where the text stands, goes on beyond it. -/
theorem skipSpace_alike (h : SameText blanks own text) (hback : AtLineEnd back) :
    (∃ own', skipSpace (own ++ back) = own' ++ back ∧ SameText blanks own' (skipSpace text)) ∨
      skipSpace text = [] ∧ (skipSpace (own ++ back)).length < back.length := by
  have hleft : SameText blanks (skipSpace own) (skipSpace text) := h.dropWhile fun _ _ => rfl
  have happend : skipSpace (own ++ back) =
      if (skipSpace own).isEmpty then skipSpace back else skipSpace own ++ back :=
    List.dropWhile_append
  cases hown : skipSpace own with
  | nil =>
      rw [hown] at hleft happend
      have htext : skipSpace text = [] := List.eq_nil_of_length_eq_zero hleft.length_eq.symm
      obtain rfl | ⟨around, rest, rfl⟩ := hback.cases
      · exact .inl ⟨[], happend, by rw [htext]; exact .nil⟩
      · have hshort : (skipSpace (.lineBreak around :: rest)).length ≤ rest.length :=
          (skipSpace_suffix rest).length_le
        refine .inr ⟨htext, ?_⟩
        rw [happend, List.length_cons]
        exact Nat.lt_succ_of_le hshort
  | cons symbol more =>
      rw [hown] at hleft happend
      exact .inl ⟨symbol :: more, happend, hleft⟩

/-! ### Code and addresses -/

theorem SameText.backticks_append {before before' : List Symbol} (hb : SameText blanks before before')
    (run : Nat) : SameText blanks (List.replicate run (.char '`') ++ before)
      (List.replicate run (.char '`') ++ before') := by
  induction run with
  | zero => exact hb
  | succ n ih => exact .char '`' ih

/-- Backticks that end code are found in both texts, or beyond the end of the one that stands in a line.
-/
theorem splitAtBackticks_alike (h : SameText blanks own text) (hback : AtLineEnd back)
    {before before' : List Symbol} (hb : SameText blanks before before') (length run : Nat) :
    FoundAlike blanks (SameText blanks) back (splitAtBackticks? length run before (own ++ back))
      (splitAtBackticks? length run before' text) := by
  induction h generalizing before before' run with
  | nil =>
      obtain rfl | ⟨around, rest, rfl⟩ := hback.cases
      · simp only [splitAtBackticks?, List.append_nil]
        split
        · exact .same hb .nil
        · exact .beyond (by simp)
      · simp only [splitAtBackticks?, List.nil_append]
        split
        · exact .same hb .nil
        · refine .beyond fun found hfound => ?_
          exact Nat.lt_succ_of_le (splitAtBackticks_suffix hfound).length_le
  | char c more ih =>
      simp only [splitAtBackticks?, List.cons_append]
      split
      · exact ih hb _
      · split
        · exact .same hb (.char c more)
        · exact ih (.char c (hb.backticks_append run)) 0
  | lineBreak alike more ih =>
      simp only [splitAtBackticks?, List.cons_append]
      split
      · exact .same hb (.lineBreak alike more)
      · exact ih (.lineBreak alike (hb.backticks_append run)) 0

/-- A space at either end belongs to no word. -/
theorem words_stripCode (code : List Char) : words (stripCode code) = words code := by
  unfold stripCode
  split
  · next h =>
    obtain ⟨hfirst, hlast, -⟩ := h
    cases code with
    | nil => cases hfirst
    | cons first more =>
        obtain rfl := Option.some.inj hfirst
        rw [List.drop_one, List.tail_cons, Text.words_cons_of_isBlank rfl]
        cases hmore : more.getLast? with
        | none =>
            rw [List.getLast?_eq_none_iff.1 hmore]
            rfl
        | some last =>
            rw [List.getLast?_cons, hmore] at hlast
            obtain rfl : last = ' ' := Option.some.inj hlast
            obtain ⟨init, rfl⟩ := List.getLast?_eq_some_iff.1 hmore
            rw [List.dropLast_concat, Text.words_append_of_isBlank rfl]
            exact (List.append_nil _).symm
  · rfl

/-- Code is the same, or made of the same words. -/
theorem codeSpan_alike (h : SameText blanks own text) (hback : AtLineEnd back) (length : Nat) :
    FoundAlike blanks (fun code code' => worded blanks code = worded blanks code') back
      (codeSpan? length (own ++ back)) (codeSpan? length text) := by
  cases length with
  | zero => exact .beyond (by simp [codeSpan?])
  | succ n =>
      have hsplit := splitAtBackticks_alike h hback .nil (n + 1) 0
      simp only [codeSpan?]
      generalize splitAtBackticks? (n + 1) 0 [] (own ++ back) = whole at hsplit ⊢
      generalize splitAtBackticks? (n + 1) 0 [] text = alone at hsplit ⊢
      cases hsplit with
      | same related left =>
          refine .same ?_ left
          cases blanks with
          | true => rw [related.eq_of_blanks]
          | false =>
              have hwords := related.reverse.words_codeChars []
              rw [worded, worded, if_neg Bool.false_ne_true, if_neg Bool.false_ne_true, spaced, spaced,
                words_stripCode, words_stripCode]
              exact congrArg _ hwords
      | beyond h =>
          refine .beyond fun found hfound => ?_
          obtain ⟨split, hsplit, rfl⟩ := Option.map_eq_some_iff.1 hfound
          exact h split hsplit

/-- The rest of the line is the same for both texts, which end where the line does. -/
theorem lineChars_append (h : SameText blanks own text) (hback : AtLineEnd back) :
    lineChars (own ++ back) = lineChars text := by
  induction h with
  | nil =>
      obtain rfl | ⟨around, rest, rfl⟩ := hback.cases
      · rfl
      · rfl
  | char c _ ih => rw [List.cons_append, lineChars, lineChars, ih]
  | lineBreak => rfl

end DefinitionLists.Markdown
