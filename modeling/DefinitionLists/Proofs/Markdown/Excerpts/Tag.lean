/-
Module: DefinitionLists.Proofs.Markdown.Excerpts.Tag
Purpose: Raw HTML at the front of a text is the same where the text stands and where it is read alone.
Main exports: afterPiece_alike, afterTag_alike, afterAside_alike, inlineHtml_alike
-/
import DefinitionLists.Proofs.Markdown.Excerpts

namespace DefinitionLists.Markdown

open Markdown.Symbol (isChar ofChars skipSpace source sourceWithoutMargins)
open Text (lettered)

variable {blanks : Bool} {own text back : List Symbol}

/-- A piece without line breaks does not reach beyond the end of a line. -/
theorem isPrefixOf_alike (h : SameText blanks own text) (hback : AtLineEnd back) (piece : List Char) :
    (ofChars piece).isPrefixOf (own ++ back) = (ofChars piece).isPrefixOf text := by
  induction piece generalizing own text with
  | nil => simp [ofChars]
  | cons d piece ih =>
      cases h with
      | nil =>
          obtain rfl | ⟨around, rest, rfl⟩ := hback.cases
          · rfl
          · rfl
      | char c more =>
          have hmore := ih more
          simp only [ofChars] at hmore
          simp only [ofChars, List.map_cons, List.cons_append, List.isPrefixOf, hmore]
      | lineBreak => rfl

/-- A piece that a text starts with lies within the text. -/
theorem drop_piece (h : SameText blanks own text) {piece : List Char}
    (hp : (ofChars piece).isPrefixOf text = true) {count : Nat} (hc : piece.length = count) :
    (own ++ back).drop count = own.drop count ++ back := by
  have hle := (List.isPrefixOf_iff_prefix.1 hp).length_le
  rw [ofChars, List.length_map, ← h.length_eq, hc] at hle
  rw [List.drop_append_of_le_length hle]

theorem head_isChar_alike (h : SameText blanks own text) (hback : AtLineEnd back) (p : Char → Bool) :
    (own ++ back).head?.any (isChar p) = text.head?.any (isChar p) := by
  cases h with
  | nil =>
      obtain rfl | ⟨around, rest, rfl⟩ := hback.cases
      · rfl
      · rfl
  | char c more => rfl
  | lineBreak => rfl

/-- A piece is found in both texts, or beyond the end of the one that stands in a line. It has no end of
a line in it, so that none is found across the end of the text. -/
theorem afterPiece_alike (h : SameText blanks own text) (hback : AtLineEnd back) (piece : List Char) :
    AfterAlike blanks back (afterPiece? piece (own ++ back)) (afterPiece? piece text) := by
  have hcons {symbol symbol' : Symbol} {own text : List Symbol}
      (h : SameText blanks (symbol :: own) (symbol' :: text))
      (ih : AfterAlike blanks back (afterPiece? piece (own ++ back)) (afterPiece? piece text)) :
      AfterAlike blanks back (afterPiece? piece (symbol :: own ++ back))
        (afterPiece? piece (symbol' :: text)) := by
    have hprefix := isPrefixOf_alike h hback piece
    rw [List.cons_append] at hprefix ⊢
    rw [afterPiece?, afterPiece?, hprefix]
    split
    · next hp =>
        rw [← List.cons_append, drop_piece h hp rfl]
        exact .same (h.drop _)
    · exact ih
  induction h with
  | nil =>
      have hsame : AfterAlike blanks back (some ([] ++ back)) (some []) := .same .nil
      obtain rfl | ⟨around, rest, rfl⟩ := hback.cases
      · cases hp : afterPiece? piece [] with
        | none => exact .beyond (by simp [hp])
        | some left =>
            obtain rfl := List.suffix_nil.1 (afterPiece_suffix hp)
            rw [List.append_nil, hp]
            exact hsame
      · rw [List.nil_append, afterPiece?, afterPiece?]
        cases piece with
        | nil => exact hsame
        | cons d piece =>
            simp only [ofChars, List.map_cons, List.isPrefixOf, List.isEmpty_cons]
            refine .beyond fun left hleft => ?_
            exact Nat.lt_succ_of_le (afterPiece_suffix hleft).length_le
  | char c more ih => exact hcons (.char c more) ih
  | lineBreak alike more ih => exact hcons (.lineBreak alike more) ih

/-- A value is between quotes, or goes as far as its characters do; the end of a line ends the latter.
-/
theorem afterAttributeValue_alike (h : SameText blanks own text) (hback : AtLineEnd back) :
    AfterAlike blanks back (afterAttributeValue? (own ++ back)) (afterAttributeValue? text) := by
  cases h with
  | nil =>
      refine .beyond fun left hleft => ?_
      obtain rfl | ⟨around, rest, rfl⟩ := hback.cases
      · cases hleft
      · cases hleft
  | @char c own text more =>
      have hquoted (quote : Char) := afterPiece_alike more hback [quote]
      by_cases hdouble : c = '"'
      · subst hdouble
        exact hquoted '"'
      by_cases hsingle : c = '\''
      · subst hsingle
        exact hquoted '\''
      have hvalue (rest : List Symbol) : afterAttributeValue? (.char c :: rest) =
          if isBareValueChar c then some (rest.dropWhile (isChar isBareValueChar)) else none := by
        unfold afterAttributeValue?
        split
        · next heq => exact absurd (Symbol.char.inj (List.cons.inj heq).1) hdouble
        · next heq => exact absurd (Symbol.char.inj (List.cons.inj heq).1) hsingle
        · next heq =>
          cases heq
          rfl
        · next hchar => exact absurd rfl (hchar c rest)
      rw [List.cons_append, hvalue, hvalue, hback.dropWhile_append]
      split
      · exact .same (more.dropWhile_isChar _)
      · exact .beyond (by simp)
  | lineBreak => exact .beyond fun left hleft => by cases hleft

/-- White space at the end of a text may be followed by a value where the text stands. -/
theorem afterAttribute_alike (h : SameText blanks own text) (hback : AtLineEnd back) :
    AfterAlike blanks back (afterAttribute? (own ++ back)) (afterAttribute? text) ∨
      ∃ left, afterAttribute? text = some left ∧ skipSpace left = [] ∧
        ∀ rest ∈ afterAttribute? (own ++ back), rest.length < back.length := by
  cases h with
  | nil =>
      refine .inl (.beyond fun left hleft => ?_)
      -- no value follows in either text, and the name ends before the end of the line
      obtain rfl | ⟨around, rest, rfl⟩ := hback.cases
      · cases hleft
      · cases hleft
  | @char c own text more =>
      simp only [List.cons_append, afterAttribute?]
      split
      · rw [hback.dropWhile_append]
        have hname := more.dropWhile_isChar isAttributeNameChar
        generalize own.dropWhile (isChar isAttributeNameChar) = own at hname ⊢
        generalize text.dropWhile (isChar isAttributeNameChar) = text at hname ⊢
        rcases skipSpace_alike hname hback with ⟨own', hown, hspace⟩ | ⟨hnil, hshort⟩
        · rw [hown]
          generalize skipSpace text = text' at hspace
          cases hspace with
          | nil =>
              obtain rfl | ⟨around, rest, rfl⟩ := hback.cases
              · exact .inl (.same hname)
              · exact .inl (.same hname)
          | @char d own' text' hmore =>
              by_cases hd : d = '='
              · subst hd
                rcases skipSpace_alike hmore hback with ⟨own'', hown, hvalue⟩ | ⟨hnil, hshort⟩
                · simp only [List.cons_append, hown]
                  exact .inl (afterAttributeValue_alike hvalue hback)
                · simp only [List.cons_append, hnil]
                  refine .inl (.beyond fun left hleft => ?_)
                  exact Nat.lt_of_le_of_lt (afterAttributeValue_suffix hleft).length_le hshort
              · rw [List.cons_append]
                split
                · next heq => exact absurd (Symbol.char.inj (List.cons.inj heq).1) hd
                · split
                  · next heq => exact absurd (Symbol.char.inj (List.cons.inj heq).1) hd
                  · exact .inl (.same hname)
          | lineBreak => exact .inl (.same hname)
        · rw [hnil]
          split
          · next rest hrest =>
              -- alone the text ends in blanks, but where it stands a value may follow them
              refine .inr ⟨text, rfl, hnil, fun left hleft => ?_⟩
              have hvalue := ((afterAttributeValue_suffix hleft).trans (skipSpace_suffix _)).length_le
              rw [hrest, List.length_cons] at hshort
              omega
          · exact .inl (.same hname)
      · exact .inl (.beyond (by simp))
  | lineBreak => exact .inl (.beyond fun left hleft => by cases hleft)

/-! ### Tags -/

/-- Anything but the end of a tag and a slash has to be an attribute. -/
theorem afterAttributes_eq {symbols after : List Symbol} (h : skipSpace symbols = after)
    (hend : after.head? ≠ some (.char '>')) (hslash : after.head? ≠ some (.char '/')) (bound : Nat) :
    afterAttributes? (bound + 1) symbols =
      if symbols.head?.any Symbol.isSpace then (afterAttribute? after).bind (afterAttributes? bound)
      else none := by
  rw [afterAttributes?, h]
  split
  · exact absurd rfl hend
  · exact absurd rfl hslash
  · exact absurd rfl hslash
  · rfl

/-- A slash has to be followed by the end of the tag. -/
theorem afterAttributes_of_slash {symbols after : List Symbol}
    (h : skipSpace symbols = .char '/' :: after) (hend : after.head? ≠ some (.char '>')) (bound : Nat) :
    afterAttributes? (bound + 1) symbols = none := by
  rw [afterAttributes?, h]
  split
  · next heq => cases heq
  · next heq =>
    cases heq
    exact absurd rfl hend
  · rfl
  · next hother => exact absurd rfl (hother _)

theorem afterAttributes_of_blank {symbols : List Symbol} (h : skipSpace symbols = []) (bound : Nat) :
    afterAttributes? bound symbols = none := by
  cases bound with
  | zero => rfl
  | succ bound =>
      rw [afterAttributes_eq h (by simp) (by simp)]
      split
      · rfl
      · rfl

theorem SameText.head_isSpace (h : SameText blanks own text) (hne : text ≠ []) (back : List Symbol) :
    (own ++ back).head?.any Symbol.isSpace = text.head?.any Symbol.isSpace := by
  cases h with
  | nil => exact absurd rfl hne
  | char c more => rfl
  | lineBreak => rfl

/-- What stands for an attribute is read as one in both, or in none. -/
theorem bind_afterAttribute_alike (h : SameText blanks own text) (hback : AtLineEnd back)
    {more more' : List Symbol → Option (List Symbol)}
    (hsuffix : ∀ {symbols rest}, more symbols = some rest → rest <:+ skipSpace symbols)
    (hblank : ∀ {symbols}, skipSpace symbols = [] → more' symbols = none)
    (hmore : ∀ {own' text'}, SameText blanks own' text' → text'.length < text.length →
      AfterAlike blanks back (more (own' ++ back)) (more' text')) :
    AfterAlike blanks back ((afterAttribute? (own ++ back)).bind more)
      ((afterAttribute? text).bind more') := by
  have hbeyond (hshort : ∀ rest ∈ afterAttribute? (own ++ back), rest.length < back.length) :
      ∀ rest ∈ (afterAttribute? (own ++ back)).bind more, rest.length < back.length := by
    intro rest hrest
    obtain ⟨after, hafter, hleft⟩ := Option.bind_eq_some_iff.1 hrest
    have hle := ((hsuffix hleft).trans (skipSpace_suffix _)).length_le
    exact Nat.lt_of_le_of_lt hle (hshort after hafter)
  rcases afterAttribute_alike h hback with hattribute | ⟨left, htext, hleft, hshort⟩
  · generalize hwhole : afterAttribute? (own ++ back) = whole at hattribute hbeyond ⊢
    generalize halone : afterAttribute? text = alone at hattribute ⊢
    cases hattribute with
    | same left =>
        obtain ⟨symbol, rest, htext, hsuffix⟩ := exists_cons_of_afterAttribute halone
        rw [Option.bind_some, Option.bind_some]
        refine hmore left ?_
        rw [htext, List.length_cons]
        exact Nat.lt_succ_of_le hsuffix.length_le
    | beyond hshort => exact .beyond (hbeyond hshort)
  · rw [htext, Option.bind_some, hblank hleft]
    exact .beyond (hbeyond hshort)

theorem afterAttribute_of_atLineEnd (hback : AtLineEnd back) : afterAttribute? back = none := by
  obtain rfl | ⟨around, rest, rfl⟩ := hback.cases
  · rfl
  · rfl

/-- After a slash both tags end, or neither does. -/
theorem afterAttributes_alike_of_slash {whole alone : List Symbol} (h : SameText blanks own text)
    (hback : AtLineEnd back) (hwhole : skipSpace whole = .char '/' :: (own ++ back))
    (halone : skipSpace alone = .char '/' :: text) (bound bound' : Nat) :
    AfterAlike blanks back (afterAttributes? (bound + 1) whole)
      (afterAttributes? (bound' + 1) alone) := by
  cases h with
  | nil =>
      rw [afterAttributes_of_slash halone (by simp), afterAttributes_of_slash hwhole (hback _)]
      exact .beyond (by simp)
  | @char c own' text' more =>
      by_cases hclose : c = '>'
      · subst hclose
        rw [afterAttributes?, afterAttributes?, hwhole, halone]
        exact .same more
      · rw [afterAttributes_of_slash halone (by simpa using hclose),
          afterAttributes_of_slash hwhole (by simpa using hclose)]
        exact .beyond (by simp)
  | lineBreak =>
      rw [afterAttributes_of_slash halone (by simp), afterAttributes_of_slash hwhole (by simp)]
      exact .beyond (by simp)

/-- The bounds do not matter as long as there are more than symbols. -/
theorem afterAttributes_alike (h : SameText blanks own text) (hback : AtLineEnd back) {bound bound' : Nat}
    (hb : (own ++ back).length < bound) (hb' : text.length < bound') :
    AfterAlike blanks back (afterAttributes? bound (own ++ back)) (afterAttributes? bound' text) := by
  induction bound' generalizing own text bound with
  | zero => omega
  | succ bound' ih =>
      obtain ⟨bound, rfl⟩ : ∃ n, bound = n + 1 := ⟨bound - 1, by omega⟩
      rcases skipSpace_alike h hback with ⟨own', hown, hspace⟩ | ⟨hnil, hshort⟩
      · -- apart from the end of the tag both go on with an attribute, of which the bounds allow one
        -- more
        have hattribute (hne : text ≠ []) (hend : (own' ++ back).head? ≠ some (.char '>'))
            (hslash : (own' ++ back).head? ≠ some (.char '/'))
            (hend' : (skipSpace text).head? ≠ some (.char '>'))
            (hslash' : (skipSpace text).head? ≠ some (.char '/')) :
            AfterAlike blanks back (afterAttributes? (bound + 1) (own ++ back))
              (afterAttributes? (bound' + 1) text) := by
          rw [afterAttributes_eq hown hend hslash, afterAttributes_eq rfl hend' hslash',
            h.head_isSpace hne]
          split
          · refine bind_afterAttribute_alike hspace hback afterAttributes_suffix
              (fun hblank => afterAttributes_of_blank hblank _) fun hmore hshort => ?_
            have hle := (skipSpace_suffix text).length_le
            have hlength := h.length_eq
            have hlength' := hmore.length_eq
            rw [List.length_append] at hb
            refine ih hmore ?_ (by omega)
            rw [List.length_append]
            omega
          · exact .beyond (by simp)
        have hne {symbol : Symbol} {more : List Symbol} (hskip : skipSpace text = symbol :: more) :
            text ≠ [] := by
          rintro rfl
          cases hskip
        generalize hskip : skipSpace text = text' at hspace hattribute hne
        cases hspace with
        | nil =>
            rw [afterAttributes_of_blank hskip, afterAttributes_eq hown (hback _) (hback _),
              List.nil_append, afterAttribute_of_atLineEnd hback]
            exact .beyond (by simp)
        | @char c own' text' more =>
            by_cases hend : c = '>'
            · subst hend
              rw [afterAttributes?, afterAttributes?, hown, hskip]
              exact .same more
            by_cases hslash : c = '/'
            · subst hslash
              exact afterAttributes_alike_of_slash more hback hown hskip bound bound'
            · exact hattribute (hne rfl) (by simpa using hend) (by simpa using hslash)
                (by simpa using hend) (by simpa using hslash)
        | lineBreak => exact hattribute (hne rfl) (by simp) (by simp) (by simp) (by simp)
      · rw [afterAttributes_of_blank hnil]
        refine .beyond fun left hleft => ?_
        exact Nat.lt_of_le_of_lt (afterAttributes_suffix hleft).length_le hshort

/-- A closing tag is a slash, a name, and perhaps blanks. -/
theorem afterTag_closing (c : Char) (symbols : List Symbol) :
    afterTag? (.char '/' :: .char c :: symbols) = if c.isAlpha then
      match (symbols.dropWhile (isChar fun c => c.isAlphanum || c == '-')).dropWhile
          (isChar isInlineSpace) with
      | .char '>' :: rest => some rest
      | _ => none
    else none :=
  rfl

theorem afterTag_slash_of_atLineEnd (hback : AtLineEnd back) : afterTag? (.char '/' :: back) = none := by
  obtain rfl | ⟨around, rest, rfl⟩ := hback.cases
  · rfl
  · rfl

theorem afterTag_of_ne_slash {c : Char} (h : c ≠ '/') (symbols : List Symbol) :
    afterTag? (.char c :: symbols) =
      if c.isAlpha then
        let afterName := symbols.dropWhile (isChar fun c => c.isAlphanum || c == '-')
        afterAttributes? (afterName.length + 1) afterName
      else none := by
  unfold afterTag?
  split
  · next heq =>
    cases heq
    exact absurd rfl h
  · next heq =>
    cases heq
    rfl
  · next hother => exact absurd rfl (hother _ _)

theorem afterTag_alike (h : SameText blanks own text) (hback : AtLineEnd back) :
    AfterAlike blanks back (afterTag? (own ++ back)) (afterTag? text) := by
  cases h with
  | nil =>
      refine .beyond fun left hleft => ?_
      obtain rfl | ⟨around, rest, rfl⟩ := hback.cases
      · cases hleft
      · cases hleft
  | @char c own text more =>
      by_cases hslash : c = '/'
      · subst hslash
        cases more with
        | nil =>
            rw [List.cons_append, List.nil_append, afterTag_slash_of_atLineEnd hback]
            exact .beyond (by simp)
        | @char d own text more =>
            rw [List.cons_append, List.cons_append, afterTag_closing, afterTag_closing]
            split
            · rw [hback.dropWhile_append, hback.dropWhile_append]
              have hname := (more.dropWhile_isChar (fun c => c.isAlphanum || c == '-')).dropWhile_isChar
                isInlineSpace
              generalize (own.dropWhile _).dropWhile _ = own at hname ⊢
              generalize (text.dropWhile _).dropWhile _ = text at hname ⊢
              cases hname with
              | nil =>
                  obtain rfl | ⟨around, rest, rfl⟩ := hback.cases
                  · exact .beyond (by simp)
                  · exact .beyond (by simp)
              | @char e own text more =>
                  rw [List.cons_append]
                  split
                  · next heq =>
                    cases heq
                    exact .same more
                  · next hwhole =>
                    split
                    · next heq =>
                      cases heq
                      exact absurd rfl (hwhole _)
                    · exact .beyond (by simp)
              | lineBreak => exact .beyond (by simp)
            · exact .beyond (by simp)
        | lineBreak => exact .beyond fun left hleft => by cases hleft
      · rw [List.cons_append, afterTag_of_ne_slash hslash, afterTag_of_ne_slash hslash]
        split
        · have hname := more.dropWhile_isChar (fun c => c.isAlphanum || c == '-')
          rw [hback.dropWhile_append]
          exact afterAttributes_alike hname hback (Nat.lt_succ_self _) (Nat.lt_succ_self _)
        · exact .beyond (by simp)
  | lineBreak => exact .beyond fun left hleft => by cases hleft

/-! ### Comments and other asides -/

theorem isPrefixOf_iff {piece : List Char} {symbols : List Symbol} :
    (ofChars piece).isPrefixOf symbols = true ↔ ∃ rest, symbols = ofChars piece ++ rest := by
  rw [List.isPrefixOf_iff_prefix]
  exact ⟨fun ⟨rest, h⟩ => ⟨rest, h.symm⟩, fun ⟨rest, h⟩ => ⟨rest, h.symm⟩⟩

theorem afterAside_of_other {c : Char} (hmark : c ≠ '?') (hbang : c ≠ '!') (symbols : List Symbol) :
    afterAside? (.char c :: symbols) = none := by
  unfold afterAside?
  split
  · next heq =>
    cases heq
    exact absurd rfl hmark
  · next heq =>
    cases heq
    exact absurd rfl hbang
  · rfl

/-- A comment ends right after its start, or with two hyphens and a bracket. -/
theorem afterAside_comment (symbols : List Symbol) :
    afterAside? (.char '!' :: .char '-' :: .char '-' :: symbols) =
      if (ofChars ['>']).isPrefixOf symbols then some (symbols.drop 1)
      else if (ofChars ['-', '>']).isPrefixOf symbols then some (symbols.drop 2)
      else afterPiece? ['-', '-', '>'] symbols := by
  unfold afterAside?
  simp only
  split
  · rfl
  · rfl
  · next hend hclose =>
    have hend' : ¬ (ofChars ['>']).isPrefixOf symbols = true := by
      rw [isPrefixOf_iff]
      exact fun ⟨rest, h⟩ => hend rest h
    have hclose' : ¬ (ofChars ['-', '>']).isPrefixOf symbols = true := by
      rw [isPrefixOf_iff]
      exact fun ⟨rest, h⟩ => hclose rest h
    rw [if_neg hend', if_neg hclose']

/-- Character data is told by what it starts with, and a declaration by its first letter. -/
theorem afterAside_declaration {symbols : List Symbol}
    (h : (ofChars ['-', '-']).isPrefixOf symbols = false) :
    afterAside? (.char '!' :: symbols) =
      if (ofChars ['[', 'C', 'D', 'A', 'T', 'A', '[']).isPrefixOf symbols then
        afterPiece? [']', ']', '>'] (symbols.drop 7)
      else if symbols.head?.any (isChar Char.isAlpha) then afterPiece? ['>'] symbols
      else none := by
  unfold afterAside?
  simp only
  split
  · cases h
  · rfl

theorem afterComment_alike (h : SameText blanks own text) (hback : AtLineEnd back) :
    AfterAlike blanks back (afterAside? (.char '!' :: .char '-' :: .char '-' :: (own ++ back)))
      (afterAside? (.char '!' :: .char '-' :: .char '-' :: text)) := by
  rw [afterAside_comment, afterAside_comment, isPrefixOf_alike h hback, isPrefixOf_alike h hback]
  split
  · next hend =>
    have hdrop : (own ++ back).drop 1 = own.drop 1 ++ back := drop_piece h hend rfl
    rw [hdrop]
    exact .same (h.drop 1)
  · split
    · next hclose =>
      have hdrop : (own ++ back).drop 2 = own.drop 2 ++ back := drop_piece h hclose rfl
      rw [hdrop]
      exact .same (h.drop 2)
    · exact afterPiece_alike h hback _

theorem afterAside_alike (h : SameText blanks own text) (hback : AtLineEnd back) :
    AfterAlike blanks back (afterAside? (own ++ back)) (afterAside? text) := by
  cases h with
  | nil =>
      refine .beyond fun left hleft => ?_
      obtain rfl | ⟨around, rest, rfl⟩ := hback.cases
      · cases hleft
      · cases hleft
  | @char c own text more =>
      by_cases hmark : c = '?'
      · subst hmark
        exact afterPiece_alike more hback ['?', '>']
      by_cases hbang : c = '!'
      · subst hbang
        have hdashes := isPrefixOf_alike more hback ['-', '-']
        cases htext : (ofChars ['-', '-']).isPrefixOf text with
        | true =>
            obtain ⟨text, rfl⟩ := isPrefixOf_iff.1 htext
            cases more with | char _ more =>
            cases more with | @char _ own _ more =>
            exact afterComment_alike more hback
        | false =>
            rw [List.cons_append, afterAside_declaration htext,
              afterAside_declaration (hdashes.trans htext), isPrefixOf_alike more hback,
              head_isChar_alike more hback]
            split
            · next hdata =>
                have hdrop : (own ++ back).drop 7 = own.drop 7 ++ back := drop_piece more hdata rfl
                rw [hdrop]
                exact afterPiece_alike (more.drop 7) hback _
            · split
              · exact afterPiece_alike more hback _
              · exact .beyond (by simp)
      · rw [List.cons_append, afterAside_of_other hmark hbang, afterAside_of_other hmark hbang]
        exact .beyond (by simp)
  | lineBreak => exact .beyond fun left hleft => by cases hleft

/-! ### Raw HTML -/

/-- What starts a tag starts no aside. -/
theorem afterAside_of_afterTag (h : SameText blanks own text) {rest : List Symbol}
    (htag : afterTag? (own ++ back) = some rest) : afterAside? text = none := by
  cases h with
  | nil => rfl
  | @char c own text more =>
      have hnone {d : Char} (hslash : d ≠ '/') (halpha : d.isAlpha = false) : c ≠ d := by
        rintro rfl
        rw [List.cons_append, afterTag_of_ne_slash hslash, halpha] at htag
        cases htag
      exact afterAside_of_other (hnone (by decide) (by decide)) (hnone (by decide) (by decide)) _
  | lineBreak => rfl

/-- What was taken from the front of a text is the same where the text stands. -/
theorem taken_alike (h : SameText blanks own text) {left left' : List Symbol}
    (hl : SameText blanks left left') (back : List Symbol) :
    SameText blanks ((own ++ back).take ((own ++ back).length - (left ++ back).length))
      (text.take (text.length - left'.length)) := by
  have hcount : (own ++ back).length - (left ++ back).length = text.length - left'.length := by
    rw [List.length_append, List.length_append, Nat.add_sub_add_right, h.length_eq, hl.length_eq]
  have hle : text.length - left'.length ≤ own.length := h.length_eq ▸ Nat.sub_le _ _
  rw [hcount, List.take_append_of_le_length hle]
  exact h.take _

/-- Raw HTML is the same, or the same but for blanks. -/
theorem inlineHtml_alike (h : SameText blanks own text) (hback : AtLineEnd back) :
    FoundAlike blanks (fun html html' => lettered blanks html = lettered blanks html') back
      (inlineHtml? (own ++ back)) (inlineHtml? text) := by
  have hstart (html : List Char) : lettered blanks ('<' :: html) = '<' :: lettered blanks html := by
    cases blanks <;> rfl
  have haside : FoundAlike blanks (fun html html' => lettered blanks html = lettered blanks html') back
      ((afterAside? (own ++ back)).map fun rest =>
        ('<' :: source ((own ++ back).take ((own ++ back).length - rest.length)), rest))
      ((afterAside? text).map fun rest =>
        ('<' :: source (text.take (text.length - rest.length)), rest)) := by
    have hfound := afterAside_alike h hback
    generalize afterAside? (own ++ back) = whole at hfound ⊢
    generalize afterAside? text = alone at hfound ⊢
    cases hfound with
    | same left =>
        refine .same ?_ left
        rw [hstart, hstart, (taken_alike h left back).lettered_source]
    | beyond hshort =>
        refine .beyond fun found hfound => ?_
        obtain ⟨rest, hrest, rfl⟩ := Option.map_eq_some_iff.1 hfound
        exact hshort rest hrest
  have htag := afterTag_alike h hback
  unfold inlineHtml?
  generalize hwhole : afterTag? (own ++ back) = whole at htag ⊢
  generalize afterTag? text = alone at htag ⊢
  cases htag with
  | same left =>
      refine .same ?_ left
      rw [hstart, hstart, (taken_alike h left back).lettered_sourceWithoutMargins]
  | beyond hshort =>
      cases whole with
      | none => exact haside
      | some rest =>
          simp only [afterAside_of_afterTag h hwhole, Option.map_none]
          refine .beyond fun found hfound => ?_
          obtain rfl := Option.some.inj hfound
          exact hshort rest rfl

end DefinitionLists.Markdown
