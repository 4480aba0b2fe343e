/-
Module: DefinitionLists.Proofs.Markdown.Excerpts.Target
Purpose: The target in parentheses at the front of a text is the same where the text stands and where it
  is read alone.
Main exports: destination_alike, title_alike, inlineTarget_alike
-/
import DefinitionLists.Proofs.Markdown.Excerpts

namespace DefinitionLists.Markdown

open Markdown.Symbol (skipSpace)
open Text (isAsciiPunctuation)

variable {blanks : Bool} {own text back : List Symbol}

/-- A backslash escapes a character where a text stands only if it does in the text alone. -/
theorem SameText.not_escaped (h : SameText blanks own text) (hback : AtLineEnd back) {c : Char}
    (hescape : ∀ d rest, text = .char d :: rest → c = '\\' → False) :
    ∀ d rest, own ++ back = .char d :: rest → c = '\\' → False := by
  intro d rest heq
  cases h with
  | nil => exact absurd (congrArg List.head? heq) (hback d)
  | char e more =>
      cases heq
      exact hescape _ _ rfl
  | lineBreak => cases heq

theorem pointedDestination_alike (h : SameText blanks own text) (hback : AtLineEnd back)
    (written : List Char) : FoundAlike blanks Eq back (pointedDestination? written (own ++ back))
      (pointedDestination? written text) := by
  fun_induction pointedDestination? written text generalizing own with
  | case1 written text =>
      cases h with
      | char _ more => exact .same rfl more
  | case2 written c text hc ih =>
      cases h with | char _ more =>
      cases more with | char _ more =>
      rw [List.cons_append, List.cons_append, pointedDestination?, if_pos hc]
      exact ih more
  | case3 written c text hc ih =>
      cases h with | char _ more =>
      have hrest := ih more
      cases more with | char _ more =>
      rw [List.cons_append, List.cons_append, pointedDestination?, if_neg hc]
      exact hrest
  | case4 written c text hend hescape hbad =>
      cases h with | char _ more =>
      rw [List.cons_append, pointedDestination?, if_pos hbad]
      · exact .beyond (by simp)
      · exact hend
      · exact more.not_escaped hback hescape
  | case5 written c text hend hescape hgood ih =>
      cases h with | char _ more =>
      rw [List.cons_append, pointedDestination?, if_neg hgood]
      · exact ih more
      · exact hend
      · exact more.not_escaped hback hescape
  | case6 text written _ _ hchar =>
      cases h with
      | nil =>
          obtain rfl | ⟨around, rest, rfl⟩ := hback.cases
          · exact .beyond fun found hfound => by cases hfound
          · exact .beyond fun found hfound => by cases hfound
      | char c more => exact absurd rfl (hchar _ _)
      | lineBreak => exact .beyond fun found hfound => by cases hfound

/-- A character that no backslash escapes ends the destination, counts as a bracket, or stands for
itself. -/
theorem bareDestination_char (maxDepth depth : Nat) (written : List Char) {c : Char} {rest : List Symbol}
    (h : ∀ d more, rest = .char d :: more → c = '\\' → False) :
    bareDestination? maxDepth depth written (.char c :: rest) =
      if c ≤ ' ' then if depth = 0 then some (written.reverse, .char c :: rest) else none
      else if c = '(' then
        if maxDepth < depth then none
        else bareDestination? maxDepth (depth + 1) (c :: written) rest
      else if c = ')' then
        if depth = 0 then some (written.reverse, .char c :: rest)
        else bareDestination? maxDepth (depth - 1) (c :: written) rest
      else bareDestination? maxDepth depth (c :: written) rest := by
  rw [bareDestination?]
  exact h

/-- A destination without angle brackets ends at a blank, at the end of the line, or at a bracket that
it does not open, all of which are the same in both texts. -/
theorem bareDestination_alike (h : SameText blanks own text) (hback : AtLineEnd back)
    (maxDepth depth : Nat) (written : List Char) :
    FoundAlike blanks Eq back (bareDestination? maxDepth depth written (own ++ back))
      (bareDestination? maxDepth depth written text) := by
  fun_induction bareDestination? maxDepth depth written text generalizing own with
  | case1 depth written c text hc ih =>
      cases h with | char _ more =>
      cases more with | char _ more =>
      rw [List.cons_append, List.cons_append, bareDestination?, if_pos hc]
      exact ih more
  | case2 depth written c text hc ih =>
      cases h with | char _ more =>
      have hrest := ih more
      cases more with | char _ more =>
      rw [List.cons_append, List.cons_append, bareDestination?, if_neg hc]
      exact hrest
  | case3 written c text hescape hend =>
      cases h with | char _ more =>
      rw [List.cons_append, bareDestination_char _ _ _ (more.not_escaped hback hescape),
        if_pos hend, if_pos rfl]
      exact .same rfl (.char c more)
  | case4 depth written c text hescape hend hdepth =>
      cases h with | char _ more =>
      rw [List.cons_append, bareDestination_char _ _ _ (more.not_escaped hback hescape),
        if_pos hend, if_neg hdepth]
      exact .beyond (by simp)
  | case5 depth written text hdeep hescape hend =>
      cases h with | char _ more =>
      rw [List.cons_append, bareDestination_char _ _ _ (more.not_escaped hback hescape),
        if_neg hend, if_pos rfl, if_pos hdeep]
      exact .beyond (by simp)
  | case6 depth written text hdeep hescape hend ih =>
      cases h with | char _ more =>
      rw [List.cons_append, bareDestination_char _ _ _ (more.not_escaped hback hescape),
        if_neg hend, if_pos rfl, if_neg hdeep]
      exact ih more
  | case7 written text hescape hend hopen =>
      cases h with | char _ more =>
      rw [List.cons_append, bareDestination_char _ _ _ (more.not_escaped hback hescape),
        if_neg hend, if_neg hopen, if_pos rfl, if_pos rfl]
      exact .same rfl (.char ')' more)
  | case8 depth written text hdepth hescape hend hopen ih =>
      cases h with | char _ more =>
      rw [List.cons_append, bareDestination_char _ _ _ (more.not_escaped hback hescape),
        if_neg hend, if_neg hopen, if_pos rfl, if_neg hdepth]
      exact ih more
  | case9 depth written c text hescape hend hopen hclose ih =>
      cases h with | char _ more =>
      rw [List.cons_append, bareDestination_char _ _ _ (more.not_escaped hback hescape),
        if_neg hend, if_neg hopen, if_neg hclose]
      exact ih more
  | case10 written text _ hchar =>
      cases h with
      | nil =>
          have hsame : FoundAlike blanks Eq back (some (written.reverse, [] ++ back))
              (some (written.reverse, [])) := .same rfl .nil
          obtain rfl | ⟨around, rest, rfl⟩ := hback.cases
          · exact hsame
          · exact hsame
      | char c more => exact absurd rfl (hchar _ _)
      | lineBreak alike more => exact .same rfl (.lineBreak alike more)
  | case11 depth written text _ hchar hdepth =>
      cases h with
      | nil =>
          obtain rfl | ⟨around, rest, rfl⟩ := hback.cases
          · exact .beyond (by simp [bareDestination?, hdepth])
          · exact .beyond (by simp [bareDestination?, hdepth])
      | char c more => exact absurd rfl (hchar _ _)
      | lineBreak => exact .beyond (by simp [bareDestination?, hdepth])

/-- The end of a title is found in both texts, or beyond the end of the one that stands in a line. -/
theorem titleFrom_alike (h : SameText blanks own text) (hback : AtLineEnd back) (closing : Char)
    (refused : Option Char) (written : List Char) :
    FoundAlike blanks Eq back (titleFrom closing refused written (own ++ back))
      (titleFrom closing refused written text) := by
  fun_induction titleFrom closing refused written text generalizing own with
  | case1 written =>
      cases h
      refine .beyond fun found hfound => ?_
      obtain rfl | ⟨around, rest, rfl⟩ := hback.cases
      · cases hfound
      · rw [List.nil_append, titleFrom] at hfound
        exact Nat.lt_succ_of_le (titleFrom_suffix hfound).length_le
  | case2 written around text ih =>
      cases h with | lineBreak alike more =>
      rw [List.cons_append, titleFrom, alike.trail]
      exact ih more
  | case3 written c text ih =>
      cases h with | char _ more =>
      cases more with | char _ more =>
      rw [List.cons_append, List.cons_append, titleFrom]
      exact ih more
  | case4 written text hescape =>
      cases h with | char _ more =>
      rw [List.cons_append, titleFrom, if_pos rfl]
      · exact .same rfl more
      · exact more.not_escaped hback hescape
  | case5 written c text hescape hclosing hrefused =>
      cases h with | char _ more =>
      rw [List.cons_append, titleFrom, if_neg hclosing, if_pos hrefused]
      · exact .beyond (by simp)
      · exact more.not_escaped hback hescape
  | case6 written c text hescape hclosing hrefused ih =>
      cases h with | char _ more =>
      rw [List.cons_append, titleFrom, if_neg hclosing, if_neg hrefused]
      · exact ih more
      · exact more.not_escaped hback hescape

/-! ### Targets -/

theorem destination_alike (h : SameText blanks own text) (hback : AtLineEnd back) (maxDepth : Nat) :
    FoundAlike blanks Eq back (destination? maxDepth (own ++ back)) (destination? maxDepth text) := by
  unfold destination?
  split
  · next rest heq =>
    cases h with
    | nil => exact absurd (congrArg List.head? heq) (hback '<')
    | char _ more =>
        cases heq
        exact pointedDestination_alike more hback []
    | lineBreak => cases heq
  · next hpointed =>
    split
    · next rest =>
      cases h with | char _ more =>
      exact absurd rfl (hpointed _)
    · exact bareDestination_alike h hback maxDepth 0 []

/-- A title begins with one of three characters, and each has its own end. -/
theorem title_alike (h : SameText blanks own text) (hback : AtLineEnd back) (nested : Bool) :
    FoundAlike blanks Eq back (title? nested (own ++ back)) (title? nested text) := by
  cases h with
  | nil =>
      obtain rfl | ⟨around, rest, rfl⟩ := hback.cases
      · exact .beyond fun found hfound => by cases hfound
      · exact .beyond fun found hfound => by cases hfound
  | @char c own text more =>
      have htitle := titleFrom_alike more hback
      rw [List.cons_append]
      unfold title?
      split
      · next heq =>
        cases heq
        exact htitle '"' none []
      · next heq =>
        cases heq
        exact htitle '\'' none []
      · next heq =>
        cases heq
        exact htitle ')' (if nested then none else some '(') []
      · next hdouble hsingle hopen =>
        split
        · next heq => cases heq; exact absurd rfl (hdouble _)
        · next heq => cases heq; exact absurd rfl (hsingle _)
        · next heq => cases heq; exact absurd rfl (hopen _)
        · exact .beyond (by simp)
  | lineBreak => exact .beyond fun found hfound => by cases hfound

/-- Where a character comes after white space in the text alone, it does where the text stands. -/
theorem skipSpace_of_char (h : SameText blanks own text) (hback : AtLineEnd back) {c : Char}
    {more : List Symbol} (hspace : skipSpace text = .char c :: more) :
    ∃ own', skipSpace (own ++ back) = .char c :: own' ++ back ∧ SameText blanks own' more := by
  rcases skipSpace_alike h hback with ⟨own', hown, hsame⟩ | ⟨hnil, -⟩
  · rw [hspace] at hsame
    cases hsame with
    | char _ left => exact ⟨_, hown, left⟩
  · rw [hspace] at hnil
    cases hnil

/-- White space ends within a text if enough is left after it. -/
theorem skipSpace_of_le (h : SameText blanks own text) (hback : AtLineEnd back)
    (hle : back.length ≤ (skipSpace (own ++ back)).length) :
    ∃ own', skipSpace (own ++ back) = own' ++ back ∧ SameText blanks own' (skipSpace text) := by
  rcases skipSpace_alike h hback with hfound | ⟨-, hshort⟩
  · exact hfound
  · exact absurd hle (Nat.not_le_of_lt hshort)

/-- The parenthesis that ends a target begins no title. -/
theorem title_of_closeParenthesis (nested : Bool) (rest : List Symbol) :
    title? nested (.char ')' :: rest) = none :=
  rfl

theorem title_alike_of_some (h : SameText blanks own text) (hback : AtLineEnd back) {title : List Char}
    {left : List Symbol} (htitle : title? false (skipSpace text) = some (title, left)) :
    ∃ own', title? false (skipSpace (own ++ back)) = some (title, own' ++ back) ∧
      SameText blanks own' left := by
  rcases skipSpace_alike h hback with ⟨own', hown, hsame⟩ | ⟨hnil, -⟩
  · have halike := title_alike hsame hback false
    rw [htitle] at halike
    rw [hown]
    generalize title? false (own' ++ back) = whole at halike ⊢
    cases halike with
    | same related left =>
        subst related
        exact ⟨_, rfl, left⟩
  · rw [hnil] at htitle
    cases htitle

/-- The rest of a target that is there in the text alone is there where the text stands. -/
theorem closesTarget_of_alone (h : SameText blanks own text) (hback : AtLineEnd back) {title : List Char}
    {rest : List Symbol} (hcloses : ClosesTarget text title rest) :
    ∃ own', ClosesTarget (own ++ back) title (own' ++ back) ∧ SameText blanks own' rest := by
  obtain ⟨left, htitle | ⟨-, rfl, rfl⟩, hclose⟩ := hcloses
  · obtain ⟨own', hown, hsame⟩ := title_alike_of_some h hback htitle
    obtain ⟨own'', hend, hrest⟩ := skipSpace_of_char hsame hback hclose
    exact ⟨own'', ⟨_, .inl hown, hend⟩, hrest⟩
  · obtain ⟨own', hend, hrest⟩ := skipSpace_of_char h hback hclose
    have hnone : title? false (skipSpace (own ++ back)) = none := by
      rw [hend]
      exact title_of_closeParenthesis false _
    exact ⟨own', ⟨_, .inr ⟨hnone, rfl, rfl⟩, hend⟩, hrest⟩

/-- The rest of a target that does not reach beyond the text is there in the text alone. -/
theorem closesTarget_of_whole (h : SameText blanks own text) (hback : AtLineEnd back) {title : List Char}
    {rest : List Symbol} (hcloses : ClosesTarget (own ++ back) title rest)
    (hle : back.length ≤ rest.length) : ∃ text', ClosesTarget text title text' := by
  obtain ⟨own', hown, hsame⟩ :=
    skipSpace_of_le h hback (Nat.le_trans hle (Nat.le_of_succ_le hcloses.suffix.length_le))
  have halike := title_alike hsame hback false
  rw [← hown] at halike
  obtain ⟨left, htitle, hclose⟩ := hcloses
  have hshort : rest.length < left.length := by
    have hspace := (skipSpace_suffix left).length_le
    rw [hclose, List.length_cons] at hspace
    omega
  -- where the target closes before the end of the text, it closes there in the text alone
  have hend {own'' text'' : List Symbol} (hsame : SameText blanks own'' text'')
      (hclose : skipSpace (own'' ++ back) = .char ')' :: rest) :
      ∃ text', skipSpace text'' = .char ')' :: text' := by
    obtain ⟨own', hown, hsame⟩ := skipSpace_of_le hsame hback (by
      rw [hclose, List.length_cons]
      omega)
    rw [hown] at hclose
    generalize skipSpace text'' = text at hsame
    cases hsame with
    | nil => exact absurd (congrArg List.head? hclose) (hback ')')
    | char c more =>
        cases hclose
        exact ⟨_, rfl⟩
    | lineBreak => cases hclose
  generalize halone : title? false (skipSpace text) = alone at halike
  -- with a title, and without
  rcases htitle with htitle | ⟨htitle, rfl, rfl⟩
  · rw [htitle] at halike
    generalize hwhole : some (title, left) = whole at halike
    cases halike with
    | same related hleft =>
        cases hwhole
        subst related
        obtain ⟨text', htext⟩ := hend hleft hclose
        exact ⟨text', _, .inl halone, htext⟩
    | beyond hbeyond =>
        have hless : left.length < back.length := hbeyond (title, left) hwhole.symm
        omega
  · rw [htitle] at halike
    cases halike with
    | beyond =>
        obtain ⟨text', htext⟩ := hend h hclose
        exact ⟨text', text, .inr ⟨halone, rfl, rfl⟩, htext⟩

/-- The destination where the text stands is that of the text alone, or reaches beyond it. -/
theorem destination_alike_of_space (h : SameText blanks own text) (hback : AtLineEnd back) {url : List Char}
    {after : List Symbol} (hfound : destination? maxLinkDepth (skipSpace (own ++ back)) =
      some (url, after)) (hle : back.length ≤ after.length) :
    ∃ own' text', after = own' ++ back ∧ SameText blanks own' text' ∧
      destination? maxLinkDepth (skipSpace text) = some (url, text') := by
  obtain ⟨own', hown, hsame⟩ :=
    skipSpace_of_le h hback (Nat.le_trans hle (destination_suffix hfound).length_le)
  have halike := destination_alike hsame hback maxLinkDepth
  rw [← hown, hfound] at halike
  generalize halone : destination? maxLinkDepth (skipSpace text) = alone at halike ⊢
  generalize hwhole : some (url, after) = whole at halike
  cases halike with
  | same related hleft =>
      cases hwhole
      subst related
      exact ⟨_, _, rfl, hleft, rfl⟩
  | beyond hbeyond => exact absurd hle (Nat.not_le_of_lt (hbeyond (url, after) hwhole.symm))

theorem inlineTarget_alike_of_some (h : SameText blanks own text) (hback : AtLineEnd back) {target : Target}
    {rest : List Symbol} (hfound : inlineTarget? text = some (target, rest)) :
    ∃ own', inlineTarget? (own ++ back) = some (target, own' ++ back) ∧ SameText blanks own' rest := by
  obtain ⟨more, url, after, rfl, hdestination, hurl, hcloses⟩ :=
    inlineTarget_eq_some_iff.1 hfound
  cases h with | char _ hmore =>
  rcases skipSpace_alike hmore hback with ⟨own', hown, hsame⟩ | ⟨hnil, -⟩
  · have halike := destination_alike hsame hback maxLinkDepth
    rw [← hown, hdestination] at halike
    generalize hwhole : destination? maxLinkDepth (skipSpace _) = whole at halike
    cases halike with
    | same related hleft =>
        subst related
        obtain ⟨own'', hend, hrest⟩ := closesTarget_of_alone hleft hback hcloses
        exact ⟨own'', inlineTarget_eq_some_iff.2
          ⟨_, _, _, rfl, hwhole, hurl, hend⟩, hrest⟩
  · -- the destination would be empty, and nothing would follow it
    rw [hnil] at hdestination
    obtain ⟨-, rfl⟩ := Prod.mk.inj (Option.some.inj hdestination)
    exact absurd hcloses.suffix.length_le (Nat.not_succ_le_zero _)

theorem inlineTarget_alike (h : SameText blanks own text) (hback : AtLineEnd back) :
    FoundAlike blanks Eq back (inlineTarget? (own ++ back)) (inlineTarget? text) := by
  cases halone : inlineTarget? text with
  | some found =>
      obtain ⟨own', hwhole, hsame⟩ := inlineTarget_alike_of_some h hback halone
      rw [hwhole]
      exact .same rfl hsame
  | none =>
      refine .beyond fun found hfound => Nat.lt_of_not_le fun hle => ?_
      obtain ⟨more, url, after, hopen, hdestination, hurl, hcloses⟩ :=
        inlineTarget_eq_some_iff.1 hfound
      cases h with
      | nil => exact absurd (congrArg List.head? hopen) (hback '(')
      | lineBreak => cases hopen
      | char c hmore =>
          cases hopen
          have hlong := (hcloses.suffix.trans (skipSpace_suffix after)).length_le
          obtain ⟨own', text', rfl, hsame, hfirst⟩ := destination_alike_of_space hmore hback hdestination
            (Nat.le_trans hle (Nat.le_of_succ_le hlong))
          obtain ⟨text'', hend⟩ := closesTarget_of_whole hsame hback hcloses hle
          have hsome : inlineTarget? _ = some (found.1, text'') :=
            inlineTarget_eq_some_iff.2 ⟨_, _, _, rfl, hfirst, hurl, hend⟩
          rw [hsome] at halone
          cases halone

end DefinitionLists.Markdown
