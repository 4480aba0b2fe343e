/-
Module: DefinitionLists.Proofs.Markdown.Remainders
Purpose: What is left of running text after something is found at its front is an end of that text: code,
  addresses, raw HTML, the targets of links, and what a single step of reading takes.
Main exports: splitAtBackticks_suffix, inlineHtml_suffix, inlineTarget_suffix, Reading.step_suffix
-/
import DefinitionLists.Markdown.RunningText

namespace DefinitionLists.Markdown

open Markdown.Symbol (isChar skipSpace)

variable {symbols rest : List Symbol}

theorem suffix_cons_of_suffix (h : rest <:+ symbols) (symbol : Symbol) : rest <:+ symbol :: symbols :=
  h.trans (List.suffix_cons _ _)

theorem skipSpace_suffix (symbols : List Symbol) : skipSpace symbols <:+ symbols :=
  List.dropWhile_suffix _

/-! ### Code and addresses -/

theorem splitAtBackticks_suffix {length run : Nat} {before found : List Symbol}
    (h : splitAtBackticks? length run before symbols = some (found, rest)) : rest <:+ symbols := by
  fun_induction splitAtBackticks? length run before symbols with
  | case1 | case2 | case4 | case6 => simp_all
  | case3 _ _ rest ih | case5 _ _ _ rest _ _ ih | case7 _ _ _ rest _ ih =>
      exact (ih h).trans (List.suffix_cons _ _)

/-- What is left after code is the end of what was there. -/
theorem codeSpan_suffix {length : Nat} {code : List Char}
    (h : codeSpan? length symbols = some (code, rest)) : rest <:+ symbols := by
  cases length with
  | zero => cases h
  | succ n =>
      obtain ⟨⟨before, left⟩, hsplit, hfound⟩ := Option.map_eq_some_iff.1 h
      cases hfound
      exact splitAtBackticks_suffix hsplit

theorem autolink_suffix {address : List Char} (h : autolink? symbols = some (address, rest)) :
    rest <:+ symbols := by
  obtain ⟨found, -, hfound⟩ := Option.map_eq_some_iff.1 h
  cases hfound
  exact List.drop_suffix _ _

/-! ### Raw HTML -/

theorem afterPiece_suffix {piece : List Char} (h : afterPiece? piece symbols = some rest) :
    rest <:+ symbols := by
  fun_induction afterPiece? piece symbols with
  | case1 | case2 => simp_all
  | case3 symbol more hprefix =>
      obtain rfl := Option.some.inj h
      exact List.drop_suffix _ _
  | case4 symbol more _ ih => exact (ih h).trans (List.suffix_cons _ _)

theorem afterAttributeValue_suffix (h : afterAttributeValue? symbols = some rest) :
    rest <:+ symbols := by
  unfold afterAttributeValue? at h
  split at h
  · exact (afterPiece_suffix h).trans (List.suffix_cons _ _)
  · exact (afterPiece_suffix h).trans (List.suffix_cons _ _)
  · split at h
    · obtain rfl := Option.some.inj h
      exact (List.dropWhile_suffix _).trans (List.suffix_cons _ _)
    · cases h
  · cases h

/-- An attribute takes at least one character. -/
theorem exists_cons_of_afterAttribute (h : afterAttribute? symbols = some rest) :
    ∃ symbol more, symbols = symbol :: more ∧ rest <:+ more := by
  unfold afterAttribute? at h
  split at h
  · next c more =>
      refine ⟨_, more, rfl, ?_⟩
      split at h
      · simp only at h
        have hname := List.dropWhile_suffix (isChar isAttributeNameChar) (l := more)
        split at h
        · next value heq =>
            have hvalue := (List.suffix_cons (.char '=') value).trans
              (heq ▸ skipSpace_suffix (more.dropWhile (isChar isAttributeNameChar)))
            exact (((afterAttributeValue_suffix h).trans (skipSpace_suffix _)).trans hvalue).trans
              hname
        · obtain rfl := Option.some.inj h
          exact hname
      · cases h
  · cases h

theorem afterAttributes_suffix {bound : Nat} (h : afterAttributes? bound symbols = some rest) :
    rest <:+ skipSpace symbols := by
  induction bound generalizing symbols with
  | zero => cases h
  | succ bound ih =>
      unfold afterAttributes? at h
      split at h
      · next heq =>
        obtain rfl := Option.some.inj h
        exact heq ▸ List.suffix_cons _ _
      · next left heq =>
        obtain rfl := Option.some.inj h
        exact heq ▸ suffix_cons_of_suffix (List.suffix_cons (.char '>') left) (.char '/')
      · cases h
      · split at h
        · obtain ⟨after, hafter, hmore⟩ := Option.bind_eq_some_iff.1 h
          obtain ⟨symbol, more, heq, hsuffix⟩ := exists_cons_of_afterAttribute hafter
          rw [heq]
          exact suffix_cons_of_suffix (((ih hmore).trans (skipSpace_suffix _)).trans hsuffix) _
        · cases h

theorem afterTag_suffix (h : afterTag? symbols = some rest) : rest <:+ symbols := by
  unfold afterTag? at h
  simp only at h
  split at h
  · next c more =>
      split at h
      · split at h
        · next left heq =>
            obtain rfl := Option.some.inj h
            have hname := (List.dropWhile_suffix (isChar isInlineSpace)).trans
              (List.dropWhile_suffix (isChar fun c => c.isAlphanum || c == '-') (l := more))
            rw [heq] at hname
            have hend := (List.suffix_cons (.char '>') left).trans hname
            exact suffix_cons_of_suffix (suffix_cons_of_suffix hend _) _
        · cases h
      · cases h
  · split at h
    · have hname := (afterAttributes_suffix h).trans (skipSpace_suffix _)
      exact (hname.trans (List.dropWhile_suffix _)).trans (List.suffix_cons _ _)
    · cases h
  · cases h

theorem afterAside_suffix (h : afterAside? symbols = some rest) : rest <:+ symbols := by
  unfold afterAside? at h
  split at h
  · exact (afterPiece_suffix h).trans (List.suffix_cons _ _)
  · next more =>
    refine .trans ?_ (List.suffix_cons (.char '!') more)
    split at h
    · split at h
      · obtain rfl := Option.some.inj h
        exact ⟨[.char '-', .char '-', .char '>'], rfl⟩
      · obtain rfl := Option.some.inj h
        exact ⟨[.char '-', .char '-', .char '-', .char '>'], rfl⟩
      · exact suffix_cons_of_suffix (suffix_cons_of_suffix (afterPiece_suffix h) _) _
    · simp only at h
      split at h
      · exact (afterPiece_suffix h).trans (List.drop_suffix _ _)
      · split at h
        · exact afterPiece_suffix h
        · cases h
  · cases h

theorem inlineHtml_suffix {html : List Char} (h : inlineHtml? symbols = some (html, rest)) :
    rest <:+ symbols := by
  unfold inlineHtml? at h
  split at h
  · next htag =>
      cases h
      exact afterTag_suffix htag
  · obtain ⟨left, hleft, hfound⟩ := Option.map_eq_some_iff.1 h
    cases hfound
    exact afterAside_suffix hleft

/-! ### Targets -/

theorem pointedDestination_suffix {written url : List Char}
    (h : pointedDestination? written symbols = some (url, rest)) : rest <:+ symbols := by
  fun_induction pointedDestination? written symbols <;> grind [suffix_cons_of_suffix]

theorem bareDestination_suffix {maxDepth depth : Nat} {written url : List Char}
    (h : bareDestination? maxDepth depth written symbols = some (url, rest)) : rest <:+ symbols := by
  fun_induction bareDestination? maxDepth depth written symbols <;> grind [suffix_cons_of_suffix]

theorem destination_suffix {maxDepth : Nat} {url : List Char}
    (h : destination? maxDepth symbols = some (url, rest)) : rest <:+ symbols := by
  unfold destination? at h
  split at h
  · exact (pointedDestination_suffix h).trans (List.suffix_cons _ _)
  · exact bareDestination_suffix h

theorem titleFrom_suffix {closing : Char} {refused : Option Char} {written title : List Char}
    (h : titleFrom closing refused written symbols = some (title, rest)) : rest <:+ symbols := by
  fun_induction titleFrom closing refused written symbols <;> grind [suffix_cons_of_suffix]

theorem title_suffix {nested : Bool} {title : List Char}
    (h : title? nested symbols = some (title, rest)) : rest <:+ symbols := by
  unfold title? at h
  split at h
  · exact (titleFrom_suffix h).trans (List.suffix_cons _ _)
  · exact (titleFrom_suffix h).trans (List.suffix_cons _ _)
  · exact (titleFrom_suffix h).trans (List.suffix_cons _ _)
  · cases h

/-- Whether the end of a target in parentheses comes next: perhaps a title, and the closing
parenthesis. -/
def ClosesTarget (symbols : List Symbol) (title : List Char) (rest : List Symbol) : Prop :=
  ∃ left, (title? false (skipSpace symbols) = some (title, left) ∨
    title? false (skipSpace symbols) = none ∧ title = [] ∧ left = symbols) ∧
    skipSpace left = .char ')' :: rest

theorem ClosesTarget.suffix {title : List Char} (h : ClosesTarget symbols title rest) :
    .char ')' :: rest <:+ skipSpace symbols := by
  obtain ⟨left, htitle | ⟨-, -, rfl⟩, hclose⟩ := h
  · exact hclose ▸ (skipSpace_suffix left).trans (title_suffix htitle)
  · exact hclose ▸ List.suffix_refl _

/-- A target in parentheses is a destination and perhaps a title, with white space around them. -/
theorem inlineTarget_eq_some_iff {target : Target} : inlineTarget? symbols = some (target, rest) ↔
    ∃ more url after, symbols = .char '(' :: more ∧
      destination? maxLinkDepth (skipSpace more) = some (url, after) ∧ target.url = unescape url ∧
      ClosesTarget after target.title rest := by
  constructor
  · intro h
    unfold inlineTarget? at h
    split at h
    · next more =>
      split at h
      · next url after hdestination =>
        split at h
        next title left htitle =>
        split at h
        · next hclose =>
          obtain ⟨rfl, rfl⟩ := Prod.mk.inj (Option.some.inj h)
          refine ⟨more, url, after, rfl, hdestination, rfl, left, ?_, hclose⟩
          split at htitle
          · next found =>
            cases htitle
            exact .inl found
          · next hnone =>
            cases htitle
            exact .inr ⟨hnone, rfl, rfl⟩
        · cases h
      · cases h
    · cases h
  · rintro ⟨more, url, after, rfl, hdestination, hurl, left, htitle, hclose⟩
    obtain ⟨targetUrl, title⟩ := target
    obtain rfl : targetUrl = unescape url := hurl
    rcases htitle with htitle | ⟨htitle, hempty, rfl⟩
    · simp only [inlineTarget?, hdestination, htitle, hclose]
    · obtain rfl : title = [] := hempty
      rw [hclose] at htitle
      simp only [inlineTarget?, hdestination, hclose, htitle]

theorem inlineTarget_suffix {target : Target} (h : inlineTarget? symbols = some (target, rest)) :
    rest <:+ symbols := by
  obtain ⟨more, url, after, rfl, hdestination, -, hcloses⟩ := inlineTarget_eq_some_iff.1 h
  have hafter := (destination_suffix hdestination).trans (skipSpace_suffix more)
  have hrest := ((List.suffix_cons _ _).trans hcloses.suffix).trans (skipSpace_suffix after)
  exact suffix_cons_of_suffix (hrest.trans hafter) _

theorem labelFrom_suffix {length : Nat} {written label : List Char}
    (h : labelFrom length written symbols = some (label, rest)) : rest <:+ symbols := by
  fun_induction labelFrom length written symbols <;> grind [suffix_cons_of_suffix]

theorem label_suffix {label : List Char} (h : label? symbols = some (label, rest)) :
    rest <:+ symbols := by
  unfold label? at h
  split at h
  · next found =>
    simp only at h
    split at h
    · cases h
    · cases h
      exact labelFrom_suffix found
  · cases h

namespace Reading

variable {deletions : Bool} {targets : Targets} {state : Reading}

/-- What is left after a link's target is the end of what was there, whichever kind of target it is. -/
theorem linkTarget_suffix {bracket : Bracket} {target : Target} {bar : Option Nat}
    (h : linkTarget? targets state bracket symbols = (some (target, rest), bar)) :
    rest <:+ symbols := by
  unfold linkTarget? at h
  extract_lets shortcut at h
  -- a label alone takes nothing from what comes after its bracket
  have hshortcut {left : List Symbol} (h : shortcut left = some (target, rest)) : left = rest := by
    simp only [shortcut] at h
    split at h
    · cases h
    · split at h
      · split at h
        · obtain ⟨found, -, heq⟩ := Option.map_eq_some_iff.1 h
          exact (Prod.mk.inj heq).2
        · cases h
      · cases h
  split at h
  · next found =>
    cases h
    exact inlineTarget_suffix found
  · split at h
    · next after _ =>
      obtain rfl := hshortcut (Prod.mk.inj h).1
      exact suffix_cons_of_suffix (List.suffix_cons (.char ']') after) (.char '[')
    · split at h
      · next inner _ _ label after hlabel =>
        obtain ⟨found, -, heq⟩ := Option.map_eq_some_iff.1 (Prod.mk.inj h).1
        cases heq
        exact suffix_cons_of_suffix (label_suffix hlabel) _
      · obtain rfl := hshortcut (Prod.mk.inj h).1
        exact List.suffix_refl _
    · obtain rfl := hshortcut (Prod.mk.inj h).1
      exact List.suffix_refl _

theorem closeBracket_suffix (targets : Targets) (state : Reading) (symbols : List Symbol) :
    (state.closeBracket targets symbols).2 <:+ symbols := by
  unfold closeBracket
  split
  · exact List.suffix_refl _
  · simp only
    split
    · next heq =>
      split at heq
      · exact linkTarget_suffix (Prod.ext heq rfl)
      · cases heq
    · exact List.suffix_refl _

theorem backticks_suffix (state : Reading) (escaped : Bool) (symbols : List Symbol) :
    (state.backticks escaped symbols).2 <:+ symbols.drop (backtickCount symbols) := by
  unfold backticks
  simp only
  split
  · next found => exact codeSpan_suffix found
  · exact List.suffix_refl _

theorem angleBracket_suffix (state : Reading) (symbols : List Symbol) :
    (state.angleBracket symbols).2 <:+ symbols := by
  unfold angleBracket
  split
  · next found => exact autolink_suffix found
  · split
    · next found => exact inlineHtml_suffix found
    · exact List.suffix_refl _

theorem backslash_suffix (state : Reading) (symbols : List Symbol) :
    (state.backslash symbols).2 <:+ symbols := by
  unfold backslash
  split
  · split
    · exact (backticks_suffix _ _ _).trans (List.drop_suffix _ _)
    · split
      · exact List.suffix_cons _ _
      · exact List.suffix_refl _
  · split
    · exact List.suffix_cons _ _
    · exact List.suffix_refl _
  · exact List.suffix_refl _

theorem delimiters_suffix (state : Reading) (c : Char) (symbols : List Symbol) :
    (state.delimiters c (.char c :: symbols)).2 <:+ symbols := by
  have hrest : (state.delimiters c (.char c :: symbols)).2 =
      symbols.drop (symbols.takeWhile (· == .char c)).length := by
    unfold delimiters
    simp only [List.takeWhile_cons, BEq.rfl, if_true, List.length_cons, List.drop_succ_cons]
    split <;> rfl
  rw [hrest]
  exact List.drop_suffix _ _

/-- A step takes the symbol at the front, and perhaps some after it. -/
theorem step_suffix (deletions : Bool) (targets : Targets) (state : Reading) (symbol : Symbol)
    (symbols : List Symbol) : (step deletions targets state symbol symbols).2 <:+ symbols := by
  unfold step
  split
  · exact List.suffix_refl _
  · exact backslash_suffix _ _
  · refine (backticks_suffix _ _ _).trans ?_
    rw [backtickCount, List.drop_succ_cons]
    exact List.drop_suffix _ _
  · exact angleBracket_suffix _ _
  · exact closeBracket_suffix _ _ _
  · exact List.suffix_refl _
  · split
    · exact List.suffix_cons _ _
    · exact List.suffix_refl _
  · split
    · exact List.drop_suffix _ _
    · exact List.suffix_refl _
  · split
    · exact delimiters_suffix _ _ _
    · exact List.suffix_refl _

end Reading

end DefinitionLists.Markdown
