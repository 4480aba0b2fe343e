/-
Module: DefinitionLists.Proofs.Markdown.StandAlone
Purpose: A text that is read within a longer one and the same text read alone: the two readings take the
  same steps, as long as what the first one finds does not reach beyond the text.
Main exports: Reading.Alike, Reading.StepAlike, Reading.step_alike
-/
import DefinitionLists.Proofs.Markdown.Excerpts.Tag
import DefinitionLists.Proofs.Markdown.Excerpts.Target
import DefinitionLists.Proofs.Markdown.Levels

namespace DefinitionLists.Markdown

open Text (entity? isAsciiPunctuation)

variable {front : List Markup} {depth : Nat} {blanks : Bool} {own text back : List Symbol}

/-- What is left of a longer text has the end of it if it is long enough. -/
theorem drop_append_of_le {count : Nat} (h : back.length ≤ ((own ++ back).drop count).length) :
    (own ++ back).drop count = own.drop count ++ back := by
  by_cases hcount : count ≤ own.length
  · exact List.drop_append_of_le_length hcount
  · have hback : back = [] := by
      rw [← List.length_eq_zero_iff]
      rw [List.length_drop, List.length_append] at h
      omega
    rw [hback, List.append_nil, List.append_nil]

/-! ### Runs of one character -/

theorem backtickCount_append (h : SameText blanks own text) (hback : AtLineEnd back) :
    backtickCount (own ++ back) = backtickCount text := by
  induction h with
  | nil =>
      obtain rfl | ⟨around, rest, rfl⟩ := hback.cases
      · rfl
      · rfl
  | @char c own text more ih =>
      by_cases hc : c = '`'
      · subst hc
        rw [List.cons_append, backtickCount, backtickCount, ih]
      · unfold backtickCount
        split
        · next heq =>
          cases heq
          exact absurd rfl hc
        · split
          · next heq =>
            cases heq
            exact absurd rfl hc
          · rfl
  | lineBreak => rfl

theorem backtickCount_le_length (symbols : List Symbol) : backtickCount symbols ≤ symbols.length := by
  fun_induction backtickCount symbols with
  | case1 rest ih => exact Nat.succ_le_succ ih
  | case2 symbols _ => exact Nat.zero_le _

theorem length_takeWhile_append (hs : SameText blanks own text) (hback : AtLineEnd back) (c : Char) :
    ((own ++ back).takeWhile (· == .char c)).length = (text.takeWhile (· == .char c)).length := by
  induction hs with
  | nil =>
      obtain rfl | ⟨around, rest, rfl⟩ := hback.cases
      · rfl
      · rfl
  | char d more ih =>
      rw [List.cons_append, List.takeWhile_cons, List.takeWhile_cons]
      split
      · rw [List.length_cons, List.length_cons, ih]
      · rfl
  | lineBreak => rfl

namespace Reading

/-- The character that a delimiter run stands before. -/
def afterRun : List Symbol → Option Char
  | .char c :: _ => some c
  | .lineBreak around :: _ => some (around.trail.headD '\n')
  | [] => none

theorem delimiters_eq (state : Reading) (c : Char) (symbols : List Symbol) (count : Nat)
    (hcount : (symbols.takeWhile (· == .char c)).length = count) :
    state.delimiters c symbols =
      match DelimiterRun.between c count state.previous (afterRun (symbols.drop count)) with
      | some run => (state.add (.run run) c, symbols.drop count)
      | none => (state.text (List.replicate count c), symbols.drop count) := by
  subst hcount
  rfl

theorem delimiters_left (state : Reading) (c : Char) (symbols : List Symbol) :
    (state.delimiters c symbols).2 =
      symbols.drop (symbols.takeWhile (· == .char c)).length := by
  rw [delimiters_eq state c symbols _ rfl]
  split <;> rfl

/-- Delimiters are no markup. -/
theorem markups_delimiters (state : Reading) (c : Char) (symbols : List Symbol) :
    (state.delimiters c symbols).1.markups blanks = state.markups blanks := by
  rw [delimiters_eq state c symbols _ rfl]
  split
  · exact (levelMarkups_extend (markupsBackwards_cons _ _) _).trans (List.append_nil _)
  · exact markups_text state _

theorem brackets_delimiters (state : Reading) (c : Char) (symbols : List Symbol) :
    (state.delimiters c symbols).1.brackets = state.brackets := by
  rw [delimiters_eq state c symbols _ rfl]
  split <;> rfl

theorem afterRun_append (hs : SameText blanks own text) (hne : text ≠ []) (back : List Symbol) :
    afterRun (own ++ back) = afterRun text := by
  cases hs with
  | nil => exact absurd rfl hne
  | char => rfl
  | lineBreak alike _ => rw [List.cons_append, afterRun, afterRun, alike.trail]

/-! ### Two readings -/

/-- Two readings of which the second one began when the first one had read some markup and opened that
many brackets. They do the same on the same text. -/
structure Alike (blanks : Bool) (front : List Markup) (depth : Nat) (state alone : Reading) : Prop where
  levels : LevelsAlike blanks front depth state.brackets state.pieces alone.brackets alone.pieces
  /-- Outside of brackets, what comes before a delimiter matters to emphasis alone. -/
  previous : alone.brackets ≠ [] → state.previous = alone.previous

/-- Two readings after a step, with what is left to both of them. Nothing but their markup need be the
same when the text ends. -/
inductive StepAlike (blanks : Bool) (front : List Markup) (depth : Nat) (back : List Symbol) :
    (next alone : Reading × List Symbol) → Prop where
  | intro {state alone : Reading} {own text : List Symbol} (left : SameText blanks own text)
      (markups : state.markups blanks = front ++ alone.markups blanks)
      (alike : text ≠ [] → Alike blanks front depth state alone) :
      StepAlike blanks front depth back (state, own ++ back) (alone, text)

namespace Alike

variable {state alone : Reading}

/-- The whole reading has the markup of the one alone, after what it read before. -/
theorem markups (h : Alike blanks front depth state alone) :
    state.markups blanks = front ++ alone.markups blanks :=
  h.levels.markups

theorem stepAlike (h : Alike blanks front depth state alone) (left : SameText blanks own text) :
    StepAlike blanks front depth back (state, own ++ back) (alone, text) :=
  .intro left h.markups fun _ => h

theorem readText (h : Alike blanks front depth state alone) (chars : List Char) :
    Alike blanks front depth (state.text chars) (alone.text chars) :=
  ⟨h.levels.addText _, fun _ => rfl⟩

theorem add (h : Alike blanks front depth state alone) {piece piece' : Piece}
    (hpiece : piece.pressed blanks = piece'.pressed blanks) (last : Char) :
    Alike blanks front depth (state.add piece last) (alone.add piece' last) :=
  ⟨h.levels.add hpiece, fun _ => rfl⟩

theorem push (h : Alike blanks front depth state alone) (image : Bool)
    (following following' : List Symbol) :
    Alike blanks front depth
      { state with
        brackets := ⟨image, true, following, state.pieces⟩ :: state.brackets
        pieces := []
        previous := some '[' }
      { alone with
        brackets := ⟨image, true, following', alone.pieces⟩ :: alone.brackets
        pieces := []
        previous := some '[' } :=
  ⟨.inner rfl rfl rfl h.levels, fun _ => rfl⟩

theorem lineBreak (h : Alike blanks front depth state alone) (part : Inline) :
    Alike blanks front depth { state with pieces := .inline part :: state.pieces, previous := none }
      { alone with pieces := .inline part :: alone.pieces, previous := none } :=
  ⟨h.levels.add rfl, fun _ => rfl⟩

/-- Code read in the whole is the code read alone, unless it ends beyond the text. -/
theorem backticks (h : Alike blanks front depth state alone) (hs : SameText blanks own text)
    (hback : AtLineEnd back) {escaped : Bool}
    (hle : back.length ≤ (state.backticks escaped (own ++ back)).2.length) :
    StepAlike blanks front depth back (state.backticks escaped (own ++ back))
      (alone.backticks escaped text) := by
  have hcount := backtickCount_append hs hback
  have hdrop : (own ++ back).drop (backtickCount text) = own.drop (backtickCount text) ++ back :=
    List.drop_append_of_le_length (hs.length_eq ▸ backtickCount_le_length text)
  unfold Reading.backticks at hle ⊢
  simp only [hcount, hdrop] at hle ⊢
  have hsame := hs.drop (backtickCount text)
  have halike := codeSpan_alike hsame hback
    (if escaped = true then backtickCount text - 1 else backtickCount text)
  generalize codeSpan? _ (own.drop _ ++ back) = whole at halike hle ⊢
  generalize codeSpan? _ (text.drop _) = found at halike ⊢
  cases halike with
  | @same code code' related _ _ left =>
      have hpiece : (Piece.inline (.code code)).pressed blanks =
          (Piece.inline (.code code')).pressed blanks := by
        simp only [Piece.pressed, Piece.map, Inline.pressed, related]
      cases escaped with
      | false => exact (h.add hpiece '`').stepAlike left
      | true => exact ((h.readText ['`']).add hpiece '`').stepAlike left
  | beyond hbeyond =>
      cases whole with
      | some found => exact absurd hle (Nat.not_le_of_lt (hbeyond found rfl))
      | none => exact (h.readText _).stepAlike hsame

/-- An address or HTML is read alike, unless HTML ends beyond the text. -/
theorem angleBracket (h : Alike blanks front depth state alone) (hs : SameText blanks own text)
    (hback : AtLineEnd back) (hle : back.length ≤ (state.angleBracket (own ++ back)).2.length) :
    StepAlike blanks front depth back (state.angleBracket (own ++ back)) (alone.angleBracket text) := by
  have hwhole (symbols : List Symbol) (hline : lineChars symbols = lineChars text) :
      autolink? symbols = ((schemeAddress? (lineChars text)).orElse fun _ =>
        mailAddress? (lineChars text)).map
          fun address => (address, symbols.drop (address.length + 1)) := by
    rw [autolink?, hline]
  unfold Reading.angleBracket at hle ⊢
  rw [hwhole text rfl]
  rw [hwhole (own ++ back) (lineChars_append hs hback)] at hle ⊢
  generalize (schemeAddress? (lineChars text)).orElse (fun _ => mailAddress? (lineChars text)) =
    address at hle ⊢
  cases address with
  | some address =>
      simp only [Option.map_some] at hle ⊢
      rw [drop_append_of_le hle]
      exact (h.add rfl '>').stepAlike (hs.drop _)
  | none =>
      simp only [Option.map_none] at hle ⊢
      have halike := inlineHtml_alike hs hback
      generalize inlineHtml? (own ++ back) = whole at halike hle ⊢
      generalize inlineHtml? text = found at halike ⊢
      cases halike with
      | @same html html' related _ _ left =>
          have hpiece : (Piece.inline (.html html)).pressed blanks =
              (Piece.inline (.html html')).pressed blanks := by
            simp only [Piece.pressed, Piece.map, Inline.pressed, related]
          exact (h.add hpiece '>').stepAlike left
      | beyond hbeyond =>
          cases whole with
          | some found => exact absurd hle (Nat.not_le_of_lt (hbeyond found rfl))
          | none => exact (h.readText _).stepAlike hs

theorem entity (h : Alike blanks front depth state alone) (deletions : Bool) (hs : SameText blanks own text)
    (hback : AtLineEnd back)
    (hle : back.length ≤ (step deletions [] state (.char '&') (own ++ back)).2.length) :
    StepAlike blanks front depth back (step deletions [] state (.char '&') (own ++ back))
      (step deletions [] alone (.char '&') text) := by
  have hsome (state : Reading) {rest : List Symbol} {chars : List Char} {length : Nat}
      (hfound : entity? (lineChars rest) = some (chars, length)) :
      step deletions [] state (.char '&') rest =
        ({ state.text chars with previous := some ';' }, rest.drop length) := by
    simp only [step, hfound]
  have hnone (state : Reading) {rest : List Symbol} (hfound : entity? (lineChars rest) = none) :
      step deletions [] state (.char '&') rest = (state.text ['&'], rest) := by
    simp only [step, hfound]
  have hline := lineChars_append hs hback
  cases hfound : entity? (lineChars text) with
  | some found =>
      obtain ⟨chars, length⟩ := found
      rw [hsome state (hline ▸ hfound)] at hle ⊢
      rw [hsome alone hfound, drop_append_of_le hle]
      have hread := h.readText chars
      exact stepAlike ⟨hread.levels, fun _ => rfl⟩ (hs.drop _)
  | none =>
      rw [hnone state (hline ▸ hfound), hnone alone hfound]
      exact (h.readText _).stepAlike hs

theorem backslash (h : Alike blanks front depth state alone) (hs : SameText blanks own text)
    (hback : AtLineEnd back) (hle : back.length ≤ (state.backslash (own ++ back)).2.length) :
    StepAlike blanks front depth back (state.backslash (own ++ back)) (alone.backslash text) := by
  cases hs with
  | nil =>
      have hbackslash : StepAlike blanks front depth back (state.text ['\\'], [] ++ back)
          (alone.text ['\\'], []) := (h.readText _).stepAlike .nil
      obtain rfl | ⟨around, rest, rfl⟩ := hback.cases
      · exact hbackslash
      · rw [List.nil_append, Reading.backslash] at hle ⊢
        split at hle
        · exact absurd hle (Nat.not_succ_le_self _)
        · next htrail =>
          rw [if_neg htrail]
          exact hbackslash
  | @char c own text more =>
      rw [List.cons_append, Reading.backslash] at hle ⊢
      rw [Reading.backslash]
      split at hle
      · next hc =>
        rw [if_pos hc, if_pos hc]
        exact h.backticks (.char c more) hback hle
      · next hc =>
        rw [if_neg hc, if_neg hc]
        split
        · exact (h.readText _).stepAlike more
        · exact (h.readText _).stepAlike (.char c more)
  | @lineBreak around around' own text alike more =>
      rw [List.cons_append, Reading.backslash, Reading.backslash, alike.trail]
      split
      · exact (h.lineBreak .hardBreak).stepAlike more
      · exact (h.readText _).stepAlike (.lineBreak alike more)

/-- Both readings get past a run of delimiters, and add no markup, even if only one takes it for text. -/
theorem delimiters (h : Alike blanks front depth state alone) (hs : SameText blanks own text)
    (hback : AtLineEnd back) (c : Char) :
    StepAlike blanks front depth back (state.delimiters c (own ++ back)) (alone.delimiters c text) := by
  have hcount := length_takeWhile_append hs hback c
  generalize hn : (text.takeWhile (· == .char c)).length = count at hcount
  have hle : count ≤ own.length := by
    rw [← hn, hs.length_eq]
    exact (List.takeWhile_sublist _).length_le
  have hsame := hs.drop count
  have hwhole : state.delimiters c (own ++ back) =
      ((state.delimiters c (own ++ back)).1, own.drop count ++ back) := by
    rw [← List.drop_append_of_le_length hle, ← hcount, ← delimiters_left]
  have hfound : alone.delimiters c text = ((alone.delimiters c text).1, text.drop count) := by
    rw [← hn, ← delimiters_left]
  rw [hwhole, hfound]
  refine .intro hsame ?_ fun hne => ?_
  · rw [markups_delimiters, markups_delimiters, h.markups]
  · by_cases hbrackets : alone.brackets = []
    · -- outside of brackets a run in one reading may be text in the other
      have hlevels := h.levels
      rw [hbrackets] at hlevels
      have hmarkups : (state.delimiters c (own ++ back)).1.markups blanks =
          front ++ (alone.delimiters c text).1.markups blanks := by
        rw [markups_delimiters, markups_delimiters, h.markups]
      unfold Reading.markups at hmarkups
      rw [brackets_delimiters, brackets_delimiters, hbrackets] at hmarkups
      constructor
      · rw [brackets_delimiters, brackets_delimiters, hbrackets]
        exact .outermost hlevels.length_eq_of_nil hmarkups
      · rw [brackets_delimiters]
        exact fun hne => absurd hbrackets hne
    · rw [delimiters_eq state c (own ++ back) count hcount, delimiters_eq alone c text count hn,
        List.drop_append_of_le_length hle, afterRun_append hsame hne, h.previous hbrackets]
      cases DelimiterRun.between c count alone.previous (afterRun (text.drop count)) with
      | some run => exact h.add rfl c
      | none => exact h.readText _

end Alike

/-! ### Brackets -/

/-- Where no label has a target, a link needs one in parentheses. -/
theorem linkTarget_of_no_targets (state : Reading) (bracket : Bracket) (rest : List Symbol) :
    (linkTarget? [] state bracket rest).1 = inlineTarget? rest := by
  unfold linkTarget?
  extract_lets shortcut
  have hshortcut (left : List Symbol) : shortcut left = none := by
    simp only [shortcut]
    split
    · rfl
    · split
      · split
        · rfl
        · rfl
      · rfl
  split
  · next found => exact found.symm
  · next hnone =>
    rw [hnone]
    split
    · exact hshortcut _
    · split
      · rfl
      · exact hshortcut _
    · exact hshortcut _

/-- The link or image that a bracket began. -/
def linkOf (bracket : Bracket) (target : Target) (content : List Inline) : Inline :=
  if bracket.image then .image target content else .link target content

theorem pressed_linkOf (bracket : Bracket) (target : Target) (content : List Inline) :
    (linkOf bracket target content).pressed blanks =
      linkOf bracket target (content.map (Inline.pressed blanks)) := by
  unfold linkOf
  split <;> rw [Inline.pressed, Inline.pressedIn_eq_map]

section CloseBracket

variable {state : Reading} {bracket : Bracket} {outer : List Bracket} {rest : List Symbol}

theorem closeBracket_of_nil (h : state.brackets = []) (rest : List Symbol) :
    state.closeBracket [] rest = (state.text [']'], rest) := by
  unfold closeBracket
  rw [h]

/-- Where a target in parentheses follows, the bracket began a link or an image. -/
theorem exists_closeBracket_of_target {target : Target} {after : List Symbol}
    (h : state.brackets = bracket :: outer) (hlive : bracket.live = true)
    (hfound : inlineTarget? rest = some (target, after)) :
    ∃ barred, state.closeBracket [] rest =
      (⟨.inline (linkOf bracket target (Inline.ofPieces state.pieces.reverse)) :: bracket.before,
        if bracket.image then outer else outer.map Bracket.deadened, some ')', barred⟩, after) := by
  have hlast : (if after.length = rest.length then ']'
      else if rest.head? = some (.char '(') then ')' else ']') = ')' := by
    obtain ⟨more, url, left, rfl, hdestination, -, hcloses⟩ := inlineTarget_eq_some_iff.1 hfound
    have hlong := (((hcloses.suffix.trans (skipSpace_suffix left)).trans
      (destination_suffix hdestination)).trans (skipSpace_suffix more)).length_le
    rw [List.length_cons] at hlong
    rw [if_neg (by rw [List.length_cons]; omega), List.head?_cons, if_pos rfl]
  have htarget := linkTarget_of_no_targets state bracket rest
  rw [hfound] at htarget
  unfold closeBracket
  rw [h]
  simp only [if_pos hlive, htarget, hlast]
  exact ⟨_, rfl⟩

/-- Where none does, it began nothing. -/
theorem exists_closeBracket_of_none (h : state.brackets = bracket :: outer)
    (hnone : bracket.live = true → inlineTarget? rest = none) :
    ∃ barred, state.closeBracket [] rest =
      ((⟨giveUp bracket state.pieces, outer, state.previous, barred⟩ : Reading).text [']'], rest) := by
  have hfound : (if bracket.live = true then linkTarget? [] state bracket rest
      else (none, none)).1 = none := by
    split
    · next hlive => rw [linkTarget_of_no_targets, hnone hlive]
    · rfl
  unfold closeBracket
  rw [h]
  simp only [hfound]
  exact ⟨_, rfl⟩

theorem length_brackets_closeBracket (h : state.brackets = bracket :: outer) :
    (state.closeBracket [] rest).1.brackets.length = outer.length := by
  by_cases hnone : bracket.live = true → inlineTarget? rest = none
  · obtain ⟨barred, heq⟩ := exists_closeBracket_of_none h hnone
    rw [heq]
    rfl
  · obtain ⟨hlive, hne⟩ := Classical.not_imp.1 hnone
    obtain ⟨⟨target, after⟩, hfound⟩ := Option.ne_none_iff_exists'.1 hne
    obtain ⟨barred, heq⟩ := exists_closeBracket_of_target h hlive hfound
    rw [heq]
    simp only
    split
    · rfl
    · rw [List.length_map]

end CloseBracket

section Alike

variable {state alone : Reading} {bracket bracket' : Bracket} {outer outer' : List Bracket}

/-- A bracket that was open before the text does not end within it. -/
theorem Alike.brackets_eq_nil {rest : List Symbol} (h : Alike blanks front depth state alone)
    (hnil : alone.brackets = [])
    (hdeep : depth ≤ (state.closeBracket [] rest).1.brackets.length) : state.brackets = [] := by
  have hlevels := h.levels
  rw [hnil] at hlevels
  have hlength := hlevels.length_eq_of_nil
  cases hbrackets : state.brackets with
  | nil => rfl
  | cons bracket outer =>
      rw [length_brackets_closeBracket hbrackets] at hdeep
      rw [hbrackets, List.length_cons] at hlength
      omega

/-- A bracket that began nothing becomes text in both readings. -/
theorem Alike.closeBracket_of_none (h : Alike blanks front depth state alone)
    (hs : SameText blanks own text) (hb : state.brackets = bracket :: outer)
    (hb' : alone.brackets = bracket' :: outer')
    (hnone : bracket.live = true → inlineTarget? (own ++ back) = none)
    (hnone' : bracket'.live = true → inlineTarget? text = none) :
    StepAlike blanks front depth back (state.closeBracket [] (own ++ back))
      (alone.closeBracket [] text) := by
  obtain ⟨barred, heq⟩ := exists_closeBracket_of_none hb hnone
  obtain ⟨barred', heq'⟩ := exists_closeBracket_of_none hb' hnone'
  have hlevels := h.levels
  rw [hb, hb'] at hlevels
  rw [heq, heq']
  exact stepAlike ⟨hlevels.giveUp.addText _, fun _ => rfl⟩ hs

/-- A bracket that began a link or an image ends with the same one in both readings. -/
theorem Alike.closeBracket_of_target (h : Alike blanks front depth state alone)
    (hs : SameText blanks own text) (hb : state.brackets = bracket :: outer)
    (hb' : alone.brackets = bracket' :: outer') (hlive : bracket.live = true)
    {target : Target} {symbols : List Symbol}
    (hwhole : inlineTarget? symbols = some (target, own ++ back)) {symbols' : List Symbol}
    (hfound : inlineTarget? symbols' = some (target, text)) :
    StepAlike blanks front depth back (state.closeBracket [] symbols)
      (alone.closeBracket [] symbols') := by
  have hlevels := h.levels
  rw [hb, hb'] at hlevels
  obtain ⟨_, _, hcons, himage, hsameLive, hsame, haround⟩ := hlevels.exists_of_cons
  obtain ⟨rfl, rfl⟩ := List.cons.inj hcons
  obtain ⟨barred, heq⟩ := exists_closeBracket_of_target hb hlive hwhole
  obtain ⟨barred', heq'⟩ := exists_closeBracket_of_target hb' (hsameLive ▸ hlive) hfound
  have hpiece : (Piece.inline (linkOf bracket target
        (Inline.ofPieces state.pieces.reverse))).pressed blanks =
      (Piece.inline (linkOf bracket' target
        (Inline.ofPieces alone.pieces.reverse))).pressed blanks := by
    rw [Piece.pressed, Piece.map, Piece.pressed, Piece.map, pressed_linkOf, pressed_linkOf,
      map_pressed_ofPieces hsame]
    unfold linkOf
    rw [himage]
  have hlink := haround.add hpiece
  rw [heq, heq', himage]
  split
  · exact stepAlike ⟨hlink, fun _ => rfl⟩ hs
  · exact stepAlike ⟨hlink.deaden, fun _ => rfl⟩ hs

/-- A bracket closes alike in both readings if it opened within the text and its target ends there. -/
theorem Alike.closeBracket (h : Alike blanks front depth state alone)
    (hs : SameText blanks own text) (hback : AtLineEnd back)
    (hdeep : depth ≤ (state.closeBracket [] (own ++ back)).1.brackets.length)
    (hle : back.length ≤ (state.closeBracket [] (own ++ back)).2.length) :
    StepAlike blanks front depth back (state.closeBracket [] (own ++ back))
      (alone.closeBracket [] text) := by
  cases hb' : alone.brackets with
  | nil =>
      rw [closeBracket_of_nil (h.brackets_eq_nil hb' hdeep), closeBracket_of_nil hb']
      exact (h.readText _).stepAlike hs
  | cons bracket' outer' =>
      have hlevels := h.levels
      rw [hb'] at hlevels
      obtain ⟨bracket, outer, hb, -, hsameLive, -, -⟩ := hlevels.exists_of_cons
      cases hlive : bracket.live with
      | false => exact h.closeBracket_of_none hs hb hb' (by simp [hlive]) (by simp [← hsameLive, hlive])
      | true =>
          have halike := inlineTarget_alike hs hback
          generalize hwhole : inlineTarget? (own ++ back) = whole at halike
          generalize hfound : inlineTarget? text = found at halike
          cases halike with
          | same related left =>
              subst related
              exact h.closeBracket_of_target left hb hb' hlive hwhole hfound
          | beyond hbeyond =>
              cases whole with
              | none => exact h.closeBracket_of_none hs hb hb' (fun _ => hwhole) (fun _ => hfound)
              | some found =>
                  -- the whole reading would have gone beyond the text
                  obtain ⟨barred, heq⟩ := exists_closeBracket_of_target hb hlive hwhole
                  rw [heq] at hle
                  exact absurd hle (Nat.not_le_of_lt (hbeyond found rfl))

end Alike

/-! ### Steps -/

/-- An exclamation mark, which begins an image if a bracket follows it. -/
theorem Alike.exclamation {state alone : Reading} (h : Alike blanks front depth state alone)
    (deletions : Bool) (hs : SameText blanks own text) (hback : AtLineEnd back) :
    StepAlike blanks front depth back (step deletions [] state (.char '!') (own ++ back))
      (step deletions [] alone (.char '!') text) := by
  have hplain (state : Reading) {rest : List Symbol} (hrest : rest.head? ≠ some (.char '[')) :
      step deletions [] state (.char '!') rest = (state.text ['!'], rest) := by
    cases rest with
    | nil => rfl
    | cons symbol more =>
        unfold step
        simp only
        split
        · next heq =>
          cases heq
          exact absurd rfl hrest
        · rfl
  cases hs with
  | nil =>
      have hend : ([] ++ back).head? ≠ some (.char '[') := hback '['
      rw [hplain state hend, hplain alone (by simp)]
      exact (h.readText _).stepAlike .nil
  | @char c own text more =>
      by_cases hc : c = '['
      · subst hc
        exact (h.push true _ _).stepAlike more
      · rw [hplain state (by simpa using hc), hplain alone (by simpa using hc)]
        exact (h.readText _).stepAlike (.char c more)
  | lineBreak alike more =>
      rw [hplain state (by simp), hplain alone (by simp)]
      exact (h.readText _).stepAlike (.lineBreak alike more)

/-- Characters that are only text, and delimiters. -/
theorem Alike.plainChar {deletions : Bool} {state alone : Reading}
    (h : Alike blanks front depth state alone)
    (hs : SameText blanks own text) (hback : AtLineEnd back) (c : Char) :
    StepAlike blanks front depth back
      (if c = '*' ∨ c = '_' ∨ (c = '~' ∧ deletions) then state.delimiters c (.char c :: (own ++ back))
        else (state.text [c], own ++ back))
      (if c = '*' ∨ c = '_' ∨ (c = '~' ∧ deletions) then alone.delimiters c (.char c :: text)
        else (alone.text [c], text)) := by
  split
  · exact h.delimiters (.char c hs) hback c
  · exact (h.readText _).stepAlike hs

/-- Two readings do the same with the next symbol, as long as the first one stays within the text. -/
theorem step_alike {deletions : Bool} {state alone : Reading} {symbol symbol' : Symbol}
    (h : Alike blanks front depth state alone) (hs : SameText blanks (symbol :: own) (symbol' :: text))
    (hback : AtLineEnd back)
    (hdeep : depth ≤ (step deletions [] state symbol (own ++ back)).1.brackets.length)
    (hle : back.length ≤ (step deletions [] state symbol (own ++ back)).2.length) :
    StepAlike blanks front depth back (step deletions [] state symbol (own ++ back))
      (step deletions [] alone symbol' text) := by
  cases hs with
  | lineBreak alike more =>
      rw [step, step, alike.trail]
      exact (h.lineBreak _).stepAlike more
  | char c more =>
      revert hdeep hle
      unfold step
      split
      · next heq => cases heq
      · next heq =>
        cases heq
        exact fun _ hle => h.backslash more hback hle
      · next heq =>
        cases heq
        exact fun _ hle => h.backticks (.char _ more) hback hle
      · next heq =>
        cases heq
        exact fun _ hle => h.angleBracket more hback hle
      · next heq =>
        cases heq
        exact fun hdeep hle => h.closeBracket more hback hdeep hle
      · next heq =>
        cases heq
        exact fun _ _ => (h.push false _ _).stepAlike more
      · next heq =>
        cases heq
        exact fun _ _ => h.exclamation deletions more hback
      · next heq =>
        cases heq
        exact fun _ hle => h.entity deletions more hback hle
      · next heq =>
        cases heq
        exact fun _ _ => h.plainChar more hback c

end Reading

end DefinitionLists.Markdown
