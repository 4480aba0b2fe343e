/-
Module: DefinitionLists.Proofs.Markdown.Pieces
Purpose: Text is read piece by piece between its line feeds. The lines of a piece are the same wherever
  it stands, whatever comes after it.
Main exports: Line.followedBy, Line.splitFrom_piece, Line.Twin, Line.EndPiece, opensBlank,
  BlockState.Alike.foldl_twins, BlockState.Alike.foldl_piece
-/
import Mathlib.Data.List.TakeWhile
import DefinitionLists.Proofs.Markdown.Alike

namespace DefinitionLists.Markdown

open Text (byteLength)

namespace Line

/-- The line with more text after all that follows it. -/
def followedBy (rest : List Char) (line : Line) : Line :=
  { line with following := line.following ++ rest }

/-- A carriage return ends a line by itself unless a line feed comes next. -/
theorem splitFrom_return (start : Nat) (before : List Char) {more : List Char}
    (h : ∀ rest, more ≠ '\n' :: rest) : splitFrom start before ('\r' :: more) =
      ⟨start, before.reverse, ['\r'], more⟩ ::
        splitFrom (Line.stop ⟨start, before.reverse, ['\r'], more⟩) [] more := by
  rw [splitFrom]
  exact h

/-- The lines up to a line feed do not depend on what comes after it, nor do those after it on what was
before. -/
theorem splitFrom_piece (start : Nat) (before text rest : List Char) :
    splitFrom start before (text ++ '\n' :: rest) =
      (splitFrom start before (text ++ ['\n'])).map (followedBy rest) ++
        splitFrom (start + byteLength (before.reverse ++ text) + 1) [] rest := by
  have hfeed : '\n'.utf8Size = 1 := rfl
  have hreturn : '\r'.utf8Size = 1 := rfl
  have hline (start : Nat) (ended ending more : List Char) :
      (⟨start, ended, ending, more ++ '\n' :: rest⟩ : Line) =
        followedBy rest ⟨start, ended, ending, more ++ ['\n']⟩ := by
    simp [followedBy]
  fun_induction splitFrom start before text with
  | case1 | case2 => simp [splitFrom, followedBy, stop]
  | case3 start before more line =>
      rename_i ih
      have hstop : line.stop + byteLength ([].reverse ++ more) + 1 =
          start + byteLength (before.reverse ++ '\n' :: more) + 1 := by
        simp [line, stop, Text.byteLength_append, Nat.add_assoc, hfeed]
      rw [← hstop, List.cons_append, List.cons_append, splitFrom, splitFrom, hline]
      exact congrArg (_ :: ·) ih
  | case4 start before more line =>
      rename_i ih
      have hstop : line.stop + byteLength ([].reverse ++ more) + 1 =
          start + byteLength (before.reverse ++ '\r' :: '\n' :: more) + 1 := by
        simp [line, stop, Text.byteLength_append, Nat.add_assoc, hfeed, hreturn]
        omega
      rw [← hstop]
      simp only [List.cons_append, splitFrom, hline]
      exact congrArg (_ :: ·) ih
  | case5 start before more hnot line =>
      rename_i ih
      cases more with
      | nil =>
          -- the carriage return and the line feed after the text make one end of a line
          simp [splitFrom, followedBy, stop, Text.byteLength_append, hreturn, Nat.add_assoc]
      | cons c more =>
          have hstop : line.stop + byteLength ([].reverse ++ c :: more) + 1 =
              start + byteLength (before.reverse ++ '\r' :: c :: more) + 1 := by
            simp [line, stop, Text.byteLength_append, Nat.add_assoc, hreturn]
          have hc : c ≠ '\n' := fun heq => hnot more (by rw [heq])
          have hafter (after rest : List Char) : c :: after ≠ '\n' :: rest := fun heq =>
            hc (List.cons.inj heq).1
          rw [← hstop]
          simp only [List.cons_append] at ih ⊢
          rw [splitFrom_return _ _ (hafter _), splitFrom_return _ _ (hafter _), ← List.cons_append,
            hline]
          exact congrArg (_ :: ·) ih
  | case6 start before c more hfeed _ hreturn ih =>
      have hstep (after : List Char) :
          splitFrom start before (c :: after) = splitFrom start (c :: before) after := by
        rw [splitFrom]
        · exact hfeed
        · exact fun _ heq _ => hreturn heq
        · exact hreturn
      have hbefore : before.reverse ++ c :: more = (c :: before).reverse ++ more := by simp
      rw [List.cons_append, List.cons_append, hstep, hstep, hbefore]
      exact ih

/-- Whether lines are the same but for where they start. -/
structure Twin (line line' : Line) : Prop where
  text : line.text = line'.text
  ending : line.ending = line'.ending
  following : line.following = line'.following

/-- Where a text starts does not matter to its lines. -/
theorem twins_splitFrom (start start' : Nat) (before text : List Char) :
    List.Forall₂ Twin (splitFrom start before text) (splitFrom start' before text) := by
  fun_induction splitFrom start before text generalizing start' with
  | case1 start before hempty =>
      rw [splitFrom, if_pos hempty]
      exact .nil
  | case2 start before hempty =>
      rw [splitFrom, if_neg hempty]
      exact .cons ⟨rfl, rfl, rfl⟩ .nil
  | case3 start before more line =>
      rename_i ih
      rw [splitFrom]
      exact .cons ⟨rfl, rfl, rfl⟩ (ih _)
  | case4 start before more line =>
      rename_i ih
      rw [splitFrom]
      exact .cons ⟨rfl, rfl, rfl⟩ (ih _)
  | case5 start before more hnot line =>
      rename_i ih
      rw [splitFrom_return _ _ hnot]
      exact .cons ⟨rfl, rfl, rfl⟩ (ih _)
  | case6 start before c more hfeed hboth hreturn ih =>
      rw [splitFrom]
      · exact ih start'
      · exact hfeed
      · exact hboth
      · exact hreturn

/-- Whether lines are what is left of text that ends in a line feed: the last one has nothing after it,
and each one before it has the line feed after it. -/
structure EndPiece (lines : List Line) : Prop where
  init : ∀ line ∈ lines.dropLast, '\n' ∈ line.following
  last : ∀ line ∈ lines.getLast?, line.following = [] ∧ line.endsInCarriageReturn = false

theorem EndPiece.tail {line : Line} {more : List Line} (h : EndPiece (line :: more)) :
    EndPiece more := by
  cases more with
  | nil => exact ⟨by simp, by simp⟩
  | cons next more =>
      have hinit := h.init
      have hlast := h.last
      rw [List.dropLast_cons_cons] at hinit
      rw [List.getLast?_cons_cons] at hlast
      exact ⟨fun line hl => hinit line (List.mem_cons_of_mem _ hl), hlast⟩

theorem EndPiece.cons {line : Line} {lines : List Line} (hne : lines ≠ []) (h : EndPiece lines)
    (hf : '\n' ∈ line.following) : EndPiece (line :: lines) := by
  obtain ⟨next, more, rfl⟩ := List.exists_cons_of_ne_nil hne
  refine ⟨?_, ?_⟩
  · rw [List.dropLast_cons_cons]
    exact List.forall_mem_cons.2 ⟨hf, h.init⟩
  · rw [List.getLast?_cons_cons]
    exact h.last

theorem EndPiece.single {line : Line} (hf : line.following = [])
    (he : line.endsInCarriageReturn = false) : EndPiece [line] := by
  refine ⟨by simp, fun last hlast => ?_⟩
  obtain rfl : line = last := Option.some.inj hlast
  exact ⟨hf, he⟩

/-- A text that ends in a line feed leaves no line unfinished. -/
theorem endPiece_splitFrom (start : Nat) (before : List Char) {text : List Char}
    (h : text.getLast? = some '\n') :
    splitFrom start before text ≠ [] ∧ EndPiece (splitFrom start before text) := by
  fun_induction splitFrom start before text with
  | case1 | case2 => cases h
  | case3 start before more line =>
      rename_i ih
      refine ⟨by simp, ?_⟩
      cases more with
      | nil => exact .single rfl rfl
      | cons c more =>
          rw [List.getLast?_cons_cons] at h
          exact .cons (ih h).1 (ih h).2 (List.mem_of_getLast? h)
  | case4 start before more line =>
      rename_i ih
      refine ⟨by simp, ?_⟩
      cases more with
      | nil => exact .single rfl rfl
      | cons c more =>
          rw [List.getLast?_cons_cons, List.getLast?_cons_cons] at h
          exact .cons (ih h).1 (ih h).2 (List.mem_of_getLast? h)
  | case5 start before more hnot line =>
      rename_i ih
      refine ⟨by simp, ?_⟩
      cases more with
      | nil => cases h
      | cons c more =>
          rw [List.getLast?_cons_cons] at h
          exact .cons (ih h).1 (ih h).2 (List.mem_of_getLast? h)
  | case6 start before c more hfeed hboth hreturn ih =>
      cases more with
      | nil => exact absurd (Option.some.inj h) hfeed
      | cons d more =>
          rw [List.getLast?_cons_cons] at h
          exact ih h

end Line

/-! ### What comes after a line -/

/-- Whether nothing but blanks comes up to the end of a line. -/
def opensBlank (text : List Char) : Bool :=
  (text.dropWhile isInlineSpace).head?.all fun c => c == '\n' || c == '\r'

theorem opensBlank_append {text : List Char} (h : '\n' ∈ text) (rest : List Char) :
    opensBlank (text ++ rest) = opensBlank text := by
  have hne : text.dropWhile isInlineSpace ≠ [] := by
    intro hnil
    have hspace := List.dropWhile_eq_nil_iff.1 hnil '\n' h
    cases hspace
  unfold opensBlank
  rw [List.dropWhile_append, if_neg (by simpa using hne), List.head?_append_of_ne_nil _ hne]

namespace Line

theorem nextIsBlank_followedBy (rest : List Char) (line : Line) :
    (line.followedBy rest).nextIsBlank = opensBlank (line.following ++ rest) :=
  rfl

/-- Lines that are the same stay so with other text after them, if that begins on a line of its own. -/
theorem Twin.same {line line' : Line} (h : line.Twin line') (rest rest' : List Char)
    (hf : line.endsInCarriageReturn = true → '\n' ∈ line.following) :
    (line.followedBy rest).Same (line'.followedBy rest') := by
  refine ⟨h.text, h.ending, fun after => ?_⟩
  have hending : (line.followedBy rest).endsInCarriageReturn = line.endsInCarriageReturn := rfl
  have hending' : (line'.followedBy rest').endsInCarriageReturn = line.endsInCarriageReturn := by
    show line'.endsInCarriageReturn = _
    rw [endsInCarriageReturn, endsInCarriageReturn, h.ending]
  unfold rawFrom
  rw [hending, hending']
  split
  · next hreturn =>
      have hmem := hf hreturn
      have htake (rest : List Char) : (line.following ++ rest).takeWhile (· ≠ '\n') =
          line.following.takeWhile (· ≠ '\n') := by
        rw [List.takeWhile_append, if_neg]
        intro hlength
        have hall := List.takeWhile_eq_self_iff.1 (List.Sublist.eq_of_length
          (List.takeWhile_prefix _).sublist hlength) '\n' hmem
        simp at hall
      simp only [followedBy, ← h.following, ← h.ending, htake]
      simp [hmem]
  · simp only [followedBy, h.ending]

end Line

namespace BlockState

variable {tasks : Bool} {state state' : BlockState}

/-- Lines that are the same but for where they start leave the states alike. -/
theorem Alike.foldl_twins {lines lines' : List Line} (ht : List.Forall₂ Line.Twin lines lines')
    (h : state.Alike state') :
    (lines.foldl (BlockState.takeLine tasks) state).Alike
      (lines'.foldl (BlockState.takeLine tasks) state') := by
  induction ht generalizing state state' with
  | nil => exact h
  | @cons line line' more more' hline hmore ih =>
      have hsame : line.Same line' := by
        refine ⟨hline.text, hline.ending, fun rest => ?_⟩
        rw [Line.rawFrom, Line.rawFrom, Line.endsInCarriageReturn, Line.endsInCarriageReturn,
          hline.ending, hline.following]
      have hnext : line.nextIsBlank = line'.nextIsBlank := by
        rw [Line.nextIsBlank, Line.nextIsBlank, hline.following]
      exact ih (h.takeLine hsame tasks (.inl hnext))

/-- Lines of a piece leave the states alike if the same comes after it, or if what comes after it makes
no difference. -/
theorem Alike.foldl_piece {rest rest' : List Char} {lines lines' : List Line}
    (ht : List.Forall₂ Line.Twin lines lines') (hp : Line.EndPiece lines)
    (hn : opensBlank rest = opensBlank rest' ∨ (opensBlank rest = false ∧
      ¬ ((lines.map (Line.followedBy rest)).foldl (BlockState.takeLine tasks) state).InEmptyItem))
    (h : state.Alike state') :
    ((lines.map (Line.followedBy rest)).foldl (BlockState.takeLine tasks) state).Alike
      ((lines'.map (Line.followedBy rest')).foldl (BlockState.takeLine tasks) state') := by
  -- only what comes after the last line is not the same in both texts
  induction ht generalizing state state' with
  | nil => exact h
  | @cons line line' more more' hline hmore ih =>
      cases hmore with
      | nil =>
          obtain ⟨hfollowing, hending⟩ := hp.last line rfl
          have hsame := hline.same rest rest' (by simp [hending])
          refine h.takeLine hsame tasks ?_
          rw [Line.nextIsBlank_followedBy, Line.nextIsBlank_followedBy, ← hline.following, hfollowing]
          exact hn
      | cons hnext hrest =>
          have hmem : '\n' ∈ line.following := hp.init line (by simp)
          have hsame := hline.same rest rest' fun _ => hmem
          refine ih hp.tail hn (h.takeLine hsame tasks (.inl ?_))
          rw [Line.nextIsBlank_followedBy, Line.nextIsBlank_followedBy, ← hline.following,
            opensBlank_append hmem, opensBlank_append hmem]

end BlockState

end DefinitionLists.Markdown
