/-
Module: DefinitionLists.Proofs.Markdown.LineByLine
Purpose: A document is read line by line between its line feeds, and what a line makes of the state does
  not depend on where it stands.
Main exports: BlockState.after, BlockState.readLine, BlockState.read_joinLines_cons,
  BlockState.after_append, BlockState.Alike.readLine, IsSingle, Line.ofSingle, BlockState.readLine_single
-/
import DefinitionLists.Proofs.Markdown.Pieces
import DefinitionLists.Proofs.Written.Documents

namespace DefinitionLists.Markdown

open Text (byteLength dropCarriageReturn joinLines)

/-- Whether a text is empty or ends in a line feed. -/
def IsClosed (text : List Char) : Prop := text = [] ∨ text.getLast? = some '\n'

theorem joinLines_cons (line : List Char) (more : List (List Char)) :
    joinLines (line :: more) = line ++ (lineEnd false more ++ joinLines more) := by
  rw [← writeLines_false, writeLines_cons, writeLines_false]

theorem lineEnd_of_ne_nil {more : List (List Char)} (h : more ≠ []) : lineEnd false more = ['\n'] := by
  simp [lineEnd, h]

/-- Whether nothing but blanks comes next is seen on the next line. -/
theorem opensBlank_joinLines (line : List Char) (more : List (List Char)) :
    opensBlank (joinLines (line :: more)) = opensBlank line := by
  cases more with
  | nil => rfl
  | cons next more =>
      rw [joinLines_cons, lineEnd_of_ne_nil (by simp)]
      unfold opensBlank
      rw [List.dropWhile_append]
      split
      · next hempty =>
          rw [List.isEmpty_iff.1 hempty]
          rfl
      · next hempty => rw [List.head?_append_of_ne_nil _ (by simpa using hempty)]

namespace Line

theorem followedBy_followedBy (line : Line) (first second : List Char) :
    (line.followedBy first).followedBy second = line.followedBy (first ++ second) := by
  simp [followedBy]

theorem map_followedBy_nil (lines : List Line) : lines.map (followedBy []) = lines := by
  have hline : followedBy [] = id := by
    funext line
    simp [followedBy]
  rw [hline, List.map_id]

/-- The lines of a text that ends in a line feed are the first ones of any longer text. -/
theorem splitFrom_of_isClosed {front : List Char} (h : IsClosed front) (start : Nat)
    (rest : List Char) : splitFrom start [] (front ++ rest) =
      (splitFrom start [] front).map (followedBy rest) ++
        splitFrom (start + byteLength front) [] rest := by
  rcases h with rfl | hlast
  · simp [splitFrom]
  · obtain ⟨text, rfl⟩ : ∃ text, front = text ++ ['\n'] := by
      obtain ⟨text, htext⟩ := List.getLast?_eq_some_iff.1 hlast
      exact ⟨text, htext⟩
    have hlength : start + byteLength (text ++ ['\n']) =
        start + byteLength ([].reverse ++ text) + 1 := by
      have hfeed : '\n'.utf8Size = 1 := rfl
      simp [Text.byteLength_append, hfeed, Nat.add_assoc]
    rw [List.append_assoc, List.singleton_append, splitFrom_piece, hlength]

/-- A line is read first of all that is left, up to its line feed if others come after it. -/
theorem splitFrom_line (start : Nat) (line : List Char) (more : List (List Char)) :
    splitFrom start [] (joinLines (line :: more)) =
      (splitFrom start [] (line ++ lineEnd false more)).map (followedBy (joinLines more)) ++
        splitFrom (start + byteLength (line ++ lineEnd false more)) [] (joinLines more) := by
  rw [joinLines_cons, ← List.append_assoc]
  cases more with
  | nil =>
      have hnil : joinLines [] = [] := rfl
      rw [hnil, List.append_nil, map_followedBy_nil, splitFrom]
      exact (List.append_nil _).symm
  | cons next more =>
      refine splitFrom_of_isClosed (.inr ?_) start _
      rw [lineEnd_of_ne_nil (by simp), List.getLast?_concat]

end Line

namespace BlockState

/-- What is known after the text `front` when the text `back` comes next. -/
def after (tasks : Bool) (front back : List Char) : BlockState :=
  ((Line.split front).map (Line.followedBy back)).foldl (takeLine tasks) {}

/-- The state after a line of text up to a line feed; the lines `more` come next. -/
def readLine (tasks : Bool) (start : Nat) (line : List Char) (more : List (List Char))
    (state : BlockState) : BlockState :=
  ((Line.splitFrom start [] (line ++ lineEnd false more)).map (Line.followedBy (joinLines more))).foldl
    (takeLine tasks) state

variable {tasks : Bool} {state state' : BlockState}

/-- A text is read one line after another, each with the lines after it in view. -/
theorem read_joinLines_cons (tasks : Bool) (start : Nat) (line : List Char) (more : List (List Char))
    (state : BlockState) : read tasks start (joinLines (line :: more)) state =
      read tasks (start + byteLength (line ++ lineEnd false more)) (joinLines more)
        (state.readLine tasks start line more) := by
  rw [read, Line.splitFrom_line, List.foldl_append]
  rfl

/-- A line is read after what stands before it. -/
theorem after_append {front : List Char} (h : IsClosed front) (tasks : Bool) (line : List Char)
    (more : List (List Char)) : after tasks (front ++ (line ++ lineEnd false more)) (joinLines more) =
      (after tasks front (joinLines (line :: more))).readLine tasks (byteLength front) line more := by
  have hmap : (Line.followedBy (joinLines more) ∘ Line.followedBy (line ++ lineEnd false more)) =
      Line.followedBy (joinLines (line :: more)) := by
    funext line
    rw [Function.comp_apply, Line.followedBy_followedBy, joinLines_cons, List.append_assoc]
  unfold after readLine Line.split
  rw [Line.splitFrom_of_isClosed h, List.map_append, List.map_map, hmap, List.foldl_append,
    Nat.zero_add]

/-- A line leaves the states alike if the same comes after it, or if what comes after it makes no
difference. -/
theorem Alike.readLine (h : state.Alike state') (tasks : Bool) (start start' : Nat) (line : List Char)
    {more more' : List (List Char)} (hm : more.isEmpty = more'.isEmpty)
    (hn : opensBlank (joinLines more) = opensBlank (joinLines more') ∨
      (opensBlank (joinLines more) = false ∧ ¬ (state.readLine tasks start line more).InEmptyItem)) :
    (state.readLine tasks start line more).Alike (state'.readLine tasks start' line more') := by
  have hend : lineEnd false more = lineEnd false more' := by
    rw [lineEnd, lineEnd, hm]
  have htwins := Line.twins_splitFrom start start' [] (line ++ lineEnd false more)
  unfold BlockState.readLine at hn ⊢
  rw [← hend]
  cases more with
  | nil =>
      obtain rfl : more' = [] := List.isEmpty_iff.1 hm.symm
      have hnil : joinLines [] = [] := rfl
      rw [hnil, Line.map_followedBy_nil, Line.map_followedBy_nil]
      exact h.foldl_twins htwins
  | cons next more =>
      rw [lineEnd_of_ne_nil (by simp)] at htwins hn ⊢
      exact h.foldl_piece htwins (Line.endPiece_splitFrom start [] (by simp)).2 hn

end BlockState

/-! ### Single lines -/

/-- Whether no line ends within a line of text, but for a carriage return at its end. -/
def IsSingle (line : List Char) : Prop := '\n' ∉ line ∧ '\r' ∉ line.dropLast

instance (line : List Char) : Decidable (IsSingle line) := inferInstanceAs (Decidable (_ ∧ _))

theorem IsSingle.of_suffix {line rest : List Char} (h : IsSingle line) (hs : rest <:+ line) :
    IsSingle rest := by
  refine ⟨fun hmem => h.1 (hs.subset hmem), fun hmem => h.2 ?_⟩
  obtain ⟨front, rfl⟩ := hs
  cases rest with
  | nil => cases hmem
  | cons c more =>
      rw [List.dropLast_append_of_ne_nil (by simp)]
      exact List.mem_append_right front hmem

theorem IsSingle.append {front rest : List Char} (hf : Unbroken front) (h : IsSingle rest) :
    IsSingle (front ++ rest) := by
  have hfront (c : Char) (hc : c = '\n' ∨ c = '\r') : c ∉ front := by
    intro hmem
    rcases hc with rfl | rfl
    · exact (hf _ hmem).1 rfl
    · exact (hf _ hmem).2 rfl
  refine ⟨fun hmem => ?_, fun hmem => ?_⟩
  · exact (List.mem_append.1 hmem).elim (hfront _ (.inl rfl)) h.1
  · cases rest with
    | nil =>
        rw [List.append_nil] at hmem
        exact hfront _ (.inr rfl) (List.dropLast_subset _ hmem)
    | cons c more =>
        rw [List.dropLast_append_of_ne_nil (by simp)] at hmem
        exact (List.mem_append.1 hmem).elim (hfront _ (.inr rfl)) h.2

/-- A single line is its text, and a carriage return after it at most. -/
theorem IsSingle.text {line : List Char} (h : IsSingle line) : Unbroken (dropCarriageReturn line) ∧
    (line = dropCarriageReturn line ∨ line = dropCarriageReturn line ++ ['\r']) := by
  obtain ⟨hfeed, hreturn⟩ := h
  rcases List.eq_nil_or_concat line with rfl | ⟨text, last, rfl⟩
  · exact ⟨by simp [Unbroken, dropCarriageReturn], .inl rfl⟩
  · rw [List.concat_eq_append] at hfeed hreturn ⊢
    rw [List.dropLast_concat] at hreturn
    have hunbroken : Unbroken text := fun c hc =>
      ⟨fun heq => hfeed (heq ▸ List.mem_append_left _ hc), fun heq => hreturn (heq ▸ hc)⟩
    by_cases hlast : last = '\r'
    · subst hlast
      have htext : dropCarriageReturn (text ++ ['\r']) = text := by simp [dropCarriageReturn]
      rw [htext]
      exact ⟨hunbroken, .inr rfl⟩
    · have hline : Unbroken (text ++ [last]) := by
        refine unbroken_append hunbroken fun c hc => ?_
        obtain rfl : c = last := by simpa using hc
        exact ⟨fun heq => hfeed (by simp [heq]), hlast⟩
      rw [dropCarriageReturn_of_unbroken hline]
      exact ⟨hline, .inl rfl⟩

/-- What stands after the text of a single line. -/
theorem IsSingle.ending {line : List Char} (h : IsSingle line) :
    (line = dropCarriageReturn line ∧ line.drop (dropCarriageReturn line).length = []) ∨
      (line = dropCarriageReturn line ++ ['\r'] ∧
        line.drop (dropCarriageReturn line).length = ['\r']) := by
  rcases h.text.2 with heq | heq
  · exact .inl ⟨heq, by rw [← heq, List.drop_length]⟩
  · refine .inr ⟨heq, ?_⟩
    generalize dropCarriageReturn line = text at heq
    rw [heq, List.drop_left]

namespace Line

/-- The line that a single line of text is read as. -/
def ofSingle (start : Nat) (line : List Char) (more : List (List Char)) : Line :=
  ⟨start, dropCarriageReturn line,
    line.drop (dropCarriageReturn line).length ++ lineEnd false more, joinLines more⟩

/-- One line is split off from the front of a text. -/
theorem splitFrom_single {line : List Char} (h : IsSingle line) {more : List (List Char)}
    (hne : line ≠ [] ∨ more ≠ []) (start : Nat) :
    (splitFrom start [] (line ++ lineEnd false more)).map (followedBy (joinLines more)) =
      [ofSingle start line more] := by
  have hunbroken := h.text.1
  unfold ofSingle
  rcases h.ending with ⟨heq, hdrop⟩ | ⟨heq, hdrop⟩
  · rw [← heq] at hunbroken
    rw [hdrop, List.nil_append, ← heq, splitFrom_append hunbroken, List.append_nil]
    cases more with
    | nil =>
        have hline : line ≠ [] := by simpa using hne
        simp [splitFrom, lineEnd, joinLines, hline, followedBy]
    | cons next more =>
        rw [lineEnd_of_ne_nil (by simp)]
        simp [splitFrom, followedBy]
  · rw [hdrop]
    generalize dropCarriageReturn line = text at heq hunbroken
    subst heq
    rw [List.append_assoc, splitFrom_append hunbroken, List.append_nil]
    cases more with
    | nil => simp [splitFrom, lineEnd, joinLines, followedBy]
    | cons next more =>
        rw [lineEnd_of_ne_nil (by simp)]
        simp [splitFrom, followedBy]

variable (start start' : Nat) (line : List Char) {more more' : List (List Char)}

/-- Two single lines with the same text hold the same if both or neither are the last ones. -/
theorem same_ofSingle (hm : more.isEmpty = more'.isEmpty) :
    (ofSingle start line more).Same (ofSingle start' line more') := by
  have hend : lineEnd false more = lineEnd false more' := by
    rw [lineEnd, lineEnd, hm]
  refine ⟨rfl, by rw [ofSingle, ofSingle, hend], fun rest => ?_⟩
  cases more with
  | nil =>
      obtain rfl : more' = [] := List.isEmpty_iff.1 hm.symm
      rfl
  | cons next more =>
      have hreturn (ending : List Char) : (ending ++ ['\n'] == ['\r']) = false := by
        cases ending with
        | nil => rfl
        | cons c after => cases after <;> simp
      unfold ofSingle rawFrom endsInCarriageReturn
      simp only [← hend, lineEnd_of_ne_nil (List.cons_ne_nil next more), hreturn,
        Bool.false_eq_true, if_false]

end Line

namespace BlockState

/-- A single line is read at once. -/
theorem readLine_single {line : List Char} (h : IsSingle line) {more : List (List Char)}
    (hne : line ≠ [] ∨ more ≠ []) (tasks : Bool) (start : Nat) (state : BlockState) :
    state.readLine tasks start line more = state.takeLine tasks (.ofSingle start line more) := by
  rw [readLine, Line.splitFrom_single h hne]
  rfl

end BlockState

end DefinitionLists.Markdown
