/-
Module: DefinitionLists.Proofs.Markdown.Levels
Purpose: The pieces that a reading of running text holds at each of its open brackets, and what two
  readings have in common of which one began within the other: inside of brackets that both have open
  the same pieces, outside of them the same markup after what was read before.
Main exports: Reading.markups, Reading.markups_ofSymbols, LevelsAlike, LevelsAlike.markups,
  LevelsAlike.extend, LevelsAlike.giveUp
-/
import DefinitionLists.Markdown.RunningText
import DefinitionLists.Proofs.Markdown.Markups

namespace DefinitionLists.Markdown

open Inline (pressed)

/-! ### Pieces -/

variable {blanks : Bool}

/-- The piece with its code and raw HTML told up to blanks, unless these count. -/
def Piece.pressed (blanks : Bool) (piece : Piece) : Piece := piece.map (Inline.pressed blanks)

/-- The links, images and code in a piece. -/
def Piece.markups (blanks : Bool) (piece : Piece) : List Markup := piece.held (Inline.markups blanks)

/-- The markup of pieces that are given the last one first. -/
def markupsBackwards (blanks : Bool) (pieces : List Piece) : List Markup :=
  pieces.reverse.flatMap (Piece.markups blanks)

theorem markupsBackwards_append (later earlier : List Piece) :
    markupsBackwards blanks (later ++ earlier) =
      markupsBackwards blanks earlier ++ markupsBackwards blanks later := by
  rw [markupsBackwards, List.reverse_append, List.flatMap_append]
  rfl

theorem markupsBackwards_cons (piece : Piece) (earlier : List Piece) :
    markupsBackwards blanks (piece :: earlier) =
      markupsBackwards blanks earlier ++ piece.markups blanks := by
  rw [← List.singleton_append, markupsBackwards_append]
  exact congrArg _ (List.flatMap_singleton _ piece)

/-- Pressing a piece keeps its markup. -/
theorem Piece.markups_eq_of_pressed {piece piece' : Piece}
    (h : piece.pressed blanks = piece'.pressed blanks) :
    piece.markups blanks = piece'.markups blanks := by
  cases piece with
  | inline part =>
      cases piece' with
      | inline part' =>
          have hpart : part.pressed blanks = part'.pressed blanks := by
            simpa [Piece.pressed, Piece.map] using h
          rw [Piece.markups, Piece.markups, Piece.held, Piece.held, Inline.markups, Inline.markups, hpart]
      | text _ | run _ => cases h
  | text _ | run _ => cases piece' <;> first | rfl | cases h

theorem markupsBackwards_eq_of_pressed {pieces pieces' : List Piece}
    (h : pieces.map (Piece.pressed blanks) = pieces'.map (Piece.pressed blanks)) :
    markupsBackwards blanks pieces = markupsBackwards blanks pieces' := by
  induction pieces generalizing pieces' with
  | nil =>
      rw [List.map_nil, eq_comm, List.map_eq_nil_iff] at h
      rw [h]
  | cons piece more ih =>
      cases pieces' with
      | nil => cases h
      | cons piece' more' =>
          obtain ⟨hpiece, hmore⟩ := List.cons.inj h
          rw [markupsBackwards_cons, markupsBackwards_cons, ih hmore,
            Piece.markups_eq_of_pressed hpiece]

/-- Pieces that are the same up to blanks make up parts that are. -/
theorem map_pressed_ofPieces {pieces pieces' : List Piece}
    (h : pieces.map (Piece.pressed blanks) = pieces'.map (Piece.pressed blanks)) :
    (Inline.ofPieces pieces.reverse).map (pressed blanks) =
      (Inline.ofPieces pieces'.reverse).map (pressed blanks) := by
  have hreverse : pieces.reverse.map (Piece.pressed blanks) =
      pieces'.reverse.map (Piece.pressed blanks) := by
    rw [List.map_reverse, List.map_reverse, h]
  rw [← Inline.ofPieces_map (Inline.keepsSpans_pressed blanks),
    ← Inline.ofPieces_map (Inline.keepsSpans_pressed blanks)]
  exact congrArg Inline.ofPieces hreverse

theorem flatMap_markups_ofPieces (pieces : List Piece) :
    (Inline.ofPieces pieces).flatMap (Inline.markups blanks) = pieces.flatMap (Piece.markups blanks) :=
  Inline.flatMap_ofPieces (Inline.seesThroughSpans_markups blanks) pieces

/-! ### Brackets -/

/-- The bracket when a link ended within it: it begins no link then. -/
def Bracket.deadened (bracket : Bracket) : Bracket :=
  if bracket.image then bracket else { bracket with live := false }

theorem Bracket.image_deadened (bracket : Bracket) : bracket.deadened.image = bracket.image := by
  unfold deadened
  split <;> rfl

theorem Bracket.before_deadened (bracket : Bracket) : bracket.deadened.before = bracket.before := by
  unfold deadened
  split <;> rfl

namespace Reading

theorem markupsBackwards_addText (backwards : List Char) (pieces : List Piece) :
    markupsBackwards blanks (addText backwards pieces) = markupsBackwards blanks pieces := by
  unfold addText
  split
  · rw [markupsBackwards_cons, markupsBackwards_cons]
    rfl
  · rw [markupsBackwards_cons]
    exact List.append_nil _

theorem map_pressed_addText (backwards : List Char) (pieces : List Piece) :
    (addText backwards pieces).map (Piece.pressed blanks) =
      addText backwards (pieces.map (Piece.pressed blanks)) := by
  cases pieces with
  | nil => rfl
  | cons piece more => cases piece <;> rfl

theorem markupsBackwards_giveUp (bracket : Bracket) (pieces : List Piece) :
    markupsBackwards blanks (giveUp bracket pieces) =
      markupsBackwards blanks bracket.before ++ markupsBackwards blanks pieces := by
  unfold giveUp
  simp only
  split
  · next first more hreverse =>
    have hpieces : pieces = more.reverse ++ [.text first] := by
      rw [← List.reverse_reverse pieces, hreverse, List.reverse_cons]
    rw [hpieces, markupsBackwards_append, markupsBackwards_append, markupsBackwards_addText,
      markupsBackwards_addText]
    rfl
  · rw [markupsBackwards_append, markupsBackwards_addText]

theorem map_pressed_giveUp (bracket : Bracket) (pieces : List Piece) :
    (giveUp bracket pieces).map (Piece.pressed blanks) =
      giveUp { bracket with before := bracket.before.map (Piece.pressed blanks) }
        (pieces.map (Piece.pressed blanks)) := by
  unfold giveUp
  rw [← List.map_reverse]
  cases pieces.reverse with
  | nil => rw [List.map_append, map_pressed_addText]; rfl
  | cons piece more =>
      cases piece with
      | text first =>
          simp only [List.map_cons, List.map_append, map_pressed_addText, List.map_reverse]
          rfl
      | inline _ | run _ => rw [List.map_append, map_pressed_addText]; rfl

/-- The markup that pieces hold at open brackets, from the outermost one on. -/
def levelMarkups (blanks : Bool) : List Bracket → List Piece → List Markup
  | [], pieces => markupsBackwards blanks pieces
  | bracket :: outer, pieces => levelMarkups blanks outer bracket.before ++ markupsBackwards blanks pieces

/-- The links, images and code that are read so far. -/
def markups (blanks : Bool) (state : Reading) : List Markup :=
  levelMarkups blanks state.brackets state.pieces

/-- A bracket that begins no link any more holds what it held. -/
theorem levelMarkups_deadened (brackets : List Bracket) (pieces : List Piece) :
    levelMarkups blanks (brackets.map Bracket.deadened) pieces = levelMarkups blanks brackets pieces := by
  induction brackets generalizing pieces with
  | nil => rfl
  | cons bracket outer ih =>
      rw [List.map_cons, levelMarkups, levelMarkups, Bracket.before_deadened, ih]

/-- A bracket that begins nothing leaves all markup in place. -/
theorem levelMarkups_giveUp (bracket : Bracket) (outer : List Bracket) (pieces : List Piece) :
    levelMarkups blanks outer (giveUp bracket pieces) = levelMarkups blanks (bracket :: outer) pieces := by
  cases outer with
  | nil => rw [levelMarkups, markupsBackwards_giveUp, levelMarkups, levelMarkups]
  | cons next more =>
      rw [levelMarkups, markupsBackwards_giveUp, levelMarkups, levelMarkups, List.append_assoc]

theorem flatMap_markups_finish (state : Reading) :
    state.finish.flatMap (Piece.markups blanks) = state.markups blanks := by
  have hfold (brackets : List Bracket) (pieces : List Piece) :
      markupsBackwards blanks (brackets.foldl (fun pieces bracket => giveUp bracket pieces) pieces) =
        levelMarkups blanks brackets pieces := by
    induction brackets generalizing pieces with
    | nil => rfl
    | cons bracket outer ih => rw [List.foldl_cons, ih, levelMarkups_giveUp]
  exact hfold state.brackets state.pieces

/-- A text has the markup that was read when it ends. -/
theorem markups_ofSymbols (blanks : Bool) (dialect : Dialect) (content : List Symbol) :
    dialect.markups blanks content =
      (run dialect.deletions dialect.targets content.length {} content).markups blanks := by
  rw [Dialect.markups, Inline.ofSymbols, flatMap_markups_ofPieces, flatMap_markups_finish]

/-- More markup in the innermost pieces comes last. -/
theorem levelMarkups_extend {pieces pieces' : List Piece} {added : List Markup}
    (h : markupsBackwards blanks pieces' = markupsBackwards blanks pieces ++ added)
    (brackets : List Bracket) :
    levelMarkups blanks brackets pieces' = levelMarkups blanks brackets pieces ++ added := by
  cases brackets with
  | nil => exact h
  | cons bracket outer => rw [levelMarkups, levelMarkups, h, List.append_assoc]

theorem markups_text (state : Reading) (chars : List Char) :
    (state.text chars).markups blanks = state.markups blanks := by
  have htext : markupsBackwards blanks (addText chars.reverse state.pieces) = _ :=
    markupsBackwards_addText chars.reverse state.pieces
  rw [← List.append_nil (markupsBackwards blanks state.pieces)] at htext
  exact (levelMarkups_extend htext _).trans (List.append_nil _)

end Reading

/-! ### Two readings -/

open Reading (addText giveUp levelMarkups levelMarkups_extend levelMarkups_giveUp)

/-- What two readings hold at their open brackets, of which the second one began after the first one had
read some markup and opened that many brackets: the same pieces inside of brackets that both have
opened since then, and the same markup outside of them. -/
inductive LevelsAlike (blanks : Bool) (front : List Markup) (depth : Nat) :
    (brackets : List Bracket) → (pieces : List Piece) → (brackets' : List Bracket) →
      (pieces' : List Piece) → Prop where
  | outermost {brackets : List Bracket} {pieces pieces' : List Piece} (deep : brackets.length = depth)
      (same : levelMarkups blanks brackets pieces = front ++ markupsBackwards blanks pieces') :
      LevelsAlike blanks front depth brackets pieces [] pieces'
  | inner {bracket bracket' : Bracket} {outer outer' : List Bracket} {pieces pieces' : List Piece}
      (image : bracket.image = bracket'.image) (live : bracket.live = bracket'.live)
      (same : pieces.map (Piece.pressed blanks) = pieces'.map (Piece.pressed blanks))
      (around : LevelsAlike blanks front depth outer bracket.before outer' bracket'.before) :
      LevelsAlike blanks front depth (bracket :: outer) pieces (bracket' :: outer') pieces'

namespace LevelsAlike

variable {front : List Markup} {depth : Nat} {brackets brackets' : List Bracket}
  {pieces pieces' : List Piece}

/-- Of the second reading comes all the markup after the front. -/
theorem markups (h : LevelsAlike blanks front depth brackets pieces brackets' pieces') :
    levelMarkups blanks brackets pieces = front ++ levelMarkups blanks brackets' pieces' := by
  induction h with
  | outermost _ same => exact same
  | inner _ _ same _ ih =>
      rw [levelMarkups, levelMarkups, ih, markupsBackwards_eq_of_pressed same, List.append_assoc]

theorem length_eq_of_nil (h : LevelsAlike blanks front depth brackets pieces [] pieces') :
    brackets.length = depth := by
  cases h with
  | outermost deep _ => exact deep

theorem exists_of_cons {bracket' : Bracket} {outer' : List Bracket}
    (h : LevelsAlike blanks front depth brackets pieces (bracket' :: outer') pieces') :
    ∃ bracket outer, brackets = bracket :: outer ∧ bracket.image = bracket'.image ∧
      bracket.live = bracket'.live ∧
      pieces.map (Piece.pressed blanks) = pieces'.map (Piece.pressed blanks) ∧
      LevelsAlike blanks front depth outer bracket.before outer' bracket'.before := by
  cases h with
  | inner image live same around => exact ⟨_, _, rfl, image, live, same, around⟩

/-- Pieces that hold the same new markup, and are the same if those before them were. -/
theorem extend (h : LevelsAlike blanks front depth brackets pieces brackets' pieces')
    {more more' : List Piece} {added : List Markup}
    (hmore : markupsBackwards blanks more = markupsBackwards blanks pieces ++ added)
    (hmore' : markupsBackwards blanks more' = markupsBackwards blanks pieces' ++ added)
    (hsame : pieces.map (Piece.pressed blanks) = pieces'.map (Piece.pressed blanks) →
      more.map (Piece.pressed blanks) = more'.map (Piece.pressed blanks)) :
    LevelsAlike blanks front depth brackets more brackets' more' := by
  cases h with
  | outermost deep same =>
      refine .outermost deep ?_
      rw [levelMarkups_extend hmore, hmore', same, List.append_assoc]
  | inner image live same around => exact .inner image live (hsame same) around

theorem addText (h : LevelsAlike blanks front depth brackets pieces brackets' pieces')
    (backwards : List Char) :
    LevelsAlike blanks front depth brackets (Reading.addText backwards pieces) brackets'
      (Reading.addText backwards pieces') := by
  have hnone (pieces : List Piece) : markupsBackwards blanks (Reading.addText backwards pieces) =
      markupsBackwards blanks pieces ++ [] := by
    rw [Reading.markupsBackwards_addText, List.append_nil]
  refine h.extend (hnone _) (hnone _) fun hsame => ?_
  rw [Reading.map_pressed_addText, Reading.map_pressed_addText, hsame]

/-- A piece more in both readings, the same up to pressing. -/
theorem add (h : LevelsAlike blanks front depth brackets pieces brackets' pieces') {piece piece' : Piece}
    (hpiece : piece.pressed blanks = piece'.pressed blanks) :
    LevelsAlike blanks front depth brackets (piece :: pieces) brackets' (piece' :: pieces') := by
  refine h.extend (markupsBackwards_cons _ _)
    (Piece.markups_eq_of_pressed hpiece ▸ markupsBackwards_cons _ _) fun hsame => ?_
  rw [List.map_cons, List.map_cons, hpiece, hsame]

/-- A bracket that begins nothing in either reading. -/
theorem giveUp {bracket bracket' : Bracket} {outer outer' : List Bracket}
    (h : LevelsAlike blanks front depth (bracket :: outer) pieces (bracket' :: outer') pieces') :
    LevelsAlike blanks front depth outer (Reading.giveUp bracket pieces) outer'
      (Reading.giveUp bracket' pieces') := by
  cases h with
  | inner image live same around =>
      refine around.extend (Reading.markupsBackwards_giveUp _ _) ?_ fun hbefore => ?_
      · rw [markupsBackwards_eq_of_pressed same]
        exact Reading.markupsBackwards_giveUp _ _
      · rw [Reading.map_pressed_giveUp, Reading.map_pressed_giveUp, same, hbefore]
        unfold Reading.giveUp
        rw [image]

/-- Brackets around a link in both readings. -/
theorem deaden (h : LevelsAlike blanks front depth brackets pieces brackets' pieces') :
    LevelsAlike blanks front depth (brackets.map Bracket.deadened) pieces (brackets'.map Bracket.deadened)
      pieces' := by
  induction h with
  | outermost deep same =>
      refine .outermost (by rwa [List.length_map]) ?_
      rw [Reading.levelMarkups_deadened, same]
  | inner image live same around ih =>
      refine .inner (by rwa [Bracket.image_deadened, Bracket.image_deadened]) ?_ same ?_
      · rw [Bracket.deadened, Bracket.deadened, image]
        split
        · exact live
        · rfl
      · rwa [Bracket.before_deadened, Bracket.before_deadened]

end LevelsAlike

end DefinitionLists.Markdown
