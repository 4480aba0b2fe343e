/-
Module: DefinitionLists.Proofs.Details.SplitOrder
Purpose: Where the rest of an item goes that is split into several. All that follows its first text
  stays with the first item, so what later lines say comes after it.
Main exports: substance, substance_splitItemLines, Node.afterFirstText, Node.restText,
  splitItem_keeps_order_iff
-/
import DefinitionLists.Proofs.Details.Content
import DefinitionLists.Proofs.Seeds.Text

namespace DefinitionLists

open Node (plainTexts)
open Text (joinLines joinLines_cons_of_ne_nil joinLines_splitLines splitLines)

/-! ### Texts without blanks and bullets -/

/-- The text without its blanks and bullets. -/
def substance (text : List Char) : List Char := text.filter isSubstance

theorem substance_append (first second : List Char) :
    substance (first ++ second) = substance first ++ substance second :=
  List.filter_append first second

theorem substance_flatten (texts : List (List Char)) :
    substance texts.flatten = texts.flatMap substance := by
  rw [substance, List.filter_flatten]
  rfl

/-- Removing marks takes away blanks and bullets only. -/
theorem substance_stripMarkers (text : List Char) :
    substance (stripMarkers .bullets text) = substance text := by
  fun_induction stripMarkers .bullets text with
  | case1 text found h hset ih =>
      obtain ⟨front, htext, hfront⟩ := Marker.exists_front_of_match h hset
      have hnone : substance front = [] :=
        List.filter_eq_nil_iff.2 fun c hc => by simp [hfront c hc]
      rw [ih, htext, substance_append, hnone, List.nil_append]
  | _ => rfl

/-- The bullets that a line loses are no substance. -/
theorem substance_bareLine (line : List Char) : substance (bareLine line) = substance line := by
  unfold bareLine
  split
  · exact substance_stripMarkers line
  · rfl

/-- Line feeds are blanks, so that joining lines adds no substance. -/
theorem substance_joinLines (lines : List (List Char)) :
    substance (joinLines lines) = lines.flatMap substance := by
  induction lines with
  | nil => rfl
  | cons line more ih =>
      cases more with
      | nil => rw [joinLines, List.flatMap_singleton]
      | cons next rest =>
          have hbreak : substance ('\n' :: joinLines (next :: rest)) =
              substance (joinLines (next :: rest)) := rfl
          rw [joinLines_cons_of_ne_nil line (List.cons_ne_nil _ _), substance_append, hbreak, ih]
          rfl

/-- The texts of the items that the lines of one make up say what the lines say, in their order. -/
theorem substance_splitItemLines {text first : List Char} {later : List (List Char)}
    (hl : splitLines text = first :: later) :
    (splitItemLines first later).flatMap substance = substance text := by
  have hlines := congrArg substance (joinLines_splitItemLines first later)
  rw [substance_joinLines, substance_joinLines, List.flatMap_cons, List.flatMap_map] at hlines
  have hbare : (later.flatMap fun line => substance (bareLine line)) = later.flatMap substance :=
    List.flatMap_congr fun line _ => substance_bareLine line
  rw [hlines, hbare, ← List.flatMap_cons, ← substance_joinLines, ← hl, joinLines_splitLines]

/-! ### The rest of an item -/

namespace Node

/-- What follows the text that an item opens with: the other nodes in its paragraph, and the blocks
after that. -/
def afterFirstText : Node → List Node × List Node
  | .branch (.listItem _ _ _) (.branch (.container .paragraph _ _) (.text _ :: inlines) :: blocks) =>
    (inlines, blocks)
  | _ => ([], [])

/-- The text of what follows the text that an item opens with. -/
def restText (item : Node) : String :=
  plainTexts item.afterFirstText.1 ++ plainTexts item.afterFirstText.2

/-- The text of an item is its first text and then the rest. -/
theorem plainText_of_firstText {item : Node} {text : String} (h : item.firstText? = some text) :
    item.plainText = text ++ item.restText := by
  obtain ⟨spread, checked, hint, inner, span, inlines, blocks, rfl⟩ := exists_of_firstText h
  exact String.append_assoc

/-- What follows the first text does not depend on it. -/
theorem afterFirstText_mapFirstText (f : String → String) (item : Node) :
    (item.mapFirstText f).afterFirstText = item.afterFirstText := by
  cases h : item.firstText? with
  | none => rw [mapFirstText_of_none h]
  | some value =>
      obtain ⟨spread, checked, hint, inner, span, inlines, blocks, rfl⟩ := exists_of_firstText h
      rfl

theorem restText_mapFirstText (f : String → String) (item : Node) :
    (item.mapFirstText f).restText = item.restText := by
  rw [restText, afterFirstText_mapFirstText, restText]

/-- Items that are made of texts have nothing else. -/
theorem toList_plainTexts_itemOfText (texts : List (List Char)) :
    (plainTexts (texts.map fun text => itemOfText (String.ofList text))).toList = texts.flatten := by
  induction texts with
  | nil => rfl
  | cons text more ih =>
      have hitem : (itemOfText (String.ofList text)).plainText = String.ofList text := by
        simp [itemOfText, paragraph, plain, plainText, leafText]
      rw [List.map_cons, plainTexts_cons, String.toList_append, hitem, String.toList_ofList, ih,
        List.flatten_cons]

end Node

/-- The first of several items keeps all that follows the first text of the one they are made of, and
the others have nothing but texts. So the rest of an item goes with the last line only if there is
none, and the items say what it said in the same order, blanks and bullets apart, exactly if later
lines and the rest say the same whichever comes first. -/
theorem splitItem_keeps_order_iff {item : Node} (h : 1 < (splitItem item).length) :
    (splitItem item).map Node.afterFirstText =
        item.afterFirstText :: List.replicate ((splitItem item).length - 1) ([], []) ∧
      ((splitItem item).getLast?.map Node.afterFirstText = some item.afterFirstText ↔
        item.afterFirstText = ([], [])) ∧
      (substance (plainTexts (splitItem item)).toList = substance item.plainText.toList ↔
        substance item.restText.toList ++ substance (plainTexts (splitItem item).tail).toList =
          substance (plainTexts (splitItem item).tail).toList ++ substance item.restText.toList) := by
  cases htext : item.firstText? with
  | none =>
      rw [splitItem_of_none htext] at h
      cases Nat.lt_irrefl 1 h
  | some text =>
      obtain ⟨first, later, hl⟩ := List.exists_cons_of_ne_nil (Text.splitLines_ne_nil text.toList)
      obtain ⟨own, others, hitems, hsplit⟩ := splitItem_of_lines htext hl
      rw [hsplit] at h ⊢
      have hlater : (others.map fun text => Node.itemOfText (String.ofList text)).map
          Node.afterFirstText = List.replicate others.length ([], []) := by
        rw [List.map_map]
        exact List.map_const'
      refine ⟨?_, ?_, ?_⟩
      · rw [List.map_cons, hlater, Node.afterFirstText_mapFirstText]
        simp
      · -- an item that is split has a last item besides its own
        have hsome : others ≠ [] := by
          rintro rfl
          cases Nat.lt_irrefl 1 h
        obtain ⟨before, last, rfl⟩ := List.eq_nil_or_concat others |>.resolve_left hsome
        have hlast : (Node.itemOfText (String.ofList last)).afterFirstText = ([], []) := rfl
        simp [List.getLast?_cons, hlast, eq_comm]
      · -- the first item has its own text and the rest, and then come the others
        have hown : (item.mapFirstText fun _ => String.ofList own).firstText? =
            some (String.ofList own) := by
          rw [Node.firstText_mapFirstText, htext]
          rfl
        have hlines := substance_splitItemLines hl
        rw [hitems, List.flatMap_cons, ← substance_flatten] at hlines
        rw [List.tail_cons, Node.toList_plainTexts_itemOfText, Node.plainTexts_cons,
          Node.plainText_of_firstText htext, Node.plainText_of_firstText hown,
          Node.restText_mapFirstText]
        simp only [String.toList_append, String.toList_ofList, Node.toList_plainTexts_itemOfText,
          substance_append, ← hlines, List.append_assoc, List.append_cancel_left_eq]

theorem splitItem_keeps_order_of_code_after_lines :
    1 < (splitItem (.branch (.listItem false none none)
        [.paragraph [.text "a\n- b\n- c"], .leaf (.code none "d")])).length ∧
      (splitItem (.branch (.listItem false none none)
        [.paragraph [.text "a\n- b\n- c"], .leaf (.code none "d")])).map Node.afterFirstText =
        [([], [.leaf (.code none "d")]), ([], []), ([], [])] := by
  have hlength : (splitItem (.branch (.listItem false none none)
      [.paragraph [.text "a\n- b\n- c"], .leaf (.code none "d")])).length = 3 := by
    decide +kernel
  have h : 1 < (splitItem (.branch (.listItem false none none)
      [.paragraph [.text "a\n- b\n- c"], .leaf (.code none "d")])).length := by
    rw [hlength]
    decide
  refine ⟨h, ?_⟩
  rw [(splitItem_keeps_order_iff h).1, hlength]
  rfl

/-- What is strong in the second of two lines goes with the first. -/
theorem not_forall_splitItem_keeps_order :
    (¬ ∀ item : Node, 1 < (splitItem item).length →
      (splitItem item).getLast?.map Node.afterFirstText = some item.afterFirstText) ∧
      ¬ ∀ item : Node, 1 < (splitItem item).length →
        substance (plainTexts (splitItem item)).toList = substance item.plainText.toList := by
  have hlength : 1 < (splitItem (.branch (.listItem false none none)
      [.paragraph [.text "a\n- b ", .plain .strong [.text "c"]]])).length := by
    decide +kernel
  refine ⟨fun hall => ?_, fun hall => ?_⟩
  · have hlast := hall _ hlength
    revert hlast
    decide +kernel
  · have hsame := hall _ hlength
    revert hsame
    decide +kernel

end DefinitionLists
