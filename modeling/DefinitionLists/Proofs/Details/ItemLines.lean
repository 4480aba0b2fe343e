/-
Module: DefinitionLists.Proofs.Details.ItemLines
Purpose: The items that the lines of one item make up: each line with a mark starts an item, and all
  lines after it, up to the next mark, belong to that item.
Main exports: bareLine, unmarkedText, splitItemLines_eq, joinLines_splitItemLines,
  splitItem_keeps_lines
-/
import Mathlib.Data.List.SplitBy
import DefinitionLists.Definition.Details

namespace DefinitionLists

open Text (joinLines joinLines_cons_of_ne_nil splitLines)

/-- What a line after the first one says in an item: a line that starts an item loses its bullets. -/
def bareLine (line : List Char) : List Char :=
  if isItemLine line then stripMarkers .bullets line else line

/-- Whether the second of two lines goes on with the item of the first. -/
def goesOn (_ line : List Char) : Bool := !isItemLine line

/-- The text of an item from its lines, of which the first one starts it. -/
def unmarkedText (lines : List (List Char)) : List Char :=
  joinLines (lines.modifyHead (stripMarkers .bullets))

/-! ### Lines -/

theorem splitItemLines_ne_nil (current : List Char) (lines : List (List Char)) :
    splitItemLines current lines ≠ [] := by
  fun_induction splitItemLines current lines with
  | case1 => simp
  | case2 => simp
  | case3 current line more _ ih => exact ih

/-- A line that starts an item ends the one before it. -/
theorem splitItemLines_item {line : List Char} (h : isItemLine line = true) (current : List Char)
    (more : List (List Char)) :
    splitItemLines current (line :: more) =
      current :: splitItemLines (stripMarkers .bullets line) more := by
  simp [splitItemLines, h]

/-- Lines that start no item belong to the item before them. -/
theorem splitItemLines_continued {own : List (List Char)}
    (h : ∀ line ∈ own, isItemLine line = false) (current : List Char) (rest : List (List Char)) :
    splitItemLines current (own ++ rest) = splitItemLines (joinLines (current :: own)) rest := by
  induction own generalizing current with
  | nil => rfl
  | cons line more ih =>
      obtain ⟨hline, hmore⟩ := List.forall_mem_cons.1 h
      rw [List.cons_append, splitItemLines, hline]
      simp only [Bool.false_eq_true, if_false]
      rw [ih hmore, Text.joinLines_continued]

/-- There is an item for the lines before the first mark, and one for each mark. -/
theorem length_splitItemLines (current : List Char) (lines : List (List Char)) :
    (splitItemLines current lines).length = 1 + lines.countP isItemLine := by
  fun_induction splitItemLines current lines with
  | case1 => rfl
  | case2 current line more h ih =>
      rw [List.length_cons, ih, List.countP_cons_of_pos h]
      omega
  | case3 current line more h ih => rw [ih, List.countP_cons_of_neg h]

/-- Nothing but marks is lost. -/
theorem joinLines_splitItemLines (current : List Char) (lines : List (List Char)) :
    joinLines (splitItemLines current lines) = joinLines (current :: lines.map bareLine) := by
  fun_induction splitItemLines current lines with
  | case1 => rfl
  | case2 current line more h ih =>
      rw [joinLines_cons_of_ne_nil _ (splitItemLines_ne_nil _ _), ih, List.map_cons,
        joinLines_cons_of_ne_nil current (List.cons_ne_nil _ _), bareLine, if_pos h]
  | case3 current line more h ih =>
      rw [ih, Text.joinLines_continued, List.map_cons, bareLine, if_neg h]

/-! ### Groups of lines -/

/-- The lines up to the next mark are a group of their own. -/
theorem splitBy_goesOn {own : List (List Char)} (h : ∀ line ∈ own, isItemLine line = false)
    (first : List Char) {rest : List (List Char)}
    (hrest : ∀ line ∈ rest.head?, isItemLine line = true) :
    (first :: own ++ rest).splitBy goesOn = (first :: own) :: rest.splitBy goesOn := by
  have hchain : (first :: own).IsChain (fun line next => goesOn line next = true) := by
    induction own generalizing first with
    | nil => exact .singleton _
    | cons line more ih =>
        obtain ⟨hline, hmore⟩ := List.forall_mem_cons.1 h
        exact .cons_cons (by simp [goesOn, hline]) (ih hmore line)
  rw [List.splitBy_append, List.splitBy_of_isChain (List.cons_ne_nil _ _) hchain,
    List.singleton_append]
  intro last _ line hline
  simp [goesOn, hrest line hline]

/-- Lines up to the next mark, and the lines from there on. -/
theorem exists_own_lines (lines : List (List Char)) : ∃ own rest, lines = own ++ rest ∧
    (∀ line ∈ own, isItemLine line = false) ∧ (∀ line ∈ rest.head?, isItemLine line = true) := by
  refine ⟨lines.takeWhile (!isItemLine ·), lines.dropWhile (!isItemLine ·),
    List.takeWhile_append_dropWhile.symm, fun line hline => ?_, fun line hline => ?_⟩
  · simpa using List.all_eq_true.1 (List.all_takeWhile (p := (!isItemLine ·))) line hline
  · have hhead := List.head?_dropWhile_not (!isItemLine ·) lines
    rw [Option.mem_def.1 hline] at hhead
    simpa using hhead

/-- The lines of an item that starts with a mark, and the items after it. -/
theorem splitItemLines_marked (line : List Char) (more : List (List Char)) :
    splitItemLines (stripMarkers .bullets line) more =
      ((line :: more).splitBy goesOn).map unmarkedText := by
  -- the items after it start with marks too, and have fewer lines
  obtain ⟨own, rest, rfl, hown, hrest⟩ := exists_own_lines more
  rw [splitItemLines_continued hown, ← List.cons_append, splitBy_goesOn hown line hrest,
    List.map_cons]
  cases rest with
  | nil => rfl
  | cons next more =>
      rw [splitItemLines_item (hrest next rfl), splitItemLines_marked next more]
      rfl
termination_by more.length

/-- The texts of the items are those of the groups of lines. Only the first item has a line in front
that is taken as it stands. -/
theorem splitItemLines_eq (first : List Char) (later : List (List Char)) :
    ∃ own others, (first :: later).splitBy goesOn = own :: others ∧
      splitItemLines first later = joinLines own :: others.map unmarkedText := by
  obtain ⟨own, rest, rfl, hown, hrest⟩ := exists_own_lines later
  refine ⟨first :: own, rest.splitBy goesOn, splitBy_goesOn hown first hrest, ?_⟩
  rw [splitItemLines_continued hown]
  cases rest with
  | nil => rfl
  | cons next more => rw [splitItemLines_item (hrest next rfl), splitItemLines_marked]

/-! ### Items -/

namespace Node

theorem mapFirstText_of_none {node : Node} (h : node.firstText? = none) (f : String → String) :
    node.mapFirstText f = node := by
  fun_cases mapFirstText f node with
  | case1 => cases h
  | case2 => rfl

theorem exists_of_firstText {node : Node} {text : String} (h : node.firstText? = some text) :
    ∃ spread checked hint inner span inlines blocks, node = .branch (.listItem spread checked hint)
      (.branch (.container .paragraph inner span) (.text text :: inlines) :: blocks) := by
  fun_cases firstText? node with
  | case1 spread checked hint inner span value inlines blocks =>
      obtain rfl : value = text := Option.some.inj h
      exact ⟨spread, checked, hint, inner, span, inlines, blocks, rfl⟩
  | case2 node hnone =>
      rw [firstText?] at h
      · cases h
      · exact hnone

theorem firstText_mapFirstText (f : String → String) (node : Node) :
    (node.mapFirstText f).firstText? = node.firstText?.map f := by
  cases h : node.firstText? with
  | none =>
      rw [mapFirstText_of_none h, h]
      rfl
  | some text =>
      obtain ⟨spread, checked, hint, inner, span, inlines, blocks, rfl⟩ := exists_of_firstText h
      rfl

end Node

/-- An item that opens with no text is not split. -/
theorem splitItem_of_none {item : Node} (h : item.firstText? = none) : splitItem item = [item] := by
  simp [splitItem, h]

/-- The item itself keeps the first of the texts that its lines make up, and each other text makes an
item. -/
theorem splitItem_of_lines {item : Node} {text : String} (h : item.firstText? = some text)
    {first : List Char} {later : List (List Char)} (hl : splitLines text.toList = first :: later) :
    ∃ own others, splitItemLines first later = own :: others ∧
      splitItem item = item.mapFirstText (fun _ => String.ofList own) ::
        others.map (fun text => .itemOfText (String.ofList text)) := by
  obtain ⟨own, others, hitems⟩ := List.exists_cons_of_ne_nil (splitItemLines_ne_nil first later)
  exact ⟨own, others, hitems, by simp only [splitItem, h, hl, hitems]⟩

theorem exists_splitItem (item : Node) : ∃ (f : String → String) (others : List (List Char)),
    splitItem item = item.mapFirstText f ::
      others.map (fun text => .itemOfText (String.ofList text)) := by
  cases h : item.firstText? with
  | none =>
      refine ⟨id, [], ?_⟩
      rw [splitItem_of_none h, Node.mapFirstText_of_none h, List.map_nil]
  | some text =>
      obtain ⟨first, later, hl⟩ := List.exists_cons_of_ne_nil (Text.splitLines_ne_nil text.toList)
      obtain ⟨own, others, -, hsplit⟩ := splitItem_of_lines h hl
      exact ⟨_, others, hsplit⟩

/-- The items that an item is split into have the texts that its lines make up. -/
theorem firstText_splitItem {item : Node} {text : String} (h : item.firstText? = some text)
    {first : List Char} {later : List (List Char)} (hl : splitLines text.toList = first :: later) :
    (splitItem item).map Node.firstText? =
      (splitItemLines first later).map (fun lines => some (String.ofList lines)) := by
  obtain ⟨own, others, hitems, hsplit⟩ := splitItem_of_lines h hl
  rw [hsplit, hitems, List.map_cons, List.map_cons, Node.firstText_mapFirstText, h, List.map_map]
  rfl

/-- An item is split into one item more than there are marks at its later lines. Their texts, read in
order, say all that its lines say, the bullets of the marked lines apart; and each line belongs to the
item of the last mark before it. -/
theorem splitItem_keeps_lines {item : Node} {text : String} (h : item.firstText? = some text)
    {first : List Char} {later : List (List Char)} (hl : splitLines text.toList = first :: later) :
    ∃ texts : List (List Char),
      (splitItem item).map Node.firstText? = texts.map (fun lines => some (String.ofList lines)) ∧
      (splitItem item).length = 1 + later.countP isItemLine ∧
      joinLines texts = joinLines (first :: later.map bareLine) ∧
      ∃ own others, (first :: later).splitBy goesOn = own :: others ∧
        texts = joinLines own :: others.map unmarkedText := by
  have htexts := firstText_splitItem h hl
  have hlength : (splitItem item).length = (splitItemLines first later).length := by
    simpa using congrArg List.length htexts
  refine ⟨splitItemLines first later, htexts, ?_, joinLines_splitItemLines first later,
    splitItemLines_eq first later⟩
  rw [hlength, length_splitItemLines]

/-- An indented bullet starts an item, an indented number does not; blank lines stay. -/
theorem splitItem_keeps_lines_of_mixed_lines :
    (Node.itemOfText "a\n  - b\nmore\n\n2. c\n 3. d").firstText? =
        some "a\n  - b\nmore\n\n2. c\n 3. d" ∧
      splitLines "a\n  - b\nmore\n\n2. c\n 3. d".toList =
        ["a".toList, "  - b".toList, "more".toList, [], "2. c".toList, " 3. d".toList] ∧
      (splitItem (.itemOfText "a\n  - b\nmore\n\n2. c\n 3. d")).map Node.firstText? =
        [some "a", some "b\nmore\n", some "2. c\n 3. d"] := by
  have htext : (Node.itemOfText "a\n  - b\nmore\n\n2. c\n 3. d").firstText? =
      some "a\n  - b\nmore\n\n2. c\n 3. d" := rfl
  have hlines : splitLines "a\n  - b\nmore\n\n2. c\n 3. d".toList =
      ["a".toList, "  - b".toList, "more".toList, [], "2. c".toList, " 3. d".toList] := by
    decide +kernel
  have hgroups : (["a".toList, "  - b".toList, "more".toList, [], "2. c".toList, " 3. d".toList] :
      List (List Char)).splitBy goesOn =
        [["a".toList], ["  - b".toList, "more".toList, []], ["2. c".toList, " 3. d".toList]] := by
    decide +kernel
  obtain ⟨texts, htexts, -, -, own, others, hsplit, rfl⟩ := splitItem_keeps_lines htext hlines
  rw [hgroups] at hsplit
  cases hsplit
  exact ⟨htext, hlines, htexts.trans (by decide +kernel)⟩

end DefinitionLists
