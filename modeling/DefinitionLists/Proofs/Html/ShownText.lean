/-
Module: DefinitionLists.Proofs.Html.ShownText
Purpose: The text that the HTML of a tree shows, and when it is the plain text of the tree.
Main exports: Html.deleteTags, Html.decode, Html.readText, Html.readText_write, Html.Shows,
  Node.shows_render, Node.KeepsText, Node.RepeatsValue, Node.keepsText_iff
-/
import DefinitionLists.Proofs.Html.Composition
import DefinitionLists.Proofs.Words

namespace DefinitionLists

open Text (solid solid_append)

namespace Html

/-! ### The text of HTML -/

/-- HTML without its tags, each from its angle bracket to the next closing one. `inTag` tells whether
the HTML starts within a tag. -/
def deleteTags (inTag : Bool) : List Char → List Char
  | [] => []
  | c :: rest =>
    if inTag then deleteTags (c != '>') rest
    else if c = '<' then deleteTags true rest
    else c :: deleteTags false rest

/-- A text with the characters of markup in place of their references. -/
def decode : List Char → List Char
  | '&' :: 'a' :: 'm' :: 'p' :: ';' :: rest => '&' :: decode rest
  | '&' :: 'l' :: 't' :: ';' :: rest => '<' :: decode rest
  | '&' :: 'g' :: 't' :: ';' :: rest => '>' :: decode rest
  | '&' :: 'q' :: 'u' :: 'o' :: 't' :: ';' :: rest => '"' :: decode rest
  | c :: rest => c :: decode rest
  | [] => []

/-- The text that HTML shows. -/
def readText (html : List Char) : List Char := decode (deleteTags false html)

/-- A character that was escaped is the only one that its reference is read as. -/
theorem decode_escape (c : Char) (rest : List Char) : decode (escape c ++ rest) = c :: decode rest := by
  unfold escape
  split
  · rfl
  · rfl
  · rfl
  · rfl
  · next hamp _ _ _ =>
      rw [List.singleton_append]
      exact decode.eq_5 c rest (fun _ h _ => hamp h) (fun _ h _ => hamp h) (fun _ h _ => hamp h)
        (fun _ h _ => hamp h)

theorem decode_flatMap_escape (text : List Char) : decode (text.flatMap escape) = text := by
  induction text with
  | nil => rfl
  | cons c rest ih => rw [List.flatMap_cons, decode_escape, ih]

/-- No angle bracket is written as it is. -/
theorem not_mem_escape {c : Char} (h : c = '<' ∨ c = '>') (d : Char) : c ∉ escape d := by
  unfold escape
  split
  · rcases h with rfl | rfl <;> decide
  · rcases h with rfl | rfl <;> decide
  · rcases h with rfl | rfl <;> decide
  · rcases h with rfl | rfl <;> decide
  · next hlt hgt _ =>
      rw [List.mem_singleton]
      rintro rfl
      exact h.elim hlt hgt

theorem not_mem_escaped {c : Char} (h : c = '<' ∨ c = '>') (value : String) : c ∉ escaped value := by
  intro hc
  obtain ⟨d, -, hd⟩ := List.mem_flatMap.1 hc
  exact not_mem_escape h d hd

/-- Outside of tags only an angle bracket begins one. -/
theorem deleteTags_append_of_not_mem {text : List Char} (h : '<' ∉ text) (rest : List Char) :
    deleteTags false (text ++ rest) = text ++ deleteTags false rest := by
  induction text with
  | nil => rfl
  | cons c more ih =>
      obtain ⟨hc, hmore⟩ := List.ne_and_not_mem_of_not_mem_cons h
      rw [List.cons_append, deleteTags, if_neg (by simp), if_neg hc.symm, ih hmore]
      rfl

/-- A tag ends at its first closing bracket. -/
theorem deleteTags_tag {inner : List Char} (h : '>' ∉ inner) (rest : List Char) :
    deleteTags false ('<' :: inner ++ '>' :: rest) = deleteTags false rest := by
  have hinside : deleteTags true (inner ++ '>' :: rest) = deleteTags false rest := by
    induction inner with
    | nil => rfl
    | cons c more ih =>
        obtain ⟨hc, hmore⟩ := List.ne_and_not_mem_of_not_mem_cons h
        have hopen : (c != '>') = true := bne_iff_ne.2 hc.symm
        rw [List.cons_append, deleteTags, if_pos rfl, hopen, ih hmore]
  rw [List.cons_append, deleteTags, if_neg (by simp), if_pos rfl, hinside]

theorem IsName.not_mem {name : String} (h : IsName name) : '>' ∉ name.toList := fun hc =>
  absurd (h.2 '>' hc) (by decide)

/-- An attribute does not end the tag that it is in. -/
theorem Attribute.not_mem_write {self : Attribute} (h : IsName self.name) : '>' ∉ self.write := by
  obtain ⟨name, value⟩ := self
  have hname : '>' ∉ name.toList := h.not_mem
  cases value with
  | none => simp [Attribute.write, hname]
  | some value => simp [Attribute.write, hname, not_mem_escaped (.inr rfl) value]

/-- What a piece adds to the text that is shown. -/
def Piece.shownText : Piece → List Char
  | .text value => value.toList
  | _ => []

/-- Deleting the tags of what is written leaves the texts, as they are written. -/
theorem deleteTags_write {pieces : List Piece} (h : ∀ piece ∈ pieces, piece.IsLegible) :
    deleteTags false (write pieces) = (pieces.flatMap Piece.shownText).flatMap escape := by
  induction pieces with
  | nil => rfl
  | cons piece more ih =>
      obtain ⟨hpiece, hmore⟩ := List.forall_mem_cons.1 h
      rw [write_cons, List.flatMap_cons, List.flatMap_append, ← ih hmore]
      cases piece with
      | openTag name attributes =>
          obtain ⟨hname, hattributes⟩ := hpiece
          have hinner : '>' ∉ name.toList ++ attributes.flatMap Attribute.write := by
            simp only [List.mem_append, List.mem_flatMap, not_or, not_exists, not_and]
            exact ⟨hname.not_mem, fun given hg => Attribute.not_mem_write (hattributes given hg)⟩
          simpa [Piece.write, Piece.shownText] using deleteTags_tag hinner (write more)
      | closeTag name =>
          have hinner : '>' ∉ '/' :: name.toList := by simpa using hpiece.not_mem
          simpa [Piece.write, Piece.shownText] using deleteTags_tag hinner (write more)
      | text value => exact deleteTags_append_of_not_mem (not_mem_escaped (.inl rfl) value) _
      | raw value => exact hpiece.elim

/-- What is written shows its texts and nothing else. -/
theorem readText_write {pieces : List Piece} (h : ∀ piece ∈ pieces, piece.IsLegible) :
    readText (write pieces) = pieces.flatMap Piece.shownText := by
  rw [readText, deleteTags_write h, decode_flatMap_escape]

/-! ### Texts up to blanks -/

/-- Whether pieces are legible, and their texts are a given text, blanks apart. -/
structure Shows (value : List Char) (pieces : List Piece) : Prop where
  legible : ∀ piece ∈ pieces, piece.IsLegible
  solid_eq : solid (pieces.flatMap Piece.shownText) = solid value

namespace Shows

variable {value more : List Char} {first second content : List Piece}

theorem nil : Shows [] [] := ⟨by simp, rfl⟩

theorem append (hf : Shows value first) (hs : Shows more second) :
    Shows (value ++ more) (first ++ second) := by
  refine ⟨fun piece hp => ?_, ?_⟩
  · rcases List.mem_append.1 hp with hp | hp
    · exact hf.legible piece hp
    · exact hs.legible piece hp
  · rw [List.flatMap_append, solid_append, hf.solid_eq, hs.solid_eq, solid_append]

theorem text (value : String) : Shows value.toList [.text value] :=
  ⟨by simp [Piece.IsLegible], by simp [Piece.shownText]⟩

theorem blank {value : String} (h : value.toList.all Text.isBlank = true) : Shows [] [.text value] := by
  refine ⟨by simp [Piece.IsLegible], ?_⟩
  rw [List.flatMap_singleton]
  exact Text.solid_of_blank (List.all_eq_true.1 h)

/-- A tag without content shows no text. -/
theorem openTag {name : String} {attributes : List Attribute} (hname : IsName name)
    (ha : ∀ given ∈ attributes, IsName given.name) : Shows [] [.openTag name attributes] := by
  refine ⟨?_, rfl⟩
  rw [List.forall_mem_singleton]
  exact ⟨hname, ha⟩

theorem closeTag {name : String} (hname : IsName name) : Shows [] [.closeTag name] := by
  refine ⟨?_, rfl⟩
  rw [List.forall_mem_singleton]
  exact hname

/-- An element shows its content. -/
theorem element {name : String} {attributes : List Attribute} (hname : IsName name)
    (ha : ∀ given ∈ attributes, IsName given.name) (hc : Shows value content) :
    Shows value (Html.element name attributes content) := by
  simpa [Html.element] using (openTag hname ha).append (hc.append (closeTag hname))

end Shows

/-- Only texts show anything, so that what is shown is composed from the parts. -/
theorem compositional_shows : Compositional IsName Shows where
  usual h := h.1
  nil := .nil
  append := .append
  text := .text
  blank := .blank
  void hname _ := .openTag hname
  element := .element

end Html

open Html

namespace Node

/-! ### The text of trees -/

/-- Whether the node is neither HTML nor an image, and its hint, if it has one, is a name. -/
def IsTextual (node : Node) : Prop :=
  (∀ value, node ≠ .leaf (.html value)) ∧ (∀ url title alt, node ≠ .leaf (.image url title alt)) ∧
    ∀ name ∈ node.hint, IsName name

theorem shows_leafMarkup {content : Leaf} (h : (leaf content).IsTextual) :
    Shows (leafText content).toList (leafMarkup content) :=
  compositional_shows.leafMarkup (fun value heq => h.1 value (congrArg leaf heq))
    fun url title alt heq => h.2.1 url title alt (congrArg leaf heq)

/-- What a tree is rendered as shows its text. -/
theorem shows_render (tight : Bool) {node : Node} (h : ∀ inner ∈ node.preorder, inner.IsTextual) :
    Shows node.shownText (render tight node) := by
  refine compositional_shows.render tight fun inner hinner => ⟨?_, (h inner hinner).2.2⟩
  rintro content rfl
  exact shows_leafMarkup (h _ hinner)

/-- The HTML of a tree shows its text. -/
theorem solid_readText_toHtml {tree : Node} (h : ∀ node ∈ tree.preorder, node.IsTextual) :
    solid (readText tree.toHtml.toList) = solid tree.shownText := by
  have hshows : Shows tree.shownText tree.markup := shows_render false h
  obtain ⟨ending, hending, hwritten⟩ := exists_toHtml_eq_write tree
  have hblank : Shows [] ending := by
    rcases hending with rfl | rfl
    · exact .nil
    · exact compositional_shows.newLine
  have hended := hshows.append hblank
  rw [List.append_nil] at hended
  rw [hwritten, readText_write hended.legible]
  exact hended.solid_eq

/-! ### Plain text -/

/-- Whether the HTML of a tree shows its plain text, blanks apart. -/
def KeepsText (tree : Node) : Prop :=
  solid (readText tree.toHtml.toList) = solid tree.plainText.toList

/-- Whether an unknown node whose value is not shown has the same text in its children, blanks apart. -/
def RepeatsValue (node : Node) : Prop :=
  ∀ tag value hint children, node = .branch (.other tag (some value) hint) children →
    hint.isSome = true ∨ children ≠ [] → solid (plainTexts children).toList = solid value.toList

/-- Only an unknown node with a value can hide one. -/
theorem repeatsValue_branch_of_ne {head : Branch}
    (h : ∀ tag value hint, head ≠ .other tag (some value) hint) (children : List Node) :
    (branch head children).RepeatsValue := by
  intro tag value hint children' heq
  exact absurd (Node.branch.inj heq).1 (h tag value hint)

theorem repeatsValue_other_iff {tag value : String} {hint : Option String} {children : List Node} :
    (branch (.other tag (some value) hint) children).RepeatsValue ↔
      (hint.isSome = true ∨ children ≠ [] →
        solid (plainTexts children).toList = solid value.toList) := by
  constructor
  · exact fun h => h tag value hint children rfl
  · rintro h _ _ _ _ heq
    cases heq
    exact h

theorem solid_shownTexts {nodes : List Node}
    (h : ∀ node ∈ nodes, solid node.shownText = solid node.plainText.toList) :
    solid (shownTexts nodes) = solid (plainTexts nodes).toList := by
  induction nodes with
  | nil => rfl
  | cons node more ih =>
      obtain ⟨hnode, hmore⟩ := List.forall_mem_cons.1 h
      rw [shownTexts, plainTexts, String.toList_append, solid_append, solid_append, hnode, ih hmore]

/-- A node whose children show their plain text shows its own unless that is a value which it hides. -/
theorem solid_shownText_branch_iff {head : Branch} {children : List Node}
    (h : ∀ child ∈ children, solid child.shownText = solid child.plainText.toList) :
    solid (branch head children).shownText = solid (branch head children).plainText.toList ↔
      (branch head children).RepeatsValue := by
  have hchildren := solid_shownTexts h
  cases head with
  | other tag value hint =>
      rw [shownText]
      cases value with
      | none =>
          refine iff_of_true ?_ (repeatsValue_branch_of_ne (by simp) children)
          rw [show (branch (.other tag none hint) children).plainText = plainTexts children by
            simp [plainText]]
          split
          · next hbare =>
              obtain ⟨-, hempty⟩ := (Bool.and_eq_true _ _).mp hbare
              rw [List.isEmpty_iff.1 hempty]
              rfl
          · exact hchildren
      | some value =>
          -- the plain text is the value, and what is shown is the value or the children
          rw [repeatsValue_other_iff, plainText]
          split
          · next hbare =>
              obtain ⟨hhint, hempty⟩ := (Bool.and_eq_true _ _).mp hbare
              exact iff_of_true rfl (by simp_all)
          · next hhidden =>
              have hhidden : hint.isSome = true ∨ children ≠ [] := by
                cases hint with
                | none => exact .inr (by simpa using hhidden)
                | some name => exact .inl rfl
              rw [hchildren]
              exact ⟨fun heq _ => heq, fun heq => heq hhidden⟩
  | _ =>
      refine iff_of_true ?_ (repeatsValue_branch_of_ne (by simp) children)
      simpa [shownText, plainText] using hchildren

/-- A tree and all below it show their plain text if and only if no node below hides a value. -/
theorem forall_solid_shownText_iff (tree : Node) :
    (∀ node ∈ tree.preorder, solid node.shownText = solid node.plainText.toList) ↔
      ∀ node ∈ tree.preorder, node.RepeatsValue := by
  cases tree with
  | leaf content =>
      have hleaf : solid (leaf content).shownText = solid (leaf content).plainText.toList := by
        rw [shownText, plainText]
      have hrepeats : (leaf content).RepeatsValue := fun _ _ _ _ heq => by cases heq
      simpa [preorder] using iff_of_true hleaf hrepeats
  | branch head children =>
      have hbelow : (∀ child ∈ children, ∀ node ∈ child.preorder,
            solid node.shownText = solid node.plainText.toList) ↔
          ∀ child ∈ children, ∀ node ∈ child.preorder, node.RepeatsValue := by
        refine forall₂_congr fun child hchild => ?_
        have hsize := size_lt_of_mem head hchild
        exact forall_solid_shownText_iff child
      rw [forall_mem_preorder_branch, forall_mem_preorder_branch, ← hbelow]
      refine and_congr_left fun hplain => solid_shownText_branch_iff fun child hchild => ?_
      exact hplain child hchild child (mem_preorder_self child)
termination_by tree.size

/-- The HTML of a tree without HTML and images of its own, whose hints are names, shows once its tags are
deleted and its references decoded the texts of the tree in order, and nothing else, blanks apart. These
are the plain text of the tree and of every node in it if and only if no unknown node has a value that is
not shown, for a hint or for children of its own, and that its children do not repeat. -/
theorem keepsText_iff {tree : Node}
    (hhtml : ∀ node ∈ tree.preorder, ∀ value, node ≠ .leaf (.html value))
    (himage : ∀ node ∈ tree.preorder, ∀ url title alt, node ≠ .leaf (.image url title alt))
    (hhints : ∀ node ∈ tree.preorder, ∀ name ∈ node.hint, IsName name) :
    solid (readText tree.toHtml.toList) = solid tree.shownText ∧
      ((∀ node ∈ tree.preorder, node.KeepsText) ↔ ∀ node ∈ tree.preorder, node.RepeatsValue) := by
  have htextual : ∀ node ∈ tree.preorder, node.IsTextual := fun node hnode =>
    ⟨hhtml node hnode, himage node hnode, hhints node hnode⟩
  refine ⟨solid_readText_toHtml htextual, ?_⟩
  rw [← forall_solid_shownText_iff]
  refine forall₂_congr fun node hnode => ?_
  have hshown := solid_readText_toHtml fun inner hinner => htextual inner (mem_preorder_trans hnode hinner)
  rw [KeepsText, hshown]

/-- A definition list with markup in its texts, a task item and code, and unknown nodes of three kinds:
with a value alone, with a hint and children, and with a value that its children repeat. -/
def describedTree : Node :=
  .plain .root [
    .descriptionList [
      .descriptionTerm [.text "a < b & \"c\""],
      .descriptionDetails [.branch (.list true (some 3) false none)
        [.branch (.listItem false (some true) none) [.paragraph [.text "&lt;", .lineBreak, .text "d"]]]]],
    .leaf (.code (some "\">") "<e>"),
    .branch (.other "math" (some "f > g") none) [],
    .branch (.other "note" none (some "aside")) [.paragraph [.branch (.link "u" (some ">")) [.text "h"]]],
    .branch (.other "mark" (some "i j") (some "mark")) [.text "i", .lineBreak, .plain .strong [.text "j"]]]

theorem keepsText_iff_describedTree :
    (∀ node ∈ describedTree.preorder, ∀ value, node ≠ .leaf (.html value)) ∧
      (∀ node ∈ describedTree.preorder, ∀ url title alt, node ≠ .leaf (.image url title alt)) ∧
      (∀ node ∈ describedTree.preorder, ∀ name ∈ node.hint, IsName name) ∧
      solid (readText describedTree.toHtml.toList) = solid describedTree.shownText ∧
      ((∀ node ∈ describedTree.preorder, node.KeepsText) ↔
        ∀ node ∈ describedTree.preorder, node.RepeatsValue) := by
  have hhtml : ∀ node ∈ describedTree.preorder, ∀ value, node ≠ .leaf (.html value) := by
    rintro node hnode value rfl
    simp [describedTree, plain, paragraph, descriptionList, descriptionTerm, descriptionDetails, preorder,
      preorderList] at hnode
  have himage : ∀ node ∈ describedTree.preorder, ∀ url title alt,
      node ≠ .leaf (.image url title alt) := by
    rintro node hnode url title alt rfl
    simp [describedTree, plain, paragraph, descriptionList, descriptionTerm, descriptionDetails, preorder,
      preorderList] at hnode
  have hhints : ∀ node ∈ describedTree.preorder, ∀ name ∈ node.hint, IsName name := by decide +kernel
  exact ⟨hhtml, himage, hhints, keepsText_iff hhtml himage hhints⟩

/-- A formula that is to be shown as a `span`. -/
def hintedFormula : Node :=
  .plain .root [.branch (.other "math" (some "x") (some "span")) []]

/-- It does not hold for all trees of this kind that their HTML shows their plain text: of a formula with a
hint only the tags are shown. -/
theorem not_forall_keepsText :
    hintedFormula.toHtml = "<span></span>\n" ∧ hintedFormula.plainText = "x" ∧
      ¬ ∀ tree : Node, (∀ node ∈ tree.preorder, node.IsTextual) → tree.KeepsText := by
  have hhtml : hintedFormula.toHtml = "<span></span>\n" := by decide +kernel
  have hplain : hintedFormula.plainText = "x" := by decide +kernel
  refine ⟨hhtml, hplain, fun h => ?_⟩
  have htextual : ∀ node ∈ hintedFormula.preorder, node.IsTextual := by
    intro node hnode
    have hcases : node = hintedFormula ∨ node = .branch (.other "math" (some "x") (some "span")) [] := by
      simpa [hintedFormula, plain, preorder, preorderList] using hnode
    rcases hcases with rfl | rfl
    · exact ⟨by simp [hintedFormula, plain], by simp [hintedFormula, plain], by decide⟩
    · exact ⟨by simp, by simp, by decide⟩
  have hkeeps := h hintedFormula htextual
  rw [KeepsText, hhtml, hplain] at hkeeps
  exact absurd hkeeps (by decide)

end Node

end DefinitionLists
