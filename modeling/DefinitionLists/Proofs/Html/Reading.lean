/-
Module: DefinitionLists.Proofs.Html.Reading
Purpose: How HTML text is read as tags and text, and when its tags are nested. What pieces are written
  as is read as these pieces.
Main exports: Html.IsName, Html.Spells, Html.ReadsAs, Html.readsAs_write, Html.openAfter, Html.Nested,
  Html.WellBuilt
-/
import Mathlib.Data.List.Forall2
import DefinitionLists.Node.Html

namespace DefinitionLists.Html

/-! ### Reading -/

/-- Whether a string is a name: letters and digits of ASCII, and at least one. -/
def IsName (name : String) : Prop := name ≠ "" ∧ ∀ c ∈ name.toList, c.isAlphanum = true

-- The characters are checked one after the other: the instance for all characters there are is found
-- first, and it does not compute.
instance (name : String) : Decidable (IsName name) :=
  have : Decidable (∀ c ∈ name.toList, c.isAlphanum = true) :=
    List.decidableBAll (·.isAlphanum = true) name.toList
  inferInstanceAs (Decidable (name ≠ "" ∧ ∀ c ∈ name.toList, c.isAlphanum = true))

/-- The characters of markup with the references that stand for them. -/
def references : List (Char × List Char) :=
  [('&', "&amp;".toList), ('<', "&lt;".toList), ('>', "&gt;".toList), ('"', "&quot;".toList)]

/-- How a text may be written: each character as it is or as a reference. No ampersand and no angle
bracket is written as it is, and between quotes no quote. -/
inductive Spells (quoted : Bool) : List Char → List Char → Prop where
  | nil : Spells quoted [] []
  | char {c : Char} {written value : List Char} (hmarkup : c ∉ ['&', '<', '>'])
      (hquote : quoted = true → c ≠ '"') (hmore : Spells quoted written value) :
      Spells quoted (c :: written) (c :: value)
  | reference {c : Char} {reference written value : List Char} (h : (c, reference) ∈ references)
      (hmore : Spells quoted written value) : Spells quoted (reference ++ written) (c :: value)

/-- How an attribute may be written: after a space its name, and its value between quotes. -/
inductive Attribute.ReadsAs : List Char → Attribute → Prop where
  | bare {name : String} (hname : IsName name) : ReadsAs (' ' :: name.toList) ⟨name, none⟩
  | valued {name value : String} {written : List Char} (hname : IsName name)
      (hvalue : Spells true written value.toList) :
      ReadsAs (' ' :: name.toList ++ ('=' :: '"' :: written ++ ['"'])) ⟨name, some value⟩

/-- How pieces may be written. There is no way to write HTML of somebody else. -/
inductive ReadsAs : List Char → List Piece → Prop where
  | nil : ReadsAs [] []
  | text {written rest : List Char} {value : String} {pieces : List Piece}
      (hvalue : Spells false written value.toList) (hmore : ReadsAs rest pieces) :
      ReadsAs (written ++ rest) (.text value :: pieces)
  | openTag {name : String} {written : List (List Char)} {attributes : List Attribute}
      {rest : List Char} {pieces : List Piece} (hname : IsName name)
      (hattributes : List.Forall₂ Attribute.ReadsAs written attributes)
      (hmore : ReadsAs rest pieces) :
      ReadsAs ('<' :: name.toList ++ written.flatten ++ '>' :: rest)
        (.openTag name attributes :: pieces)
  | closeTag {name : String} {rest : List Char} {pieces : List Piece} (hname : IsName name)
      (hmore : ReadsAs rest pieces) :
      ReadsAs ('<' :: '/' :: name.toList ++ '>' :: rest) (.closeTag name :: pieces)

/-- Escaping writes a text so that it reads as itself, also between quotes. -/
theorem spells_escaped (quoted : Bool) (value : String) :
    Spells quoted (escaped value) value.toList := by
  rw [escaped]
  induction value.toList with
  | nil => exact .nil
  | cons c rest ih =>
      rw [List.flatMap_cons]
      unfold escape
      split
      · exact .reference (by decide) ih
      · exact .reference (by decide) ih
      · exact .reference (by decide) ih
      · exact .reference (by decide) ih
      · next hamp hlt hgt hquote =>
          have hmarkup : c ∉ ['&', '<', '>'] := by simpa using ⟨hamp, hlt, hgt⟩
          exact .char hmarkup (fun _ => hquote) ih

/-- An attribute is written so that it reads as itself: its value is escaped for quotes. -/
theorem Attribute.readsAs_write {self : Attribute} (h : IsName self.name) :
    self.ReadsAs self.write := by
  obtain ⟨name, value⟩ := self
  cases value with
  | none => simpa [Attribute.write] using Attribute.ReadsAs.bare h
  | some value => exact .valued h (spells_escaped true value)

/-- Whether the names in a piece are names, and it is no HTML of somebody else. -/
def Piece.IsLegible : Piece → Prop
  | .openTag name attributes => IsName name ∧ ∀ given ∈ attributes, IsName given.name
  | .closeTag name => IsName name
  | .text _ => True
  | .raw _ => False

theorem write_cons (piece : Piece) (more : List Piece) :
    write (piece :: more) = piece.write ++ write more := rfl

theorem write_append (first second : List Piece) :
    write (first ++ second) = write first ++ write second :=
  List.flatMap_append

/-- Pieces are written so that they read as themselves. -/
theorem readsAs_write {pieces : List Piece} (h : ∀ piece ∈ pieces, piece.IsLegible) :
    ReadsAs (write pieces) pieces := by
  induction pieces with
  | nil => exact .nil
  | cons piece more ih =>
      obtain ⟨hpiece, hmore⟩ := List.forall_mem_cons.1 h
      rw [write_cons]
      cases piece with
      | openTag name attributes =>
          obtain ⟨hname, hattributes⟩ := hpiece
          have hwritten : List.Forall₂ Attribute.ReadsAs (attributes.map Attribute.write) attributes := by
            rw [List.forall₂_map_left_iff, List.forall₂_same]
            exact fun given hg => Attribute.readsAs_write (hattributes given hg)
          have hread := ReadsAs.openTag hname hwritten (ih hmore)
          simpa [Piece.write, List.flatMap_def] using hread
      | closeTag name => simpa [Piece.write] using ReadsAs.closeTag hpiece (ih hmore)
      | text value => exact .text (spells_escaped false value) (ih hmore)
      | raw value => exact hpiece.elim

/-! ### Nesting -/

/-- The elements that have no content and no closing tag. -/
def voidElements : List String := ["hr", "br", "img", "input"]

/-- The elements that are open after a piece, the innermost one first. Nothing but the innermost one can
be closed. -/
def openAfter (opened : List String) : Piece → Option (List String)
  | .openTag name _ => if name ∈ voidElements then some opened else some (name :: opened)
  | .closeTag name =>
    match opened with
    | innermost :: outer => if name = innermost then some outer else none
    | [] => none
  | .text _ | .raw _ => some opened

/-- Whether each tag that opens an element is closed by one of the same name, in nested order. -/
def Nested (pieces : List Piece) : Prop := pieces.foldlM openAfter [] = some []

instance (pieces : List Piece) : Decidable (Nested pieces) :=
  inferInstanceAs (Decidable (pieces.foldlM openAfter [] = some []))

/-- Whether pieces are legible and leave open what was open before them. -/
structure WellBuilt (pieces : List Piece) : Prop where
  legible : ∀ piece ∈ pieces, piece.IsLegible
  balanced : ∀ opened, pieces.foldlM openAfter opened = some opened

namespace WellBuilt

variable {first second content : List Piece}

theorem nil : WellBuilt [] := ⟨by simp, fun _ => rfl⟩

/-- What the first pieces open they close, so that the others start where they did. -/
theorem append (hf : WellBuilt first) (hs : WellBuilt second) : WellBuilt (first ++ second) := by
  refine ⟨fun piece hp => ?_, fun opened => ?_⟩
  · rcases List.mem_append.1 hp with hp | hp
    · exact hf.legible piece hp
    · exact hs.legible piece hp
  · rw [List.foldlM_append, hf.balanced]
    exact hs.balanced opened

theorem text (value : String) : WellBuilt [.text value] :=
  ⟨by simp [Piece.IsLegible], fun _ => rfl⟩

/-- An element that has no closing tag leaves nothing open. -/
theorem void {name : String} {attributes : List Attribute} (hname : IsName name)
    (hvoid : name ∈ voidElements) (ha : ∀ given ∈ attributes, IsName given.name) :
    WellBuilt [.openTag name attributes] := by
  refine ⟨?_, fun opened => ?_⟩
  · rw [List.forall_mem_singleton]
    exact ⟨hname, ha⟩
  · simp [openAfter, hvoid]

/-- An element opens, has its content, and closes. -/
theorem element {name : String} {attributes : List Attribute} (hname : IsName name)
    (hvoid : name ∉ voidElements) (ha : ∀ given ∈ attributes, IsName given.name)
    (hc : WellBuilt content) : WellBuilt (Html.element name attributes content) := by
  refine ⟨fun piece hp => ?_, fun opened => ?_⟩
  · rw [Html.element, List.mem_append, List.mem_cons, List.mem_singleton] at hp
    rcases hp with (rfl | hp) | rfl
    · exact ⟨hname, ha⟩
    · exact hc.legible piece hp
    · exact hname
  · have hopen : openAfter opened (.openTag name attributes) = some (name :: opened) := by
      simp [openAfter, hvoid]
    have hclose : openAfter (name :: opened) (.closeTag name) = some opened := by
      simp [openAfter]
    rw [Html.element, List.cons_append, List.foldlM_cons, hopen]
    simp only [Option.bind_eq_bind, Option.bind_some, List.foldlM_append, hc.balanced,
      List.foldlM_cons, hclose, List.foldlM_nil]
    rfl

end WellBuilt

end DefinitionLists.Html
