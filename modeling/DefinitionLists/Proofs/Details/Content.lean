/-
Module: DefinitionLists.Proofs.Details.Content
Purpose: What gathering keeps of the content of a tree: its texts lose bullets and blanks and nothing
  else, and all other leaves stay, in their order.
Main exports: isSubstance, Thinned, thinned_stripMarkers, thinned_splitItemLines, Node.leaves,
  KeepsContent, Gathers.keepsContent, gatherDetails_keeps_content
-/
import DefinitionLists.Proofs.Details.Gathering

namespace DefinitionLists

open Text (isBlank joinLines joinLines_cons_of_ne_nil joinLines_splitLines splitLines trimStart)

/-- A character that is neither a blank nor a bullet. -/
def isSubstance (c : Char) : Bool := !isBlank c && !(c == '-' || c == '+' || c == '*')

/-- The second text is the first one, in any order, without some of its blanks and bullets. -/
structure Thinned (text rest : List Char) : Prop where
  fewer : ∀ c, rest.count c ≤ text.count c
  same : ∀ c, isSubstance c = true → rest.count c = text.count c

namespace Thinned

variable {text rest : List Char}

theorem refl (text : List Char) : Thinned text text := ⟨fun _ => le_rfl, fun _ _ => rfl⟩

theorem trans {last : List Char} (h : Thinned text rest) (h' : Thinned rest last) :
    Thinned text last :=
  ⟨fun c => (h'.fewer c).trans (h.fewer c), fun c hc => (h'.same c hc).trans (h.same c hc)⟩

theorem append {text' rest' : List Char} (h : Thinned text rest) (h' : Thinned text' rest') :
    Thinned (text ++ text') (rest ++ rest') := by
  constructor
  · intro c
    rw [List.count_append, List.count_append]
    exact Nat.add_le_add (h.fewer c) (h'.fewer c)
  · intro c hc
    rw [List.count_append, List.count_append, h.same c hc, h'.same c hc]

/-- Text in another order lost nothing. -/
theorem of_perm (h : text.Perm rest) : Thinned text rest :=
  ⟨fun c => (h.count_eq c).ge, fun c _ => (h.count_eq c).symm⟩

/-- Blanks and bullets in front may go. -/
theorem of_front {front : List Char} (h : ∀ c ∈ front, isSubstance c = false) (rest : List Char) :
    Thinned (front ++ rest) rest := by
  constructor
  · intro c
    rw [List.count_append]
    exact Nat.le_add_left _ _
  · intro c hc
    have hnone : front.count c = 0 := by
      refine List.count_eq_zero.2 fun hmem => ?_
      rw [h c hmem] at hc
      cases hc
    rw [List.count_append, hnone, Nat.zero_add]

end Thinned

/-! ### Marks -/

/-- A bullet is one character. -/
theorem Marker.eq_cons_of_bare {text rest : List Char} {c : Char} {size : Nat}
    (h : bare? text = some (.bullet c, size, rest)) :
    text = c :: rest ∧ (c = '-' ∨ c = '+' ∨ c = '*') := by
  fun_cases bare? text with
  | case1 => cases h
  | case2 first more hbullet =>
      rw [bare?, if_pos hbullet] at h
      cases h
      exact ⟨rfl, hbullet⟩
  | _ => simp_all [bare?]

/-- A bullet, the blanks before it and the blank after it. -/
theorem Marker.exists_front_of_match {text : List Char} {found : Match}
    (h : match? text = some found) (hset : MarkerSet.bullets.admits found.marker = true) :
    ∃ front, text = front ++ found.rest ∧ ∀ c ∈ front, isSubstance c = false := by
  unfold match? at h
  split at h
  · next marker size gap rest hbare =>
      split at h
      · next hgap =>
          obtain rfl := Option.some.inj h
          cases marker with
          | ordinal value => cases hset
          | bullet c =>
              obtain ⟨htext, hbullet⟩ := eq_cons_of_bare hbare
              -- the front is the indentation, the bullet and the gap; none of these is substance
              refine ⟨text.takeWhile isBlank ++ [c, gap], ?_, ?_⟩
              · rw [List.append_assoc, List.cons_append, List.singleton_append, ← htext, trimStart,
                  List.takeWhile_append_dropWhile]
              · intro d hd
                simp only [List.mem_append, List.mem_cons, List.not_mem_nil, or_false] at hd
                rcases hd with hd | rfl | rfl
                · have hblank := List.all_eq_true.1 List.all_takeWhile d hd
                  simp [isSubstance, hblank]
                · rcases hbullet with rfl | rfl | rfl <;> decide
                · simp [isSubstance, hgap]
      · cases h
  · cases h

/-- Taking bullets off a text takes blanks and bullets only. -/
theorem thinned_stripMarkers (text : List Char) : Thinned text (stripMarkers .bullets text) := by
  fun_induction stripMarkers .bullets text with
  | case1 text found h hset ih =>
      obtain ⟨front, htext, hfront⟩ := Marker.exists_front_of_match h hset
      rw [htext]
      exact (Thinned.of_front hfront _).trans ih
  | _ => exact .refl _

/-! ### Lines -/

theorem thinned_bareLine (line : List Char) : Thinned line (bareLine line) := by
  unfold bareLine
  split
  · exact thinned_stripMarkers line
  · exact .refl line

theorem thinned_joinLines_bareLine (first : List Char) (later : List (List Char)) :
    Thinned (joinLines (first :: later)) (joinLines (first :: later.map bareLine)) := by
  induction later generalizing first with
  | nil => exact .refl _
  | cons line more ih =>
      rw [List.map_cons, joinLines_cons_of_ne_nil first (List.cons_ne_nil _ _),
        joinLines_cons_of_ne_nil first (List.cons_ne_nil _ _)]
      have hline : Thinned (joinLines (line :: more.map bareLine))
          (joinLines (bareLine line :: more.map bareLine)) := by
        cases more with
        | nil => exact thinned_bareLine line
        | cons next more => exact (thinned_bareLine line).append (.refl _)
      exact (Thinned.refl first).append ((Thinned.refl ['\n']).append ((ih line).trans hline))

/-- The lines of a text have no line feeds of their own. -/
theorem thinned_flatten (lines : List (List Char)) : Thinned (joinLines lines) lines.flatten := by
  induction lines with
  | nil => exact .refl []
  | cons line more ih =>
      cases more with
      | nil =>
          rw [List.flatten_singleton]
          exact .refl line
      | cons next more =>
          rw [joinLines_cons_of_ne_nil line (List.cons_ne_nil _ _), List.flatten_cons]
          refine (Thinned.refl line).append (.trans ?_ ih)
          have hbreak : ∀ c ∈ ['\n'], isSubstance c = false := List.forall_mem_singleton.2 rfl
          exact .of_front hbreak _

/-- Nothing but bullets and blanks is lost of an item whose lines make up several. -/
theorem thinned_splitItemLines {text first : List Char} {later : List (List Char)}
    (hl : splitLines text = first :: later) :
    Thinned text (splitItemLines first later).flatten := by
  have hlines := thinned_joinLines_bareLine first later
  rw [← joinLines_splitItemLines, ← hl, joinLines_splitLines] at hlines
  exact hlines.trans (thinned_flatten _)

/-! ### Leaves -/

/-- The characters of a leaf of text. -/
def Leaf.letters : Leaf → List Char
  | .text value => value.toList
  | _ => []

/-- Whether a leaf is anything but text. -/
def Leaf.isAtom : Leaf → Bool
  | .text _ => false
  | _ => true

/-- The leaves below a node, or the node itself if it is one, in document order. -/
def Node.leaves (node : Node) : List Leaf :=
  node.preorder.filterMap fun
    | .leaf content => some content
    | .branch _ _ => none

namespace Node

@[simp] theorem leaves_leaf (content : Leaf) : (Node.leaf content).leaves = [content] := rfl

@[simp] theorem leaves_branch (head : Branch) (children : List Node) :
    (Node.branch head children).leaves = children.flatMap leaves := by
  rw [leaves, preorder, preorderList_eq_flatMap, List.filterMap_cons, List.filterMap_flatMap]
  rfl

@[simp] theorem leaves_itemOfText (value : String) : (itemOfText value).leaves = [.text value] := by
  simp [itemOfText, paragraph, plain]

@[simp] theorem leaves_bulletList (items : List Node) :
    (bulletList items).leaves = items.flatMap leaves :=
  leaves_branch _ items

end Node

/-- The second leaves have all that the first ones have, but for blanks and bullets in the texts. -/
structure KeepsContent (before after : List Leaf) : Prop where
  letters : Thinned (before.flatMap Leaf.letters) (after.flatMap Leaf.letters)
  atoms : after.filter Leaf.isAtom = before.filter Leaf.isAtom

namespace KeepsContent

variable {before after : List Leaf}

theorem refl (leaves : List Leaf) : KeepsContent leaves leaves := ⟨.refl _, rfl⟩

theorem trans {last : List Leaf} (h : KeepsContent before after) (h' : KeepsContent after last) :
    KeepsContent before last :=
  ⟨h.letters.trans h'.letters, h'.atoms.trans h.atoms⟩

theorem append {before' after' : List Leaf} (h : KeepsContent before after)
    (h' : KeepsContent before' after') : KeepsContent (before ++ before') (after ++ after') := by
  constructor
  · rw [List.flatMap_append, List.flatMap_append]
    exact h.letters.append h'.letters
  · rw [List.filter_append, List.filter_append, h.atoms, h'.atoms]

end KeepsContent

/-- A text with other leaves after it may become one text before these and others after them. -/
theorem keepsContent_of_texts {text own : List Char} {others : List (List Char)}
    (h : Thinned text (own :: others).flatten) (more : List Leaf) :
    KeepsContent (.text (String.ofList text) :: more)
      (.text (String.ofList own) :: more ++
        others.map (fun text => .text (String.ofList text))) := by
  have hletters : (others.map (fun text => Leaf.text (String.ofList text))).flatMap Leaf.letters =
      others.flatten := by
    simp [Leaf.letters, List.flatMap_map, List.flatMap_id']
  have hatoms : (others.map (fun text => Leaf.text (String.ofList text))).filter Leaf.isAtom = [] := by
    simp [Leaf.isAtom, List.filter_map]
  constructor
  · have hmoved : ((own ++ others.flatten) ++ more.flatMap Leaf.letters).Perm
        (own ++ (more.flatMap Leaf.letters ++ others.flatten)) := by
      rw [List.append_assoc]
      exact (List.perm_append_comm).append_left own
    have hall := (h.append (.refl (more.flatMap Leaf.letters))).trans (.of_perm hmoved)
    simpa [hletters, Leaf.letters] using hall
  · rw [List.filter_append, hatoms, List.append_nil]
    simp [Leaf.isAtom]

/-! ### Gathering -/

/-- An item that is split loses the bullets of its lines at most. -/
theorem keepsContent_splitItem (item : Node) :
    KeepsContent item.leaves ((splitItem item).flatMap Node.leaves) := by
  cases h : item.firstText? with
  | none =>
      rw [splitItem_of_none h, List.flatMap_singleton]
      exact .refl _
  | some text =>
      obtain ⟨first, later, hl⟩ := List.exists_cons_of_ne_nil (Text.splitLines_ne_nil text.toList)
      obtain ⟨own, others, hitems, hsplit⟩ := splitItem_of_lines h hl
      have hlines := thinned_splitItemLines hl
      obtain ⟨spread, checked, hint, inner, span, inlines, blocks, rfl⟩ :=
        Node.exists_of_firstText h
      rw [hitems] at hlines
      rw [hsplit]
      have hkept := keepsContent_of_texts hlines
        (inlines.flatMap Node.leaves ++ blocks.flatMap Node.leaves)
      simpa [Node.mapFirstText, List.flatMap_map, List.map_eq_flatMap, List.flatMap_assoc] using hkept

theorem keepsContent_looseItems {child : Node} (h : child.isLoose = true) :
    KeepsContent child.leaves (((looseItems? child).getD []).flatMap Node.leaves) := by
  rw [← isSome_looseItems] at h
  fun_cases looseItems? child with
  | case1 spread checked hint children =>
      exact keepsContent_splitItem _
  | case2 value hmark =>
      have hthinned : Thinned value.toList [stripMarkers .bullets value.toList].flatten := by
        rw [List.flatten_singleton]
        exact thinned_stripMarkers value.toList
      have hkept := keepsContent_of_texts hthinned []
      simpa [looseItems?, hmark] using hkept
  | case3 value hmark => simp [looseItems?, hmark] at h
  | case4 node hitem htext =>
      rw [looseItems?] at h
      · cases h
      · exact hitem
      · exact htext

/-- A run of children has the content of the items that it stands for. -/
theorem keepsContent_itemsOf {run : List Node} (h : ∀ child ∈ run, child.isLoose = true) :
    KeepsContent (run.flatMap Node.leaves) ((itemsOf run).flatMap Node.leaves) := by
  induction run with
  | nil => exact .refl []
  | cons child more ih =>
      obtain ⟨hchild, hmore⟩ := List.forall_mem_cons.1 h
      rw [itemsOf, List.flatMap_cons, List.flatMap_cons, List.flatMap_append]
      exact (keepsContent_looseItems hchild).append (ih hmore)

theorem Gathered.keepsContent {children lists : List Node} (h : Gathered children lists) :
    KeepsContent (children.flatMap Node.leaves) (lists.flatMap Node.leaves) := by
  induction h with
  | done => exact .refl []
  | kept other _ ih =>
      rw [List.flatMap_cons, List.flatMap_cons]
      exact (KeepsContent.refl _).append ih
  | run some loose whole _ ih =>
      rw [List.flatMap_append, List.flatMap_cons, Node.leaves_bulletList]
      exact (keepsContent_itemsOf loose).append ih

mutual

/-- Along the two mutual relations: only a run that becomes a list changes what leaves hold. -/
theorem Node.Gathers.keepsContent : ∀ {tree result : Node}, tree.Gathers result →
    KeepsContent tree.leaves result.leaves
  | _, _, .leaf content => .refl _
  | _, _, .branch _ inner => by
      rw [leaves_branch, leaves_branch]
      exact inner.keepsContent
  | _, _, .details _ gathered inner => by
      rw [leaves_branch, leaves_branch]
      exact gathered.keepsContent.trans inner.keepsContent

theorem Node.AllGather.keepsContent : ∀ {nodes results : List Node}, AllGather nodes results →
    KeepsContent (nodes.flatMap leaves) (results.flatMap leaves)
  | _, _, .nil => .refl []
  | _, _, .cons first rest => by
      rw [List.flatMap_cons, List.flatMap_cons]
      exact first.keepsContent.append rest.keepsContent

end

/-- Gathering keeps all content of a tree: the texts have all their characters but for some blanks and
bullets, and get no new ones; all other leaves stay as they are and in their order. -/
theorem gatherDetails_keeps_content (tree : Node) :
    (∀ c, isBlank c = false → c ∉ ['-', '+', '*'] →
      (tree.gatherDetails.leaves.flatMap Leaf.letters).count c =
        (tree.leaves.flatMap Leaf.letters).count c) ∧
      (∀ c, (tree.gatherDetails.leaves.flatMap Leaf.letters).count c ≤
        (tree.leaves.flatMap Leaf.letters).count c) ∧
      tree.gatherDetails.leaves.filter Leaf.isAtom = tree.leaves.filter Leaf.isAtom := by
  have hkept := (Node.gathers_gatherDetails tree).keepsContent
  refine ⟨fun c hblank hbullet => hkept.letters.same c ?_, hkept.letters.fewer, hkept.atoms⟩
  simp only [List.mem_cons, List.not_mem_nil, or_false, not_or] at hbullet
  simp [isSubstance, hblank, hbullet]

/-- An item of two marked lines with code after them, and a text with two bullets of its own. -/
theorem gatherDetails_keeps_content_of_marked_children :
    let tree := Node.descriptionDetails [.branch (.listItem false none none)
      [.paragraph [.text "a-\n- b", .leaf (.inlineCode "- c")]], .text "- - b"]
    isBlank 'b' = false ∧ 'b' ∉ ['-', '+', '*'] ∧
      (tree.gatherDetails.leaves.flatMap Leaf.letters).count 'b' = 2 ∧
      (tree.gatherDetails.leaves.flatMap Leaf.letters).count '-' ≤ 4 ∧
      tree.gatherDetails.leaves.filter Leaf.isAtom = [.inlineCode "- c"] := by
  intro tree
  obtain ⟨hsame, hfewer, hatoms⟩ := gatherDetails_keeps_content tree
  have hblank : isBlank 'b' = false := by decide
  have hbullet : 'b' ∉ ['-', '+', '*'] := by decide
  exact ⟨hblank, hbullet, (hsame 'b' hblank hbullet).trans (by decide +kernel),
    (hfewer '-').trans (by decide +kernel), hatoms.trans (by decide +kernel)⟩

end DefinitionLists
