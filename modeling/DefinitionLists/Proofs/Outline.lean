/-
Module: DefinitionLists.Proofs.Outline
Purpose: The outline of a document: definition lists stand only directly below the root, and each is
  a sequence of groups of one term and its details.
Main exports: Group, Node.Outlined, Parts, Parts.groups, IsBlock, Fits, outlined_iff_fits
-/
import DefinitionLists.Proofs.Prose

namespace DefinitionLists

open Node (allProse)

/-- A term of a definition list with its definitions, of which there is at least one. -/
structure Group where
  term : List Node
  first : List Node
  others : List (List Node)

namespace Group

/-- The nodes that a group stands as in a definition list. -/
def nodes (group : Group) : List Node :=
  .descriptionTerm group.term :: (group.first :: group.others).map .descriptionDetails

/-- Whether no other part of a definition list and no root occurs in the group. -/
def IsProse (group : Group) : Prop :=
  allProse group.term = true ∧ ∀ blocks ∈ group.first :: group.others, allProse blocks = true

end Group

/-- The tree is a root, and each node directly below it is either prose, or a definition list that
is shown as `dl` and is made of groups. -/
def Node.Outlined (tree : Node) : Prop :=
  ∃ hint span blocks, tree = .branch (.container .root hint span) blocks ∧
    ∀ block ∈ blocks, block.isProse = true ∨
      ∃ groups : List Group, groups ≠ [] ∧ (∀ group ∈ groups, group.IsProse) ∧
        block = .descriptionList (groups.flatMap Group.nodes)

/-! ### The parts of a definition list, one by one

Groups are convenient to read but not to change: an edit sees one child at a time. The children are
therefore taken as the words of a small grammar with three states. -/

/-- What comes before a part of a definition list: nothing, a term that still needs details, or
details. -/
inductive Reached where
  | start
  | named
  | defined
deriving DecidableEq

/-- Parts that may follow in a definition list, up to its end. -/
inductive Parts : Reached → List Node → Prop where
  | done : Parts .defined []
  | term {reached : Reached} {inlines more : List Node} (free : reached ≠ .named)
      (prose : allProse inlines = true) (rest : Parts .named more) :
      Parts reached (.descriptionTerm inlines :: more)
  | details {reached : Reached} {blocks more : List Node} (named : reached ≠ .start)
      (prose : allProse blocks = true) (rest : Parts .defined more) :
      Parts reached (.descriptionDetails blocks :: more)

namespace Parts

variable {reached : Reached} {parts : List Node}

/-- Where a whole definition list may stand, its parts may follow other groups as well. -/
theorem afterDetails (h : Parts .start parts) : Parts .defined parts := by
  cases h with
  | term _ prose rest => exact .term (by simp) prose rest
  | details named _ _ => exact absurd rfl named

theorem append {more : List Node} (h : Parts reached parts) (hm : Parts .defined more) :
    Parts reached (parts ++ more) := by
  induction h with
  | done => exact hm
  | term free prose _ ih => exact .term free prose ih
  | details named prose _ ih => exact .details named prose ih

theorem ofDetails {texts : List (List Node)} (h : ∀ blocks ∈ texts, allProse blocks = true) :
    Parts .defined (texts.map .descriptionDetails) := by
  induction texts with
  | nil => exact .done
  | cons blocks more ih =>
      exact .details (by simp) (h blocks (by simp)) (ih fun other ho => h other (by simp [ho]))

theorem ofGroup {group : Group} (h : group.IsProse) : Parts .start group.nodes := by
  refine .term (by simp) h.1 (.details (by simp) (h.2 _ (by simp)) (ofDetails ?_))
  exact fun blocks hb => h.2 blocks (by simp [hb])

/-- Groups one after another are parts of a whole definition list. -/
theorem ofGroups {groups : List Group} (h : ∀ group ∈ groups, group.IsProse) :
    Parts .defined (groups.flatMap Group.nodes) := by
  induction groups with
  | nil => exact .done
  | cons group more ih =>
      rw [List.flatMap_cons]
      exact (ofGroup (h group (by simp))).afterDetails.append
        (ih fun other ho => h other (by simp [ho]))

/-- A part holds prose, and other prose may take its place. -/
theorem replace {head : Branch} {before children after : List Node}
    (h : Parts reached (before ++ .branch head children :: after)) :
    (head = .container .descriptionTerm (some "dt") none ∨
      head = .container .descriptionDetails (some "dd") none) ∧ allProse children = true ∧
      ∀ {children'}, allProse children' = true →
        Parts reached (before ++ .branch head children' :: after) := by
  induction before generalizing reached with
  | nil =>
      cases h with
      | term free prose rest => exact ⟨.inl rfl, prose, fun hc => .term free hc rest⟩
      | details named prose rest => exact ⟨.inr rfl, prose, fun hc => .details named hc rest⟩
  | cons part before ih =>
      cases h with
      | term free prose rest =>
          obtain ⟨hhead, hchildren, hreplace⟩ := ih rest
          exact ⟨hhead, hchildren, fun hc => .term free prose (hreplace hc)⟩
      | details named prose rest =>
          obtain ⟨hhead, hchildren, hreplace⟩ := ih rest
          exact ⟨hhead, hchildren, fun hc => .details named prose (hreplace hc)⟩

/-- A function that keeps terms as they are and the contents of details prose keeps the parts. -/
theorem map {f : Node → Node} (hterm : ∀ inlines, allProse inlines = true →
      f (.descriptionTerm inlines) = .descriptionTerm inlines)
    (hdetails : ∀ blocks, allProse blocks = true →
      ∃ blocks', f (.descriptionDetails blocks) = .descriptionDetails blocks' ∧
        allProse blocks' = true)
    (h : Parts reached parts) : Parts reached (parts.map f) := by
  induction h with
  | done => exact .done
  | term free prose _ ih =>
      rw [List.map_cons, hterm _ prose]
      exact .term free prose ih
  | details named prose _ ih =>
      obtain ⟨blocks', heq, hprose⟩ := hdetails _ prose
      rw [List.map_cons, heq]
      exact .details named hprose ih

/-- The parts that may follow in a definition list make up groups, once the details of the term
before them are set apart. -/
theorem leading_groups (h : Parts reached parts) :
    ∃ (texts : List (List Node)) (groups : List Group),
      parts = texts.map Node.descriptionDetails ++ groups.flatMap Group.nodes ∧
      (∀ blocks ∈ texts, allProse blocks = true) ∧ (∀ group ∈ groups, group.IsProse) ∧
      (reached = .named → texts ≠ []) ∧ (reached = .start → texts = [] ∧ groups ≠ []) := by
  induction h with
  | done => exact ⟨[], [], by simp⟩
  | @term reached inlines more free prose _ ih =>
      obtain ⟨texts, groups, heq, htexts, hgroups, hnamed, -⟩ := ih
      obtain ⟨first, others, rfl⟩ := List.exists_cons_of_ne_nil (hnamed rfl)
      refine ⟨[], ⟨inlines, first, others⟩ :: groups, ?_, by simp, ?_, ?_, by simp⟩
      · simp [heq, Group.nodes]
      · intro group hg
        rcases List.mem_cons.1 hg with rfl | hg
        · exact ⟨prose, htexts⟩
        · exact hgroups group hg
      · exact fun hr => absurd hr free
  | @details reached blocks more named prose _ ih =>
      obtain ⟨texts, groups, heq, htexts, hgroups, -, -⟩ := ih
      refine ⟨blocks :: texts, groups, by simp [heq], ?_, hgroups, by simp, ?_⟩
      · intro blocks' hb
        rcases List.mem_cons.1 hb with rfl | hb
        · exact prose
        · exact htexts blocks' hb
      · exact fun hr => absurd hr named

/-- The children of a definition list make up groups, of which there is at least one. -/
theorem groups (h : Parts .start parts) :
    ∃ groups : List Group, groups ≠ [] ∧ parts = groups.flatMap Group.nodes ∧
      ∀ group ∈ groups, group.IsProse := by
  obtain ⟨texts, groups, heq, -, hgroups, -, hstart⟩ := h.leading_groups
  obtain ⟨rfl, hne⟩ := hstart rfl
  exact ⟨groups, hne, by simpa using heq, hgroups⟩

end Parts

/-- A node directly below the root of an outlined document. -/
inductive IsBlock : Node → Prop where
  | prose {node : Node} (prose : node.isProse = true) : IsBlock node
  | definitions {parts : List Node} (whole : Parts .start parts) : IsBlock (.descriptionList parts)

/-- What the children of a node may be in an outlined document. -/
def Fits : Branch → List Node → Prop
  | .container .root _ _, blocks => ∀ block ∈ blocks, IsBlock block
  | .container .descriptionList _ _, parts => Parts .start parts
  | _, children => allProse children = true

theorem fits_iff_allProse {head : Branch} (h : head.isSpecial = false) {children : List Node} :
    Fits head children ↔ allProse children = true := by
  unfold Fits
  split
  · simp [Branch.isSpecial, Container.isSpecial] at h
  · simp [Branch.isSpecial, Container.isSpecial] at h
  · rfl

/-- A definition list made of groups is one whose parts follow one another as they may. -/
theorem isBlock_iff {node : Node} : IsBlock node ↔
    node.isProse = true ∨ ∃ groups : List Group, groups ≠ [] ∧
      (∀ group ∈ groups, group.IsProse) ∧ node = .descriptionList (groups.flatMap Group.nodes) := by
  constructor
  · intro h
    cases h with
    | prose prose => exact .inl prose
    | definitions whole =>
        obtain ⟨groups, hne, rfl, hgroups⟩ := whole.groups
        exact .inr ⟨groups, hne, hgroups, rfl⟩
  · rintro (prose | ⟨groups, hne, hgroups, rfl⟩)
    · exact .prose prose
    · obtain ⟨group, more, rfl⟩ := List.exists_cons_of_ne_nil hne
      have hmore : Parts .defined (more.flatMap Group.nodes) :=
        Parts.ofGroups fun other ho => hgroups other (by simp [ho])
      exact .definitions ((Parts.ofGroup (hgroups group (by simp))).append hmore)

/-- A document is outlined if it is a root whose children fit there. -/
theorem outlined_iff_fits {tree : Node} : tree.Outlined ↔
    ∃ hint span blocks, tree = .branch (.container .root hint span) blocks ∧
      Fits (.container .root hint span) blocks := by
  simp only [Node.Outlined, Fits, isBlock_iff]

/-! ### Changing one sibling -/

/-- The children of a sibling fit it. -/
theorem Fits.inner {parent head : Branch} {before children after : List Node}
    (h : Fits parent (before ++ .branch head children :: after)) : Fits head children := by
  have hprose (hnode : Node.isProse (.branch head children) = true) : Fits head children := by
    rw [Node.isProse_branch] at hnode
    exact (fits_iff_allProse hnode.1).2 hnode.2
  unfold Fits at h
  split at h
  · cases hblock : h (.branch head children) (by simp) with
    | prose prose => exact hprose prose
    | definitions whole => exact whole
  · obtain ⟨rfl | rfl, hchildren, -⟩ := Parts.replace h
    · exact hchildren
    · exact hchildren
  · exact hprose (Node.allProse_iff.1 h _ (by simp))

/-- Other children that fit may take the place of those of a sibling. -/
theorem Fits.replace {parent head : Branch} {before children children' after : List Node}
    (h : Fits parent (before ++ .branch head children :: after)) (hc : Fits head children') :
    Fits parent (before ++ .branch head children' :: after) := by
  have hprose (hnode : Node.isProse (.branch head children) = true) :
      Node.isProse (.branch head children') = true := by
    rw [Node.isProse_branch] at hnode ⊢
    exact ⟨hnode.1, (fits_iff_allProse hnode.1).1 hc⟩
  unfold Fits at h ⊢
  split at h
  · intro block hb
    rcases List.mem_append.1 hb with hb | hb
    · exact h block (by simp [hb])
    · rcases List.mem_cons.1 hb with rfl | hb
      · cases hblock : h (.branch head children) (by simp) with
        | prose prose => exact .prose (hprose prose)
        | definitions _ => exact .definitions hc
      · exact h block (by simp [hb])
  · obtain ⟨rfl | rfl, -, hreplace⟩ := Parts.replace h
    · exact hreplace hc
    · exact hreplace hc
  · simp only [Node.allProse_append, Node.allProse_cons] at h ⊢
    exact ⟨h.1, hprose h.2.1, h.2.2⟩

/-- A definition list stands directly below a root, and is shown as `dl`. -/
theorem Fits.definitionList {parent : Branch} {hint : Option String} {span : Option Span}
    {before parts after : List Node}
    (h : Fits parent (before ++ .branch (.container .descriptionList hint span) parts :: after)) :
    parent.isContainer .root = true ∧ hint = some "dl" ∧ span = none := by
  unfold Fits at h
  split at h
  · cases hblock : h (.branch (.container .descriptionList hint span) parts) (by simp) with
    | prose prose => simp [Branch.isSpecial, Container.isSpecial] at prose
    | definitions _ => exact ⟨rfl, rfl, rfl⟩
  · obtain ⟨hhead | hhead, -, -⟩ := Parts.replace h
    · simp at hhead
    · simp at hhead
  · simp [Branch.isSpecial, Container.isSpecial] at h

/-! ### Where details stand -/

/-- Each part of a definition list is a term or details over prose. -/
theorem Parts.mem {reached : Reached} {parts : List Node} (h : Parts reached parts) {part : Node}
    (hm : part ∈ parts) : ∃ children, allProse children = true ∧
      (part = .descriptionTerm children ∨ part = .descriptionDetails children) := by
  induction h with
  | done => cases hm
  | term _ prose _ ih =>
      rcases List.mem_cons.1 hm with rfl | hm
      · exact ⟨_, prose, .inl rfl⟩
      · exact ih hm
  | details _ prose _ ih =>
      rcases List.mem_cons.1 hm with rfl | hm
      · exact ⟨_, prose, .inr rfl⟩
      · exact ih hm

/-- All details of an outlined document stand in definition lists directly below its root. -/
theorem Node.Outlined.mem_preorder_details {tree : Node} (h : tree.Outlined) {details : Node}
    (hd : details.isContainer .descriptionDetails = true) : details ∈ tree.preorder ↔
      ∃ list ∈ tree.children, list.isContainer .descriptionList = true ∧
        details ∈ list.children := by
  obtain ⟨hint, span, blocks, rfl, hblocks⟩ := outlined_iff_fits.1 h
  have hprose {node : Node} (hn : node.isProse = true) : details ∉ node.preorder := by
    intro hm
    have hnot : details.isContainer .descriptionDetails = false :=
      Node.isContainer_of_isProse (Node.allHeads_of_mem_preorder hn details hm) rfl
    simp [hnot] at hd
  rw [mem_preorder_branch]
  constructor
  · rintro (rfl | ⟨block, hblock, hm⟩)
    · simp [isContainer, Branch.isContainer] at hd
    · cases hb : hblocks block hblock with
      | prose prose => exact absurd hm (hprose prose)
      | @definitions parts whole =>
          rcases mem_preorder_branch.1 hm with rfl | ⟨part, hpart, hm⟩
          · simp [isContainer, Branch.isContainer] at hd
          · obtain ⟨children, hchildren, rfl | rfl⟩ := whole.mem hpart
            · rcases mem_preorder_branch.1 hm with rfl | ⟨child, hc, hm⟩
              · simp [isContainer, Branch.isContainer] at hd
              · exact absurd hm (hprose (allProse_iff.1 hchildren child hc))
            · rcases mem_preorder_branch.1 hm with rfl | ⟨child, hc, hm⟩
              · exact ⟨_, hblock, rfl, hpart⟩
              · exact absurd hm (hprose (allProse_iff.1 hchildren child hc))
  · rintro ⟨list, hlist, -, hm⟩
    refine .inr ⟨list, hlist, ?_⟩
    cases list with
    | leaf content => simp [Node.children] at hm
    | branch head children =>
      exact mem_preorder_branch.2 (.inr ⟨details, hm, details.mem_preorder_self⟩)

end DefinitionLists
