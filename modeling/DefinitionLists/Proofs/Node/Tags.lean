/-
Module: DefinitionLists.Proofs.Node.Tags
Purpose: Unknown nodes keep to tags that no other kind of node has, in all trees that are read and in
  all trees of Markdown text.
Main exports: knownTags, Branch.hasOwnTag, ofFields_of_not_mem, hasOwnTag_read, hasOwnTag_ofMarkdown
-/
import DefinitionLists.Node.Reader
import DefinitionLists.Proofs.Heads

namespace DefinitionLists

/-- The tags of containers. -/
def containerTags : List String :=
  ["root", "paragraph", "blockquote", "descriptionlist", "descriptionterm", "descriptiondetails",
    "emphasis", "strong", "delete"]

/-- The tags that stand for a kind of node of its own. -/
def knownTags : List String :=
  containerTags ++ ["heading", "list", "listItem", "link", "code", "html", "text", "inlineCode",
    "image", "thematicBreak", "break"]

/-- Whether the node, if it is of unknown kind, has a tag that stands for no other kind. -/
def Branch.hasOwnTag : Branch → Bool
  | .other tag _ _ => !knownTags.contains tag
  | _ => true

namespace Node

open Json

theorem containerOfTag_eq_none_iff {tag : String} :
    containerOfTag? tag = none ↔ tag ∉ containerTags := by
  constructor
  · intro h hmem
    have hall : ∀ tag ∈ containerTags, containerOfTag? tag ≠ none := by decide
    exact hall tag hmem h
  · intro h
    rw [containerOfTag?, List.find?_eq_none]
    intro kind _ heq
    rw [beq_iff_eq] at heq
    rw [← heq] at h
    revert h
    cases kind <;> decide

/-- A node is of unknown kind only if its tag stands for no kind. -/
theorem ofFields_of_not_mem {fields : Fields} (h : fields.tag ∉ knownTags) :
    ofFields fields = .branch (.other fields.tag fields.value fields.hint) fields.children := by
  rw [knownTags, List.mem_append, not_or] at h
  unfold ofFields
  rw [containerOfTag_eq_none_iff.2 h.1]
  simp only
  split
  all_goals first | rfl | simp_all

/-- The fields of a node never make up an unknown node with a known tag. -/
theorem hasOwnTag_ofFields {fields : Fields}
    (h : allHeadsIn Branch.hasOwnTag fields.children = true) :
    (ofFields fields).allHeads Branch.hasOwnTag = true := by
  unfold ofFields
  split
  · simp [Branch.hasOwnTag, h]
  · next hnone =>
      have hcontainer := containerOfTag_eq_none_iff.1 hnone
      split
      case h_12 => simp_all [Branch.hasOwnTag, knownTags]
      all_goals simp [Branch.hasOwnTag, h]

/-! ### Trees that are read -/

theorem exists_ok_of_bind_eq_ok {α β : Type} {read : Except Fault α} {f : α → Except Fault β} {b : β}
    (h : (read >>= f) = .ok b) : ∃ a, read = .ok a ∧ f a = .ok b := by
  cases read with
  | error fault => cases h
  | ok a => exact ⟨a, rfl, h⟩

/-- Reading a field changes the children only to nodes that were read. -/
theorem hasOwnTag_readField {ending : Ending} {fuel : Nat}
    (hnodes : ∀ {depth : Nat} {first : Bool} {tokens rest : List Token} {nodes : List Node},
      readNodes ending fuel depth first tokens = .ok (nodes, rest) →
        allHeadsIn Branch.hasOwnTag nodes = true)
    {depth : Nat} {field : Field} {fields fields' : Fields} {tokens rest : List Token}
    (hc : allHeadsIn Branch.hasOwnTag fields.children = true)
    (h : readField ending (fuel + 1) depth field fields tokens = .ok (fields', rest)) :
    allHeadsIn Branch.hasOwnTag fields'.children = true := by
  cases field with
  | children =>
      unfold readField at h
      simp only at h
      split at h
      · cases h
      · split at h
        · cases h
        · obtain ⟨⟨nodes, rest'⟩, hread, heq⟩ := exists_ok_of_bind_eq_ok h
          cases heq
          exact hnodes hread
      · cases h
  | _ =>
      unfold readField at h
      obtain ⟨⟨value, rest'⟩, -, heq⟩ := exists_ok_of_bind_eq_ok h
      cases heq
      exact hc

/-- What each reader returns has only unknown nodes with tags of their own, if the fields that it
started with had. -/
private structure OwnTags (ending : Ending) (fuel : Nat) : Prop where
  node : ∀ {depth : Nat} {tokens rest : List Token} {node : Node},
    readNode ending fuel depth tokens = .ok (node, rest) → node.allHeads Branch.hasOwnTag = true
  members : ∀ {depth : Nat} {first : Bool} {seen : List Field} {fields fields' : Fields}
    {tokens rest : List Token}, allHeadsIn Branch.hasOwnTag fields.children = true →
      readMembers ending fuel depth first seen fields tokens = .ok (fields', rest) →
        allHeadsIn Branch.hasOwnTag fields'.children = true
  positional : ∀ {depth : Nat} {first : Bool} {later : List Field} {fields fields' : Fields}
    {tokens rest : List Token}, allHeadsIn Branch.hasOwnTag fields.children = true →
      readPositional ending fuel depth first later fields tokens = .ok (fields', rest) →
        allHeadsIn Branch.hasOwnTag fields'.children = true
  field : ∀ {depth : Nat} {field : Field} {fields fields' : Fields} {tokens rest : List Token},
    allHeadsIn Branch.hasOwnTag fields.children = true →
      readField ending fuel depth field fields tokens = .ok (fields', rest) →
        allHeadsIn Branch.hasOwnTag fields'.children = true
  nodes : ∀ {depth : Nat} {first : Bool} {tokens rest : List Token} {nodes : List Node},
    readNodes ending fuel depth first tokens = .ok (nodes, rest) →
      allHeadsIn Branch.hasOwnTag nodes = true

namespace OwnTags

variable {ending : Ending} {fuel : Nat}

private theorem readNode_succ (ih : OwnTags ending fuel) {depth : Nat} {tokens rest : List Token}
    {node : Node} (h : readNode ending (fuel + 1) depth tokens = .ok (node, rest)) :
    node.allHeads Branch.hasOwnTag = true := by
  cases tokens with
  | nil => simp [readNode] at h
  | cons token more =>
      unfold readNode at h
      split at h
      · split at h
        · cases h
        · obtain ⟨⟨fields, left⟩, hread, heq⟩ := exists_ok_of_bind_eq_ok h
          cases heq
          exact hasOwnTag_ofFields (ih.members allHeadsIn_nil hread)
      · split at h
        · cases h
        · obtain ⟨⟨fields, left⟩, hread, heq⟩ := exists_ok_of_bind_eq_ok h
          cases heq
          exact hasOwnTag_ofFields (ih.positional allHeadsIn_nil hread)
      · cases h

private theorem readMembers_succ (ih : OwnTags ending fuel) {depth : Nat} {first : Bool}
    {seen : List Field} {fields fields' : Fields} {tokens rest : List Token}
    (hc : allHeadsIn Branch.hasOwnTag fields.children = true)
    (h : readMembers ending (fuel + 1) depth first seen fields tokens = .ok (fields', rest)) :
    allHeadsIn Branch.hasOwnTag fields'.children = true := by
  unfold readMembers at h
  obtain ⟨⟨name, left⟩, -, h⟩ := exists_ok_of_bind_eq_ok h
  simp only at h
  split at h
  · cases h
    exact hc
  · split at h
    · obtain ⟨left, -, h⟩ := exists_ok_of_bind_eq_ok h
      exact ih.members hc h
    · obtain ⟨⟨stored, left⟩, hread, h⟩ := exists_ok_of_bind_eq_ok h
      exact ih.members (ih.field hc hread) h

private theorem readPositional_succ (ih : OwnTags ending fuel) {depth : Nat} {first : Bool}
    {later : List Field} {fields fields' : Fields} {tokens rest : List Token}
    (hc : allHeadsIn Branch.hasOwnTag fields.children = true)
    (h : readPositional ending (fuel + 1) depth first later fields tokens = .ok (fields', rest)) :
    allHeadsIn Branch.hasOwnTag fields'.children = true := by
  unfold readPositional at h
  cases later with
  | nil =>
      simp only at h
      split at h
      · cases h
        exact hc
      · cases h
      · cases h
  | cons field later =>
      obtain ⟨⟨next, left⟩, -, h⟩ := exists_ok_of_bind_eq_ok h
      simp only at h
      split at h
      · cases h
        exact hc
      · obtain ⟨⟨stored, left⟩, hread, h⟩ := exists_ok_of_bind_eq_ok h
        exact ih.positional (ih.field hc hread) h

private theorem readNodes_succ (ih : OwnTags ending fuel) {depth : Nat} {first : Bool}
    {tokens rest : List Token} {nodes : List Node}
    (h : readNodes ending (fuel + 1) depth first tokens = .ok (nodes, rest)) :
    allHeadsIn Branch.hasOwnTag nodes = true := by
  unfold readNodes at h
  obtain ⟨⟨next, left⟩, -, h⟩ := exists_ok_of_bind_eq_ok h
  simp only at h
  split at h
  · cases h
    exact allHeadsIn_nil
  · obtain ⟨⟨node, left⟩, hnode, h⟩ := exists_ok_of_bind_eq_ok h
    obtain ⟨⟨more, left⟩, hmore, heq⟩ := exists_ok_of_bind_eq_ok h
    cases heq
    exact (allHeadsIn_cons node more).2 ⟨ih.node hnode, ih.nodes hmore⟩

end OwnTags

/-- Without fuel nothing is read, and with some each reader relies on the readers with less. -/
private theorem ownTags (ending : Ending) (fuel : Nat) : OwnTags ending fuel := by
  induction fuel with
  | zero =>
      refine ⟨fun h => ?_, fun _ h => ?_, fun _ h => ?_, fun _ h => ?_, fun h => ?_⟩
      · simp [readNode] at h
      · simp [readMembers] at h
      · simp [readPositional] at h
      · simp [readField] at h
      · simp [readNodes] at h
  | succ fuel ih =>
      exact ⟨ih.readNode_succ, ih.readMembers_succ, ih.readPositional_succ,
        hasOwnTag_readField ih.nodes, ih.readNodes_succ⟩

/-- No tree that is read has an unknown node with a known tag. -/
theorem hasOwnTag_read {text : String} {tree : Node} (h : read text = .ok tree) :
    tree.allHeads Branch.hasOwnTag = true := by
  unfold read at h
  obtain ⟨⟨node, rest⟩, hread, h⟩ := exists_ok_of_bind_eq_ok h
  simp only at h
  split at h
  · cases h
    exact (ownTags _ _).node hread
  · cases h

/-! ### Trees of Markdown text -/

/-- Reading Markdown makes no node of unknown kind. -/
theorem hasOwnTag_ofMarkdown (extended : Bool) (text : List Char) :
    (ofMarkdown extended text).allHeads Branch.hasOwnTag = true := by
  obtain ⟨blocks, heq, hheads⟩ := ofMarkdown_heads extended text
  rw [heq, allHeads_branch]
  refine ⟨rfl, allHeadsIn_mono (fun head hhead => ?_) hheads⟩
  cases head with
  | other tag value hint =>
      have htag : tag ∈ Markdown.unknownTags := by simpa [Branch.isMarkdown] using hhead
      have hall : ∀ tag ∈ Markdown.unknownTags, knownTags.contains tag = false := by decide
      simpa [Branch.hasOwnTag] using hall tag htag
  | _ => rfl

end Node

end DefinitionLists
