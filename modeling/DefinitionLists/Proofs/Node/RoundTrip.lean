/-
Module: DefinitionLists.Proofs.Node.RoundTrip
Purpose: Reading the written form of a tree gives the tree back, unless too many containers are open
  at once in it.
Main exports: readNode_toJson, read_of_scan, read_written
-/
import DefinitionLists.Proofs.Json.Scan
import DefinitionLists.Proofs.Node.Member

namespace DefinitionLists.Node

open Json

/-- An object of members that are read is read as the node that they make up. -/
theorem readNode_object (ending : Ending) {members : List Member} {node : Node}
    (fuel depth : Nat) (rest : List Token) (hread : ∀ member ∈ members, member.IsRead)
    (hnodup : (members.map Member.field).Nodup)
    (hnode : ofFields (members.foldl (fun fields member => member.store fields) {}) = node)
    (hf : (Json.object (members.map Member.entry)).tokens.length ≤ fuel) :
    readNode ending fuel depth ((Json.object (members.map Member.entry)).tokens ++ rest) =
      within (Json.object (members.map Member.entry)).nesting depth (node, rest) := by
  have hlength : (memberTokens true (members.map Member.entry)).length + 2 ≤ fuel := by
    simp only [tokens, List.cons_append, List.length_cons, List.length_append, List.length_nil] at hf
    omega
  obtain ⟨fuel, rfl⟩ : ∃ n, fuel = n + 1 := ⟨fuel - 1, by omega⟩
  simp only [tokens, nesting, List.cons_append, List.append_assoc, List.nil_append]
  cases depth with
  | zero =>
      rw [within_succ_zero]
      simp only [readNode]
  | succ depth =>
      rw [within_succ_succ]
      simp only [readNode]
      have hmembers := readMembers_tokens ending fuel depth true [] {}
        rest hread (by simp) hnodup (by omega)
      exact within_bind_ok hmembers (by rw [← hnode]; rfl)

mutual

/-- A node is read back from its tokens, if it is not too deep. -/
theorem readNode_toJson : ∀ {node : Node}, node.allHeads Branch.hasOwnTag = true →
    node.allHeads Branch.hasOffsets = true → ∀ (ending : Ending) (fuel depth : Nat)
      (rest : List Token), node.toJson.tokens.length ≤ fuel →
        readNode ending fuel depth (node.toJson.tokens ++ rest) =
          within node.toJson.nesting depth (node, rest)
  | .leaf content, _, _, ending, fuel, depth, rest, hf => by
      have hentries : toJson (.leaf content) =
          .object ((tagMember content.tag :: leafFields content).map Member.entry) := by
        rw [List.map_cons, entry_leafFields, toJson]
        rfl
      rw [hentries] at hf ⊢
      exact readNode_object ending fuel depth rest
        (List.forall_mem_cons.2 ⟨isRead_tagMember _, isRead_leafFields content⟩)
        (nodup_leafFields _ content) (ofFields_leafFields content) hf
  | .branch head children, ht, ho, ending, fuel, depth, rest, hf => by
      obtain ⟨hhead, hchildren⟩ := (allHeads_branch head children).1 ht
      obtain ⟨hhead', hchildren'⟩ := (allHeads_branch head children).1 ho
      have hread : (childrenMember children).IsRead :=
        isRead_childrenMember fun ending fuel depth rest hf =>
          readNodes_toJsonList hchildren hchildren' ending fuel true depth rest hf
      have hentries : toJson (.branch head children) =
          .object ((tagMember head.tag :: branchFields children head).map Member.entry) := by
        rw [List.map_cons, entry_branchFields, toJson]
        rfl
      rw [hentries] at hf ⊢
      exact readNode_object ending fuel depth rest
        (List.forall_mem_cons.2 ⟨isRead_tagMember _, isRead_branchFields hhead' hread⟩)
        (nodup_branchFields _ head children) (ofFields_branchFields hhead children) hf

theorem readNodes_toJsonList : ∀ {nodes : List Node}, allHeadsIn Branch.hasOwnTag nodes = true →
    allHeadsIn Branch.hasOffsets nodes = true → ∀ (ending : Ending) (fuel : Nat) (first : Bool)
      (depth : Nat) (rest : List Token), (elementTokens first (toJsonList nodes)).length < fuel →
        readNodes ending fuel depth first
            (elementTokens first (toJsonList nodes) ++ .closeArray :: rest) =
          within (elementNesting (toJsonList nodes)) depth (nodes, rest)
  | [], _, _, ending, fuel + 1, first, depth, rest, _ => by
      rw [readNodes, toJsonList, elementTokens, List.nil_append, nextElement_close, elementNesting,
        within_zero]
      rfl
  | node :: more, ht, ho, ending, fuel + 1, first, depth, rest, hf => by
      obtain ⟨hnode, hmore⟩ := (allHeadsIn_cons node more).1 ht
      obtain ⟨hnode', hmore'⟩ := (allHeadsIn_cons node more).1 ho
      rw [toJsonList] at hf
      have hlength := length_elementTokens_cons first node.toJson (toJsonList more)
      have hpos := length_tokens_pos node.toJson
      have hread := readNode_toJson hnode hnode' ending fuel depth
        (elementTokens false (toJsonList more) ++ .closeArray :: rest) (by omega)
      have hrest := readNodes_toJsonList hmore hmore' ending fuel false depth rest (by omega)
      rw [readNodes, toJsonList, nextElement_elementTokens, elementNesting, ok_bind]
      exact within_bind hread (within_bind_ok hrest rfl)

end

/-- Reading a text of the tokens of a tree gives the tree back if no more containers are open at once
than the reader allows, and is a fault of form otherwise. -/
theorem read_of_scan {tree : Node} (ht : tree.allHeads Branch.hasOwnTag = true)
    (ho : tree.allHeads Branch.hasOffsets = true) {text : String}
    (h : Token.scan text.toList = (tree.toJson.tokens, .finished)) :
    read text = within tree.toJson.nesting maxDepth tree := by
  have hread := readNode_toJson ht ho .finished (4 * tree.toJson.tokens.length + 4) maxDepth []
    (by omega)
  rw [List.append_nil] at hread
  unfold read
  rw [h]
  exact within_bind_ok hread rfl

/-- A tree is read back from either way to write it. -/
theorem read_of_written {tree : Node} (ht : tree.allHeads Branch.hasOwnTag = true)
    (ho : tree.allHeads Branch.hasOffsets = true) {text : String}
    (h : text = tree.toJson.compact ∨ text = tree.toJson.pretty) :
    read text = within (mostOpen text) maxDepth tree := by
  rw [mostOpen_of_written h]
  exact read_of_scan ht ho (scan_of_written h)

/-! ### The round trip -/

/-- Trees whose unknown nodes have tags of their own, as all trees have that are read or made of
Markdown text, come back from their compact and from their pretty text, as long as these have at most
127 containers open at once. A text that has more is malformed for the reader. Offsets in a tree are
words of 64 bits. -/
theorem read_written :
    (∀ tree : Node, tree.allHeads Branch.hasOwnTag = true → tree.allHeads Branch.hasOffsets = true →
      ∀ text : String, text = tree.toJson.compact ∨ text = tree.toJson.pretty →
        (mostOpen text ≤ 127 → read text = .ok tree) ∧
        (127 < mostOpen text → read text = .error .malformed)) ∧
    (∀ (text : String) (tree : Node), read text = .ok tree →
      tree.allHeads Branch.hasOwnTag = true) ∧
    ∀ (extended : Bool) (text : List Char),
      (ofMarkdown extended text).allHeads Branch.hasOwnTag = true := by
  refine ⟨fun tree ht ho text htext => ?_, fun text tree => hasOwnTag_read, hasOwnTag_ofMarkdown⟩
  rw [read_of_written ht ho htext, within, maxDepth]
  exact ⟨fun hle => if_pos hle, fun hlt => if_neg (by omega)⟩

/-- Some quotes around one another. -/
def nestedQuotes : Nat → Node
  | 0 => .text "\"a\n\x01é"
  | depth + 1 => .branch (.container .blockquote none (some ⟨0, depth⟩)) [nestedQuotes depth]

/-- Each quote takes two containers, one for itself and one for its children. -/
theorem read_written_nestedQuotes :
    read (nestedQuotes 63).toJson.pretty = .ok (nestedQuotes 63) ∧
      read (nestedQuotes 64).toJson.compact = .error .malformed := by
  have hfits : mostOpen (nestedQuotes 63).toJson.pretty ≤ 127 := by
    rw [mostOpen_of_written (.inr rfl)]
    decide +kernel
  have hexceeds : 127 < mostOpen (nestedQuotes 64).toJson.compact := by
    rw [mostOpen_of_written (.inl rfl)]
    decide +kernel
  exact ⟨(read_written.1 (nestedQuotes 63) (by decide) (by decide) _ (.inr rfl)).1 hfits,
    (read_written.1 (nestedQuotes 64) (by decide) (by decide) _ (.inl rfl)).2 hexceeds⟩

end DefinitionLists.Node
