/-
Module: DefinitionLists.Proofs.Node.Member
Purpose: The members of the object that a node is written as, how each of them is read, and the fields
  that they make up together.
Main exports: Member, Member.IsRead, readMembers_tokens, branchFields, leafFields,
  isRead_branchFields, ofFields_branchFields
-/
import DefinitionLists.Node.Json
import DefinitionLists.Proofs.Node.Loose
import DefinitionLists.Proofs.Node.Tags

namespace DefinitionLists

/-- Whether the offsets of the node's position, if it has one, fit 64 bits. -/
def Branch.hasOffsets : Branch → Bool
  | .container _ _ (some span) => span.start < UInt64.size && span.stop < UInt64.size
  | _ => true

namespace Node

open Json

/-! ### Members one after the other -/

/-- A member of the object that stands for a node: its field, its value, and what reading it does to
the fields read so far. -/
structure Member where
  field : Field
  value : Json
  store : Fields → Fields

namespace Member

/-- The member as it is written. -/
def entry (member : Member) : String × Json := (member.field.name, member.value)

/-- Whether reading the value of the member stores it, within any depth that it fits. -/
def IsRead (member : Member) : Prop :=
  ∀ (ending : Ending) (fuel depth : Nat) (fields : Fields) (rest : List Token),
    member.value.tokens.length < fuel →
      readField ending fuel depth member.field fields (member.value.tokens ++ rest) =
        within member.value.nesting depth (member.store fields, rest)

/-- A value of one token is read as soon as its field takes the token. -/
theorem isRead_of_token {member : Member} {token : Token} (ht : member.value.tokens = [token])
    (hn : member.value.nesting = 0)
    (hread : ∀ (ending : Ending) (fuel depth : Nat) (fields : Fields) (rest : List Token),
      readField ending (fuel + 1) depth member.field fields (token :: rest) =
        .ok (member.store fields, rest)) : member.IsRead := by
  intro ending fuel depth fields rest hf
  rw [ht, List.length_singleton] at hf
  obtain ⟨fuel, rfl⟩ : ∃ n, fuel = n + 1 := ⟨fuel - 1, by omega⟩
  rw [ht, hn, within_zero]
  exact hread ending fuel depth fields rest

/-- A value that may be anything is read within its depth, and what its field needs is found in it. -/
theorem isRead_of_loose {member : Member} (store : Fields → Loose → Fields)
    (hread : ∀ (ending : Ending) (fuel depth : Nat) (fields : Fields) (tokens : List Token),
      readField ending (fuel + 1) depth member.field fields tokens =
        (readLoose ending fuel depth tokens >>= fun (value, rest) =>
          pure (store fields value, rest)))
    (hstore : ∀ fields, store fields (Loose.ofJson member.value) = member.store fields) :
    member.IsRead := by
  intro ending fuel depth fields rest hf
  obtain ⟨fuel, rfl⟩ : ∃ n, fuel = n + 1 := ⟨fuel - 1, by omega⟩
  rw [hread, ← hstore]
  exact within_bind_ok (readLoose_tokens ending member.value fuel depth rest (by omega)) rfl

end Member

theorem ofName_name (field : Field) : Field.ofName? field.name = some field := by
  cases field <;> decide

/-- Members of different fields are read in turn. -/
theorem readMembers_tokens (ending : Ending) {members : List Member} (fuel depth : Nat)
    (first : Bool) (seen : List Field) (fields : Fields) (rest : List Token)
    (hread : ∀ member ∈ members, member.IsRead) (hseen : ∀ member ∈ members, member.field ∉ seen)
    (hnodup : (members.map Member.field).Nodup)
    (hf : (memberTokens first (members.map Member.entry)).length < fuel) :
    readMembers ending fuel depth first seen fields
        (memberTokens first (members.map Member.entry) ++ .closeObject :: rest) =
      within (memberNesting (members.map Member.entry)) depth
        (members.foldl (fun fields member => member.store fields) fields, rest) := by
  induction members generalizing fuel first seen fields with
  | nil =>
      obtain ⟨fuel, rfl⟩ : ∃ n, fuel = n + 1 := ⟨fuel - 1, by omega⟩
      rw [readMembers, List.map_nil, memberTokens, List.nil_append, nextMember_close, memberNesting,
        within_zero]
      rfl
  | cons member more ih =>
      obtain ⟨fuel, rfl⟩ : ∃ n, fuel = n + 1 := ⟨fuel - 1, by omega⟩
      rw [List.map_cons, Member.entry] at hf
      have hlength := length_memberTokens_cons first member.field.name member.value
        (more.map Member.entry)
      have hpos := length_tokens_pos member.value
      obtain ⟨hmember, hmore⟩ := List.forall_mem_cons.1 hread
      obtain ⟨hfresh, hfreshes⟩ := List.forall_mem_cons.1 hseen
      rw [List.map_cons, List.nodup_cons] at hnodup
      have hvalue := hmember ending fuel depth fields
        (memberTokens false (more.map Member.entry) ++ .closeObject :: rest) (by omega)
      have hlater : ∀ other ∈ more, other.field ∉ member.field :: seen := by
        intro other ho hin
        rcases List.mem_cons.1 hin with heq | hin
        · exact hnodup.1 (heq ▸ List.mem_map_of_mem ho)
        · exact hfreshes other ho hin
      have hrest := ih fuel false (member.field :: seen) (member.store fields) hmore hlater hnodup.2
        (by omega)
      have hcheck : (if (Field.ofName? member.field.name).any seen.contains then
          some Fault.mismatched else none) = none := by
        simp [ofName_name, hfresh]
      rw [readMembers, List.map_cons, Member.entry, nextMember_memberTokens ending first hcheck,
        memberNesting, ok_bind]
      simp only [ofName_name]
      exact within_bind hvalue hrest

/-! ### The members of a node -/

/-- The member of a node's tag. -/
def tagMember (tag : String) : Member :=
  ⟨.tag, .string tag, fun fields => { fields with tag }⟩

/-- The member of a node's children. -/
def childrenMember (children : List Node) : Member :=
  ⟨.children, .array (toJsonList children), fun fields => { fields with children }⟩

/-- The member of a node's value. -/
def valueMember (value : String) : Member :=
  ⟨.value, .string value, fun fields => { fields with value := some value }⟩

/-- The member of an address. -/
def urlMember (url : String) : Member :=
  ⟨.url, .string url, fun fields => { fields with url := some url }⟩

/-- The member of a title, which is written also if there is none. -/
def titleMember (title : Option String) : Member :=
  ⟨.title, optionJson title, fun fields => { fields with title }⟩

/-- The member that tells whether a list or an item has blank lines in it. -/
def spreadMember (spread : Bool) : Member :=
  ⟨.spread, .bool spread, fun fields => { fields with spread := some spread }⟩

/-- The members of a hint, if there is one. -/
def hintFields (hint : Option String) : List Member :=
  (hint.map fun name => ⟨.hint, .object [("hName", .string name)],
    fun fields => { fields with hint := some name }⟩).toList

/-- The members of a position, if there is one. -/
def spanFields (span : Option Span) : List Member :=
  (span.map fun span => ⟨.span,
    .object [("start", offsetJson span.start), ("end", offsetJson span.stop)],
    fun fields => { fields with span := some span }⟩).toList

/-- The members that a node with children writes after its tag. -/
def branchFields (children : List Node) : Branch → List Member
  | .container _ hint span => hintFields hint ++ childrenMember children :: spanFields span
  | .heading depth =>
    [⟨.depth, .number depth.toUInt64, fun fields => { fields with depth := some depth }⟩,
      childrenMember children]
  | .list ordered start spread hint =>
    ⟨.ordered, .bool ordered, fun fields => { fields with ordered := some ordered }⟩ ::
      (start.map fun n =>
        ⟨.start, .number n, fun fields => { fields with start := some n }⟩).toList ++
      spreadMember spread :: hintFields hint ++ [childrenMember children]
  | .listItem spread checked hint =>
    spreadMember spread ::
      ⟨.checked, (checked.map Json.bool).getD .null, fun fields => { fields with checked }⟩ ::
      hintFields hint ++ [childrenMember children]
  | .link url title =>
    [urlMember url, titleMember title, childrenMember children]
  | .other _ value hint =>
    (value.map valueMember).toList ++ hintFields hint ++
      (if children.isEmpty then [] else [childrenMember children])

/-- The members that a leaf writes after its tag. -/
def leafFields : Leaf → List Member
  | .code language value =>
    [⟨.language, optionJson language, fun fields => { fields with language }⟩, valueMember value]
  | .html value | .text value | .inlineCode value => [valueMember value]
  | .image url title alt =>
    [urlMember url, titleMember title,
      ⟨.alt, .string alt, fun fields => { fields with alt := some alt }⟩]
  | .thematicBreak | .lineBreak => []

/-- The members that are read are those that are written. -/
theorem entry_branchFields (head : Branch) (children : List Node) :
    (branchFields children head).map Member.entry = branchMembers (toJsonList children) head := by
  have hhint (hint : Option String) : (hintFields hint).map Member.entry = hintMembers hint := by
    cases hint <;> rfl
  have hspan (span : Option Span) : (spanFields span).map Member.entry = spanMembers span := by
    cases span <;> rfl
  have hempty : (toJsonList children).isEmpty = children.isEmpty := by cases children <;> rfl
  cases head with
  | container kind hint span =>
      simp [branchFields, branchMembers, hhint, hspan, Member.entry, childrenMember, Field.name]
  | heading depth => rfl
  | list ordered start spread hint =>
      cases start <;>
        simp [branchFields, branchMembers, hhint, Member.entry, childrenMember, spreadMember,
          Field.name]
  | listItem spread checked hint =>
      simp [branchFields, branchMembers, hhint, Member.entry, childrenMember, spreadMember,
          Field.name]
  | link url title => rfl
  | other tag value hint =>
      cases value <;> cases h : children.isEmpty <;>
        simp [branchFields, branchMembers, hhint, Member.entry, childrenMember, valueMember,
          Field.name, hempty, h]

theorem entry_leafFields (content : Leaf) :
    (leafFields content).map Member.entry = leafMembers content := by
  cases content <;> rfl

/-- No member is written twice. -/
theorem nodup_branchFields (tag : String) (head : Branch) (children : List Node) :
    ((tagMember tag :: branchFields children head).map Member.field).Nodup := by
  cases head with
  | container kind hint span =>
      cases hint <;> cases span <;>
        simp [tagMember, branchFields, hintFields, spanFields, childrenMember]
  | heading depth => simp [tagMember, branchFields, childrenMember]
  | list ordered start spread hint =>
      cases start <;> cases hint <;>
        simp [tagMember, branchFields, hintFields, spreadMember, childrenMember]
  | listItem spread checked hint =>
      cases hint <;> simp [tagMember, branchFields, hintFields, spreadMember, childrenMember]
  | link url title => simp [tagMember, branchFields, urlMember, titleMember, childrenMember]
  | other tag value hint =>
      cases value <;> cases hint <;> cases children <;>
        simp [tagMember, branchFields, hintFields, valueMember, childrenMember]

theorem nodup_leafFields (tag : String) (content : Leaf) :
    ((tagMember tag :: leafFields content).map Member.field).Nodup := by
  cases content <;> simp [tagMember, leafFields, urlMember, titleMember, valueMember]

/-! ### Each member is read -/

theorem isRead_tagMember (tag : String) : (tagMember tag).IsRead :=
  Member.isRead_of_token rfl rfl fun _ _ _ _ _ => by
    simp only [tagMember, readField]
    rfl

theorem isRead_valueMember (value : String) : (valueMember value).IsRead :=
  Member.isRead_of_token rfl rfl fun _ _ _ _ _ => by
    simp only [valueMember, readField]
    rfl

theorem isRead_urlMember (url : String) : (urlMember url).IsRead :=
  Member.isRead_of_token rfl rfl fun _ _ _ _ _ => by
    simp only [urlMember, readField]
    rfl

theorem isRead_titleMember (title : Option String) : (titleMember title).IsRead := by
  cases title <;>
    exact Member.isRead_of_token rfl rfl fun _ _ _ _ _ => by
      simp only [titleMember, readField]
      rfl

theorem isRead_spreadMember (spread : Bool) : (spreadMember spread).IsRead :=
  Member.isRead_of_token rfl rfl fun _ _ _ _ _ => by
    simp only [spreadMember, readField]
    rfl

/-- A hint is read loosely, and its name is found. -/
theorem isRead_hintFields (hint : Option String) : ∀ member ∈ hintFields hint, member.IsRead := by
  cases hint with
  | none => simp [hintFields]
  | some name =>
      simp only [hintFields, Option.map_some, Option.toList_some, List.mem_singleton, forall_eq]
      refine Member.isRead_of_loose
        (fun fields data => { fields with hint := data.hint? }) (fun _ _ _ _ _ => ?_)
        (fun fields => ?_)
      · simp only [readField]
      · rfl

theorem offset_ofJson {offset : Nat} (h : offset < UInt64.size) :
    (Loose.ofJson (offsetJson offset)).offset? = some offset := by
  have hvalue : (UInt64.ofNat offset).toNat = offset := UInt64.toNat_ofNat_of_lt h
  simp [offsetJson, Loose.ofJson, Loose.ofMembers, Loose.offset?, Loose.member?, hvalue]

/-- A position is read loosely, and its offsets are found. -/
theorem isRead_spanFields {span : Option Span}
    (h : ∀ s, span = some s → s.start < UInt64.size ∧ s.stop < UInt64.size) :
    ∀ member ∈ spanFields span, member.IsRead := by
  cases span with
  | none => simp [spanFields]
  | some span =>
      simp only [spanFields, Option.map_some, Option.toList_some, List.mem_singleton, forall_eq]
      refine Member.isRead_of_loose
        (fun fields position => { fields with span := position.span? }) (fun _ _ _ _ _ => ?_)
        (fun fields => ?_)
      · simp only [readField]
      · obtain ⟨hstart, hstop⟩ := h span rfl
        simp [Loose.ofJson, Loose.ofMembers, Loose.span?, Loose.member?, offset_ofJson hstart,
          offset_ofJson hstop]

/-- Children are read if the nodes in their array are. -/
theorem isRead_childrenMember {children : List Node}
    (h : ∀ (ending : Ending) (fuel depth : Nat) (rest : List Token),
      (elementTokens true (toJsonList children)).length < fuel →
        readNodes ending fuel depth true
            (elementTokens true (toJsonList children) ++ .closeArray :: rest) =
          within (elementNesting (toJsonList children)) depth (children, rest)) :
    (childrenMember children).IsRead := by
  intro ending fuel depth fields rest hf
  obtain ⟨fuel, rfl⟩ : ∃ n, fuel = n + 1 := ⟨fuel - 1, by omega⟩
  have hlength : (elementTokens true (toJsonList children)).length < fuel := by
    simp [childrenMember, tokens] at hf
    omega
  simp only [childrenMember, tokens, nesting, List.cons_append, List.append_assoc, List.nil_append]
  cases depth with
  | zero =>
      rw [within_succ_zero]
      simp only [readField]
  | succ depth =>
      rw [within_succ_succ]
      simp only [readField]
      exact within_bind_ok (h ending fuel depth rest hlength) rfl

/-- Eight bits are read back from the number that is written for them. -/
theorem depthOf_toUInt64 (depth : UInt8) :
    depthOf? (.number (some depth.toUInt64)) = some depth := by
  have hlt : depth.toUInt64 < 256 := by
    rw [UInt64.lt_iff_toNat_lt]
    simpa using depth.toNat_lt
  simp [depthOf?, naturalOf?, hlt]

/-- Each member of a node with children is read as it was written, if its children are. -/
theorem isRead_branchFields {head : Branch} {children : List Node} (h : head.hasOffsets = true)
    (hc : (childrenMember children).IsRead) :
    ∀ member ∈ branchFields children head, member.IsRead := by
  cases head with
  | container kind hint span =>
      have hspan : ∀ s, span = some s → s.start < UInt64.size ∧ s.stop < UInt64.size := by
        rintro s rfl
        simpa [Branch.hasOffsets] using h
      simp only [branchFields, List.forall_mem_append, List.forall_mem_cons]
      exact ⟨isRead_hintFields hint, hc, isRead_spanFields hspan⟩
  | heading depth =>
      simp only [branchFields, List.forall_mem_cons]
      refine ⟨Member.isRead_of_token rfl rfl fun _ _ _ _ _ => ?_, hc, by simp⟩
      simp only [readField, readToken, orNull, depthOf_toUInt64, Option.map_some]
      rfl
  | list ordered start spread hint =>
      simp only [branchFields, List.cons_append, List.forall_mem_append, List.forall_mem_cons]
      refine ⟨Member.isRead_of_token rfl rfl fun _ _ _ _ _ => ?_,
        ⟨?_, isRead_spreadMember spread, isRead_hintFields hint⟩, hc, by simp⟩
      · simp only [readField]
        rfl
      · cases start with
        | none => simp
        | some n =>
            simp only [Option.map_some, Option.toList_some, List.mem_singleton, forall_eq]
            refine Member.isRead_of_token rfl rfl fun _ _ _ _ _ => ?_
            simp only [readField]
            rfl
  | listItem spread checked hint =>
      simp only [branchFields, List.cons_append, List.forall_mem_append, List.forall_mem_cons]
      refine ⟨isRead_spreadMember spread, ?_, isRead_hintFields hint, hc, by simp⟩
      cases checked <;> refine Member.isRead_of_token rfl rfl fun _ _ _ _ _ => ?_
      · simp only [readField]
        rfl
      · simp only [readField]
        rfl
  | link url title =>
      simp only [branchFields, List.forall_mem_cons]
      exact ⟨isRead_urlMember url, isRead_titleMember title, hc, by simp⟩
  | other tag value hint =>
      simp only [branchFields, List.forall_mem_append]
      refine ⟨⟨?_, isRead_hintFields hint⟩, ?_⟩
      · cases value with
        | none => simp
        | some text => simpa using isRead_valueMember text
      · split
        · simp
        · simpa using hc

/-- Each member of a leaf is read as it was written. -/
theorem isRead_leafFields (content : Leaf) : ∀ member ∈ leafFields content, member.IsRead := by
  cases content with
  | code language value =>
      simp only [leafFields, List.forall_mem_cons]
      refine ⟨?_, isRead_valueMember value, by simp⟩
      cases language <;> refine Member.isRead_of_token rfl rfl fun _ _ _ _ _ => ?_
      · simp only [readField]
        rfl
      · simp only [readField]
        rfl
  | html value | text value | inlineCode value => simpa [leafFields] using isRead_valueMember value
  | image url title alt =>
      simp only [leafFields, List.forall_mem_cons]
      refine ⟨isRead_urlMember url, isRead_titleMember title,
        Member.isRead_of_token rfl rfl fun _ _ _ _ _ => ?_, by simp⟩
      simp only [readField]
      rfl
  | thematicBreak | lineBreak => simp [leafFields]

/-- The fields that a node with children stores make up the node. -/
theorem ofFields_branchFields {head : Branch} (h : head.hasOwnTag = true) (children : List Node) :
    ofFields ((tagMember head.tag :: branchFields children head).foldl
      (fun fields member => member.store fields) {}) = .branch head children := by
  cases head with
  | container kind hint span =>
      cases hint <;> cases span <;> cases kind <;> rfl
  | heading depth => rfl
  | list ordered start spread hint => cases start <;> cases hint <;> rfl
  | listItem spread checked hint => cases hint <;> rfl
  | link url title => rfl
  | other tag value hint =>
      have htag : tag ∉ knownTags := by simpa [Branch.hasOwnTag] using h
      rw [ofFields_of_not_mem (by cases value <;> cases hint <;> cases children <;> exact htag)]
      cases value <;> cases hint <;> cases children <;> rfl

/-- From its members a leaf comes back. -/
theorem ofFields_leafFields (content : Leaf) :
    ofFields ((tagMember content.tag :: leafFields content).foldl
      (fun fields member => member.store fields) {}) = .leaf content := by
  cases content <;> rfl

end Node

end DefinitionLists
