/-
Module: DefinitionLists.Proofs.Node.Loose
Purpose: What a reader does with the tokens of a JSON value, up to the depth that it allows: the marks
  between elements and members, and values that may be anything.
Main exports: within, nextElement_elementTokens, nextMember_memberTokens, Loose.ofJson,
  readLoose_tokens
-/
import DefinitionLists.Node.Reader
import DefinitionLists.Proofs.Json.Nesting

namespace DefinitionLists.Node

open Json

/-- What comes of reading a value that has so many containers around one another, where so many may
be open: the result, or a fault of form if there are too many. -/
def within {α : Type} (nesting depth : Nat) (result : α) : Except Fault α :=
  if nesting ≤ depth then .ok result else .error .malformed

@[simp] theorem within_zero {α : Type} (depth : Nat) (result : α) :
    within 0 depth result = .ok result := by
  simp [within]

@[simp] theorem within_succ_zero {α : Type} (nesting : Nat) (result : α) :
    within (nesting + 1) 0 result = .error .malformed := by
  simp [within]

@[simp] theorem within_succ_succ {α : Type} (nesting depth : Nat) (result : α) :
    within (nesting + 1) (depth + 1) result = within nesting depth result := by
  simp [within]

theorem ok_bind {α β : Type} (a : α) (f : α → Except Fault β) : (Except.ok a >>= f) = f a := rfl

/-- Of two values read one after the other, both have to stay within the depth. -/
theorem within_bind {α β : Type} {first second depth : Nat} {a : α} {b : β} {read : Except Fault α}
    {f : α → Except Fault β} (hr : read = within first depth a) (hf : f a = within second depth b) :
    (read >>= f) = within (max first second) depth b := by
  rw [hr]
  unfold within at *
  by_cases hfirst : first ≤ depth
  · rw [if_pos hfirst, ok_bind, hf]
    simp only [Nat.max_le, hfirst, true_and]
  · rw [if_neg hfirst, if_neg (by omega)]
    rfl

/-- What cannot fail after a value is read does not change how deep it may be. -/
theorem within_bind_ok {α β : Type} {nesting depth : Nat} {a : α} {b : β} {read : Except Fault α}
    {f : α → Except Fault β} (hr : read = within nesting depth a) (hf : f a = .ok b) :
    (read >>= f) = within nesting depth b := by
  have hsecond : f a = within 0 depth b := by rw [hf, within_zero]
  rw [within_bind hr hsecond, Nat.max_zero]

/-! ### Between elements and members -/

/-- A value starts with a token that opens it, or that it consists of. -/
theorem exists_tokens_eq_cons (value : Json) : ∃ token more, value.tokens = token :: more ∧
    token ≠ .closeArray := by
  cases value <;> exact ⟨_, _, rfl, by simp⟩

theorem length_tokens_pos (value : Json) : 0 < value.tokens.length := by
  obtain ⟨token, more, heq, -⟩ := exists_tokens_eq_cons value
  simp [heq]

theorem length_elementTokens_cons (first : Bool) (value : Json) (more : List Json) :
    value.tokens.length + (elementTokens false more).length ≤
      (elementTokens first (value :: more)).length := by
  simp [elementTokens]

theorem length_memberTokens_cons (first : Bool) (name : String) (value : Json)
    (more : List (String × Json)) :
    value.tokens.length + (memberTokens false more).length + 2 ≤
      (memberTokens first ((name, value) :: more)).length := by
  simp [memberTokens]

theorem nextElement_close (ending : Ending) (first : Bool) (rest : List Token) :
    nextElement ending first (.closeArray :: rest) = .ok (.close, rest) :=
  rfl

theorem nextElement_elementTokens (ending : Ending) (first : Bool) (value : Json) (more : List Json)
    (rest : List Token) : nextElement ending first (elementTokens first (value :: more) ++ rest) =
      .ok (.more, value.tokens ++ (elementTokens false more ++ rest)) := by
  obtain ⟨token, later, heq, hne⟩ := exists_tokens_eq_cons value
  cases first
  · simp [elementTokens, nextElement, heq, hne]
  · simp [elementTokens, nextElement, heq]

theorem nextMember_close (ending : Ending) (first : Bool) (check : String → Option Fault)
    (rest : List Token) : nextMember ending first check (.closeObject :: rest) = .ok (none, rest) :=
  rfl

/-- The name of the next member is read, and its value is left. -/
theorem nextMember_memberTokens (ending : Ending) (first : Bool) {check : String → Option Fault}
    {name : String} (hc : check name = none) (value : Json) (more : List (String × Json))
    (rest : List Token) :
    nextMember ending first check (memberTokens first ((name, value) :: more) ++ rest) =
      .ok (some name, value.tokens ++ (memberTokens false more ++ rest)) := by
  cases first <;> simp [memberTokens, nextMember, hc]

/-! ### Values that may be anything -/

mutual

/-- What is kept of a JSON value that may be anything. -/
def Loose.ofJson : Json → Loose
  | .null | .bool _ | .array _ => .other
  | .number value => .natural value
  | .string value => .string value
  | .object members => .object (Loose.ofMembers members)

/-- What is kept of members that may be anything. -/
def Loose.ofMembers : List (String × Json) → List (String × Loose)
  | [] => []
  | (name, value) :: more => (name, Loose.ofJson value) :: Loose.ofMembers more

end

mutual

/-- A value of any kind is read over, if it is not too deep. -/
theorem readLoose_tokens (ending : Ending) : ∀ (value : Json) (fuel depth : Nat)
    (rest : List Token), value.tokens.length ≤ fuel →
      readLoose ending fuel depth (value.tokens ++ rest) =
        within value.nesting depth (Loose.ofJson value, rest)
  | value, 0, depth, rest, hf => by
      obtain ⟨token, later, heq, -⟩ := exists_tokens_eq_cons value
      simp [heq] at hf
  | .null, fuel + 1, depth, rest, _ | .bool _, fuel + 1, depth, rest, _
  | .number _, fuel + 1, depth, rest, _ | .string _, fuel + 1, depth, rest, _ => by
      simp [tokens, readLoose, nesting, Loose.ofJson]
  | .array elements, fuel + 1, 0, rest, _ => by
      simp [tokens, readLoose, nesting]
  | .array elements, fuel + 1, depth + 1, rest, hf => by
      have helements := readLooseElements_tokens ending elements fuel true depth rest
        (by simp [tokens] at hf; omega)
      simp [tokens, readLoose, nesting, Loose.ofJson, helements]
  | .object members, fuel + 1, 0, rest, _ => by
      simp [tokens, readLoose, nesting]
  | .object members, fuel + 1, depth + 1, rest, hf => by
      have hmembers := readLooseMembers_tokens ending members fuel true depth rest
        (by simp [tokens] at hf; omega)
      simp only [tokens, List.cons_append, List.append_assoc, List.nil_append, readLoose, nesting,
        within_succ_succ]
      exact within_bind_ok hmembers rfl

theorem readLooseElements_tokens (ending : Ending) : ∀ (elements : List Json) (fuel : Nat)
    (first : Bool) (depth : Nat) (rest : List Token), (elementTokens first elements).length < fuel →
      readLooseElements ending fuel depth first
          (elementTokens first elements ++ .closeArray :: rest) =
        within (elementNesting elements) depth (Loose.other, rest)
  | [], fuel + 1, first, depth, rest, _ => by
      rw [readLooseElements, elementTokens, List.nil_append, nextElement_close, elementNesting,
        within_zero]
      rfl
  | value :: more, fuel + 1, first, depth, rest, hf => by
      have hlength := length_elementTokens_cons first value more
      have hpos := length_tokens_pos value
      have hvalue := readLoose_tokens ending value fuel depth
        (elementTokens false more ++ .closeArray :: rest) (by omega)
      have hmore := readLooseElements_tokens ending more fuel false depth rest (by omega)
      rw [readLooseElements, nextElement_elementTokens, elementNesting, ok_bind]
      exact within_bind hvalue hmore

theorem readLooseMembers_tokens (ending : Ending) : ∀ (members : List (String × Json)) (fuel : Nat)
    (first : Bool) (depth : Nat) (rest : List Token), (memberTokens first members).length < fuel →
      readLooseMembers ending fuel depth first
          (memberTokens first members ++ .closeObject :: rest) =
        within (memberNesting members) depth (Loose.ofMembers members, rest)
  | [], fuel + 1, first, depth, rest, _ => by
      rw [readLooseMembers, memberTokens, List.nil_append, nextMember_close, memberNesting,
        within_zero]
      rfl
  | (name, value) :: more, fuel + 1, first, depth, rest, hf => by
      have hlength := length_memberTokens_cons first name value more
      have hpos := length_tokens_pos value
      have hvalue := readLoose_tokens ending value fuel depth
        (memberTokens false more ++ .closeObject :: rest) (by omega)
      have hmore := readLooseMembers_tokens ending more fuel false depth rest (by omega)
      rw [readLooseMembers, nextMember_memberTokens ending first rfl, memberNesting, ok_bind]
      exact within_bind hvalue (within_bind_ok hmore rfl)

end

end DefinitionLists.Node
