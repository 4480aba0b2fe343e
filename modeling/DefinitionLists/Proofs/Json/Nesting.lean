/-
Module: DefinitionLists.Proofs.Json.Nesting
Purpose: The tokens that stand for a JSON value, and how many containers are open at once in them.
Main exports: Json.tokens, Json.nesting, Json.mostOpen, mostOpenFrom_tokens
-/
import DefinitionLists.Json
import DefinitionLists.Json.Token

namespace DefinitionLists.Json

mutual

/-- The tokens of a value. -/
def tokens : Json → List Token
  | .null => [.null]
  | .bool value => [.bool value]
  | .number value => [.number (some value)]
  | .string value => [.string value]
  | .array elements => .openArray :: elementTokens true elements ++ [.closeArray]
  | .object members => .openObject :: memberTokens true members ++ [.closeObject]

/-- The tokens of elements. A comma comes before each but the first of the array. -/
def elementTokens (first : Bool) : List Json → List Token
  | [] => []
  | value :: more => (if first then [] else [.comma]) ++ tokens value ++ elementTokens false more

/-- The tokens of members. A comma comes before each but the first of the object. -/
def memberTokens (first : Bool) : List (String × Json) → List Token
  | [] => []
  | (name, value) :: more =>
    (if first then [] else [.comma]) ++ .string name :: .colon :: tokens value ++
      memberTokens false more

end

mutual

/-- How many containers lie around one another in a value, at most. -/
def nesting : Json → Nat
  | .null | .bool _ | .number _ | .string _ => 0
  | .array elements => elementNesting elements + 1
  | .object members => memberNesting members + 1

/-- How many containers lie around one another in an element, at most. -/
def elementNesting : List Json → Nat
  | [] => 0
  | value :: more => max (nesting value) (elementNesting more)

/-- How many containers lie around one another in the value of a member, at most. -/
def memberNesting : List (String × Json) → Nat
  | [] => 0
  | (_, value) :: more => max (nesting value) (memberNesting more)

end

/-- How many containers are open after a token, if `count` are before. -/
def openAfter (count : Nat) : Token → Nat
  | .openArray | .openObject => count + 1
  | .closeArray | .closeObject => count - 1
  | _ => count

/-- How many containers are open at once, at most, if `count` are before the tokens. -/
def mostOpenFrom (count : Nat) : List Token → Nat
  | [] => count
  | token :: more => max count (mostOpenFrom (openAfter count token) more)

/-- How many containers of a JSON text are open at once, at most. -/
def mostOpen (text : String) : Nat := mostOpenFrom 0 (Token.scan text.toList).1

/-- The containers that are open at the start count as well. -/
theorem le_mostOpenFrom (count : Nat) (tokens : List Token) : count ≤ mostOpenFrom count tokens := by
  cases tokens with
  | nil => exact Nat.le_refl _
  | cons token more => exact Nat.le_max_left _ _

/-- A token that opens and closes nothing leaves the count as it is. -/
theorem mostOpenFrom_cons {count : Nat} (token : Token) (more : List Token)
    (h : openAfter count token = count) :
    mostOpenFrom count (token :: more) = mostOpenFrom count more := by
  rw [mostOpenFrom, h, Nat.max_eq_right (le_mostOpenFrom count more)]

mutual

/-- A value adds its own nesting to what is open around it, and leaves that open. -/
theorem mostOpenFrom_tokens (count : Nat) :
    ∀ (value : Json) (rest : List Token), mostOpenFrom count (tokens value ++ rest) =
      max (count + nesting value) (mostOpenFrom count rest)
  | .null, rest | .bool _, rest | .number _, rest | .string _, rest => by
      simp [tokens, nesting, mostOpenFrom, openAfter]
  | .array elements, rest => by
      have helements := mostOpenFrom_elementTokens (count + 1) true elements (.closeArray :: rest)
      simp only [tokens, nesting, List.cons_append, List.append_assoc, List.nil_append,
        mostOpenFrom, openAfter, Nat.add_sub_cancel] at helements ⊢
      rw [helements]
      have := le_mostOpenFrom count rest
      omega
  | .object members, rest => by
      have hmembers := mostOpenFrom_memberTokens (count + 1) true members (.closeObject :: rest)
      simp only [tokens, nesting, List.cons_append, List.append_assoc, List.nil_append,
        mostOpenFrom, openAfter, Nat.add_sub_cancel] at hmembers ⊢
      rw [hmembers]
      have := le_mostOpenFrom count rest
      omega

/-- After elements as many containers are open as before them. -/
theorem mostOpenFrom_elementTokens (count : Nat) :
    ∀ (first : Bool) (elements : List Json) (rest : List Token),
      mostOpenFrom count (elementTokens first elements ++ rest) =
        max (count + elementNesting elements) (mostOpenFrom count rest)
  | _, [], rest => by
      have := le_mostOpenFrom count rest
      simp only [elementTokens, elementNesting, List.nil_append]
      omega
  | first, value :: more, rest => by
      have hcomma : mostOpenFrom count (elementTokens first (value :: more) ++ rest) =
          mostOpenFrom count (tokens value ++ (elementTokens false more ++ rest)) := by
        cases first
        · simp [elementTokens, mostOpenFrom_cons .comma _ rfl]
        · simp [elementTokens]
      rw [hcomma, mostOpenFrom_tokens, mostOpenFrom_elementTokens, elementNesting]
      omega

theorem mostOpenFrom_memberTokens (count : Nat) :
    ∀ (first : Bool) (members : List (String × Json)) (rest : List Token),
      mostOpenFrom count (memberTokens first members ++ rest) =
        max (count + memberNesting members) (mostOpenFrom count rest)
  | _, [], rest => by
      have := le_mostOpenFrom count rest
      simp only [memberTokens, memberNesting, List.nil_append]
      omega
  | first, (name, value) :: more, rest => by
      have hname : mostOpenFrom count (memberTokens first ((name, value) :: more) ++ rest) =
          mostOpenFrom count (tokens value ++ (memberTokens false more ++ rest)) := by
        cases first <;>
          simp [memberTokens, mostOpenFrom_cons .comma _ rfl,
            mostOpenFrom_cons (.string name) _ rfl,
            mostOpenFrom_cons .colon _ rfl]
      rw [hname, mostOpenFrom_tokens, mostOpenFrom_memberTokens, memberNesting]
      omega

end

end DefinitionLists.Json
