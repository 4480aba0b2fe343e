/-
Module: DefinitionLists.Json
Purpose: JSON values whose members keep their order, and the two ways to write them as text.
Main exports: Json, Json.compact, Json.pretty
-/

namespace DefinitionLists

/-- A JSON value. Its numbers are the natural numbers that fit 64 bits. -/
inductive Json where
  | null
  | bool (value : Bool)
  | number (value : UInt64)
  | string (value : String)
  | array (elements : List Json)
  | object (members : List (String × Json))
deriving Repr, Inhabited

namespace Json

/-- A digit of a number to the base 16, in lower case. -/
def hexDigit (n : Nat) : Char :=
  if n < 10 then Char.ofNat (n + '0'.toNat) else Char.ofNat (n - 10 + 'a'.toNat)

/-- How a character stands within a written string: quotes, backslashes and control characters are
escaped, all others stand for themselves. -/
def escape (c : Char) : List Char :=
  if c = '"' then ['\\', '"']
  else if c = '\\' then ['\\', '\\']
  else if c = '\x08' then ['\\', 'b']
  else if c = '\x0c' then ['\\', 'f']
  else if c = '\n' then ['\\', 'n']
  else if c = '\r' then ['\\', 'r']
  else if c = '\t' then ['\\', 't']
  else if c.toNat < 32 then ['\\', 'u', '0', '0', hexDigit (c.toNat / 16), hexDigit (c.toNat % 16)]
  else [c]

/-- A string in quotes. -/
def quoted (value : String) : List Char :=
  '"' :: value.toList.flatMap escape ++ ['"']

/-- The text of a value that holds no others. -/
def scalar : Json → List Char
  | .null => "null".toList
  | .bool true => "true".toList
  | .bool false => "false".toList
  | .number value => (toString value.toNat).toList
  | .string value => quoted value
  | .array _ | .object _ => []

mutual

/-- The value on one line without spaces, before `rest`. -/
def writeCompact : Json → (rest : List Char) → List Char
  | .array elements, rest => '[' :: writeElements elements (']' :: rest)
  | .object members, rest => '\x7b' :: writeMembers members ('\x7d' :: rest)
  | value, rest => scalar value ++ rest

/-- The elements with commas between them, before `rest`. -/
def writeElements : List Json → (rest : List Char) → List Char
  | [], rest => rest
  | [value], rest => writeCompact value rest
  | value :: more, rest => writeCompact value (',' :: writeElements more rest)

/-- The members with commas between them, before `rest`. -/
def writeMembers : List (String × Json) → (rest : List Char) → List Char
  | [], rest => rest
  | [(name, value)], rest => quoted name ++ ':' :: writeCompact value rest
  | (name, value) :: more, rest =>
    quoted name ++ ':' :: writeCompact value (',' :: writeMembers more rest)

end

/-- A new line, indented by two spaces for each level, before `rest`. -/
def newLine (level : Nat) (rest : List Char) : List Char :=
  '\n' :: List.replicate (2 * level) ' ' ++ rest

mutual

/-- The value with one element or member to a line, before `rest`. Empty containers stay on one
line. -/
def writePretty (level : Nat) : Json → (rest : List Char) → List Char
  | .array [], rest => '[' :: ']' :: rest
  | .array elements, rest =>
    '[' :: writePrettyElements (level + 1) elements (newLine level (']' :: rest))
  | .object [], rest => '\x7b' :: '\x7d' :: rest
  | .object members, rest =>
    '\x7b' :: writePrettyMembers (level + 1) members (newLine level ('\x7d' :: rest))
  | value, rest => scalar value ++ rest

/-- The elements, each on a line of its own, before `rest`. -/
def writePrettyElements (level : Nat) : List Json → (rest : List Char) → List Char
  | [], rest => rest
  | [value], rest => newLine level (writePretty level value rest)
  | value :: more, rest =>
    newLine level (writePretty level value (',' :: writePrettyElements level more rest))

/-- The members, each on a line of its own, before `rest`. -/
def writePrettyMembers (level : Nat) : List (String × Json) → (rest : List Char) → List Char
  | [], rest => rest
  | [(name, value)], rest =>
    newLine level (quoted name ++ ':' :: ' ' :: writePretty level value rest)
  | (name, value) :: more, rest =>
    newLine level (quoted name ++ ':' :: ' ' ::
      writePretty level value (',' :: writePrettyMembers level more rest))

end

/-- The value on one line without spaces. -/
def compact (value : Json) : String := String.ofList (writeCompact value [])

/-- The value with one element or member to a line, indented by two spaces for each level. -/
def pretty (value : Json) : String := String.ofList (writePretty 0 value [])

end Json

end DefinitionLists
