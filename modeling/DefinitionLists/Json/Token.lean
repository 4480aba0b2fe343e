/-
Module: DefinitionLists.Json.Token
Purpose: JSON text as a sequence of tokens, and what ends the sequence.
Main exports: Fault, Token, Ending, Token.scan
-/
import DefinitionLists.Text.Span

namespace DefinitionLists.Json

open Text (byteLength)

/-- Why a JSON text is not accepted: its form is wrong, its form is right so far but not the one that
the reader needs, or it stops too early. -/
inductive Fault where
  | malformed
  | mismatched
  | truncated
deriving Repr, Inhabited, DecidableEq

/-- A token of JSON text. Some strings and numbers stand for no value; they are accepted only within
a value that nobody reads. -/
inductive Token where
  | openArray
  | closeArray
  | openObject
  | closeObject
  | comma
  | colon
  | null
  | bool (value : Bool)
  /-- A number; its value if it is a natural number that fits 64 bits. -/
  | number (value : Option UInt64)
  /-- A number too large for a double. -/
  | hugeNumber
  | string (value : String)
  /-- A string with half of a surrogate pair. -/
  | brokenString
deriving Repr, Inhabited, DecidableEq

/-- What stops the tokens: the end of the text, or something that is no token, which may be a string
without an end. The fault may differ for a reader that skips a value and for one that reads it. -/
inductive Ending where
  | finished
  | stopped (inString : Bool) (whenRead whenSkipped : Fault)
deriving Repr, Inhabited, DecidableEq

namespace Ending

/-- The fault where a value should be. -/
def atValue : Ending → Fault
  | .finished => .truncated
  | .stopped _ whenRead _ => whenRead

/-- The fault where a value should be that is skipped. -/
def atSkippedValue : Ending → Fault
  | .finished => .truncated
  | .stopped _ _ whenSkipped => whenSkipped

/-- The fault where the name of a member should be. -/
def atName : Ending → Fault
  | .finished => .truncated
  | .stopped inString whenRead _ => if inString then whenRead else .malformed

/-- The fault where the name of a member should be that is skipped. -/
def atSkippedName : Ending → Fault
  | .finished => .truncated
  | .stopped inString _ whenSkipped => if inString then whenSkipped else .malformed

/-- The fault where a comma, a colon or a closing bracket should be. -/
def atMark : Ending → Fault
  | .finished => .truncated
  | .stopped _ _ _ => .malformed

end Ending

namespace Token

/-- The white space of JSON text. -/
def isSpace (c : Char) : Bool := c == ' ' || c == '\n' || c == '\t' || c == '\r'

/-- The value of a hexadecimal digit of either case. -/
def hexValue? (c : Char) : Option Nat :=
  if c.isDigit then some (c.toNat - '0'.toNat)
  else if 'a' ≤ c ∧ c ≤ 'f' then some (c.toNat - 'a'.toNat + 10)
  else if 'A' ≤ c ∧ c ≤ 'F' then some (c.toNat - 'A'.toNat + 10)
  else none

/-- The number that four hexadecimal digits write. -/
def hexQuad? (a b c d : Char) : Option Nat := do
  let a ← hexValue? a
  let b ← hexValue? b
  let c ← hexValue? c
  let d ← hexValue? d
  return ((a * 16 + b) * 16 + c) * 16 + d

/-- The character that a letter stands for after a backslash. -/
def simpleEscape? (c : Char) : Option Char :=
  match c with
  | '"' => some '"'
  | '\\' => some '\\'
  | '/' => some '/'
  | 'b' => some '\x08'
  | 'f' => some '\x0c'
  | 'n' => some '\n'
  | 'r' => some '\r'
  | 't' => some '\t'
  | _ => none

/-- Whether the code unit is the first half of a surrogate pair. -/
def isHighSurrogate (n : Nat) : Bool := 0xd800 ≤ n && n ≤ 0xdbff

/-- Whether the code unit is the second half of a surrogate pair. -/
def isLowSurrogate (n : Nat) : Bool := 0xdc00 ≤ n && n ≤ 0xdfff

/-- What is known of a string being scanned: the characters so far, the last one first; the first
half of a surrogate pair that waits for its other half; and whether a half was left alone. -/
structure Partial where
  chars : List Char
  half : Option Nat
  broken : Bool
deriving Repr, Inhabited

namespace Partial

/-- Nothing scanned yet. -/
def start : Partial := ⟨[], none, false⟩

/-- The string goes on with a character; a waiting half stays alone. -/
def push (part : Partial) (c : Char) : Partial :=
  ⟨c :: part.chars, none, part.broken || part.half.isSome⟩

/-- The string goes on with a code unit of four hexadecimal digits. -/
def pushUnit (part : Partial) (unit : Nat) : Partial :=
  match part.half with
  | some high =>
    if isLowSurrogate unit then
      ⟨Char.ofNat ((high - 0xd800) * 0x400 + (unit - 0xdc00) + 0x10000) :: part.chars, none,
        part.broken⟩
    else ⟨part.chars, none, true⟩
  | none =>
    if isHighSurrogate unit then { part with half := some unit }
    else if isLowSurrogate unit then { part with broken := true }
    else { part with chars := Char.ofNat unit :: part.chars }

/-- The token of the finished string. -/
def token (part : Partial) : Token :=
  if part.broken || part.half.isSome then .brokenString
  else .string (String.ofList part.chars.reverse)

/-- The ending when the string has a fault. A half that was left alone is met before. -/
def ending (part : Partial) (fault : Fault) : Ending :=
  .stopped true (if part.broken then .malformed else fault) fault

/-- The ending when the string has a fault where a waiting half needs its other half. -/
def endingAfterHalf (part : Partial) (fault : Fault) : Ending :=
  { part with broken := part.broken || part.half.isSome }.ending fault

end Partial

/-- Scans a string after its opening quote: its token and the text after the closing quote, or the
ending of the tokens. -/
def scanString (part : Partial) : List Char → Except Ending (Token × List Char)
  | [] => .error (part.ending .truncated)
  | '"' :: rest => .ok (part.token, rest)
  | ['\\'] => .error (part.ending .truncated)
  | '\\' :: 'u' :: a :: b :: c :: d :: rest =>
    match hexQuad? a b c d with
    | some unit => scanString (part.pushUnit unit) rest
    | none => .error (part.ending .malformed)
  | '\\' :: 'u' :: rest =>
    .error (part.ending (if byteLength rest < 4 then .truncated else .malformed))
  | '\\' :: c :: rest =>
    match simpleEscape? c with
    | some c => scanString (part.push c) rest
    | none => .error (part.endingAfterHalf .malformed)
  | c :: rest =>
    if c.toNat < 32 then .error (part.endingAfterHalf .malformed) else scanString (part.push c) rest

/-- Whether `significand` times ten to the power of `exponent` rounds to more than the largest
double. -/
def exceedsDouble (significand : Nat) (exponent : Int) : Bool :=
  let bound := Nat.pow 2 1024 - Nat.pow 2 970
  let magnitude := (Nat.toDigits 10 significand).length + exponent
  if significand = 0 then false
  else if magnitude > 309 then true
  else if magnitude < 309 then false
  else if 0 ≤ exponent then decide (significand * Nat.pow 10 exponent.toNat ≥ bound)
  else decide (significand ≥ bound * Nat.pow 10 (-exponent).toNat)

/-- The token of a number from its digits before and after the point and its exponent, if it has
these. -/
def numberToken (negative : Bool) (whole : List Char) (fraction : Option (List Char))
    (exponent : Option Int) : Token :=
  let value (digits : List Char) : Nat :=
    digits.foldl (fun n c => n * 10 + (c.toNat - '0'.toNat)) 0
  let decimals := fraction.getD []
  if exceedsDouble (value (whole ++ decimals)) (exponent.getD 0 - decimals.length) then .hugeNumber
  else
    match negative, fraction, exponent with
    | false, none, none =>
      if value whole < UInt64.size then .number (some (UInt64.ofNat (value whole))) else .number none
    | _, _, _ => .number none

/-- The ending of a number that lacks a digit before `rest`. At the end of the text a reader takes
it for cut off. -/
def missingDigit (rest : List Char) : Ending :=
  .stopped false (if rest.isEmpty then .truncated else .malformed) .malformed

/-- Scans what follows the digits of a number: its exponent, if it has one. -/
def scanExponent (negative : Bool) (whole : List Char) (fraction : Option (List Char))
    (rest : List Char) : Except Ending (Token × List Char) :=
  match rest with
  | mark :: after =>
    if mark = 'e' ∨ mark = 'E' then
      let (sign, after) : Int × List Char := match after with
        | '+' :: after => (1, after)
        | '-' :: after => (-1, after)
        | _ => (1, after)
      match after.takeWhile Char.isDigit with
      | [] => .error (missingDigit after)
      | digits =>
        let value := digits.foldl (fun n c => n * 10 + (c.toNat - '0'.toNat)) 0
        .ok (numberToken negative whole fraction (some (sign * value)),
          after.dropWhile Char.isDigit)
    else .ok (numberToken negative whole fraction none, rest)
  | [] => .ok (numberToken negative whole fraction none, [])

/-- Scans a number after its sign. A number of several digits does not start with a zero. -/
def scanNumber (negative : Bool) (text : List Char) : Except Ending (Token × List Char) :=
  match text.takeWhile Char.isDigit with
  | [] => .error (missingDigit text)
  | '0' :: _ :: _ => .error (.stopped false .malformed .malformed)
  | whole =>
    match text.dropWhile Char.isDigit with
    | '.' :: after =>
      match after.takeWhile Char.isDigit with
      | [] => .error (missingDigit after)
      | digits => scanExponent negative whole (some digits) (after.dropWhile Char.isDigit)
    | rest => scanExponent negative whole none rest

/-- Scans the rest of a word of letters. -/
def scanWord (token : Token) : (letters text : List Char) → Except Ending (Token × List Char)
  | [], rest => .ok (token, rest)
  | _ :: _, [] => .error (.stopped false .truncated .truncated)
  | letter :: letters, c :: rest =>
    if c = letter then scanWord token letters rest else .error (.stopped false .malformed .malformed)

/-- Scans one token that starts with the given character. -/
def scanOne (c : Char) (rest : List Char) : Except Ending (Token × List Char) :=
  match c with
  | '[' => .ok (.openArray, rest)
  | ']' => .ok (.closeArray, rest)
  | '\x7b' => .ok (.openObject, rest)
  | '\x7d' => .ok (.closeObject, rest)
  | ',' => .ok (.comma, rest)
  | ':' => .ok (.colon, rest)
  | '"' => scanString .start rest
  | 'n' => scanWord .null ['u', 'l', 'l'] rest
  | 't' => scanWord (.bool true) ['r', 'u', 'e'] rest
  | 'f' => scanWord (.bool false) ['a', 'l', 's', 'e'] rest
  | '-' => scanNumber true rest
  | c => if c.isDigit then scanNumber false (c :: rest) else .error (.stopped false .malformed .malformed)

/-- Scans at most `fuel` tokens and spaces. -/
def scanFrom : (fuel : Nat) → List Char → List Token × Ending
  | 0, _ => ([], .finished)
  | _ + 1, [] => ([], .finished)
  | fuel + 1, c :: rest =>
    if isSpace c then scanFrom fuel rest
    else
      match scanOne c rest with
      | .error ending => ([], ending)
      | .ok (token, rest) =>
        let (tokens, ending) := scanFrom fuel rest
        (token :: tokens, ending)

/-- The tokens of a text, up to its end or to the first place that holds no token. -/
def scan (text : List Char) : List Token × Ending :=
  scanFrom text.length text

end Token

end DefinitionLists.Json
