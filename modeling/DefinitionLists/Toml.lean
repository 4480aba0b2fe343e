/-
Module: DefinitionLists.Toml
Purpose: Reading TOML documents of texts, truth values, arrays and tables. No setting is a number or a
  date, so a document that holds one is refused.
Main exports: Toml, Toml.Members, Toml.read?
-/
import DefinitionLists.Text.Entity

namespace DefinitionLists

/-- How a table came to be, which decides what may be added to it. -/
inductive Toml.Origin where
  /-- It has a header of its own. -/
  | header
  /-- The header of a table inside of it is all there is. -/
  | implied
  /-- A dotted key made it. -/
  | dotted
  /-- It stands in braces. -/
  | inline
deriving Repr, Inhabited, DecidableEq

/-- A value of a TOML document. -/
inductive Toml where
  | text (value : String)
  | truth (value : Bool)
  | array (elements : List Toml)
  | table (origin : Toml.Origin) (members : List (String × Toml))
  /-- Tables with one header each, the last one first. -/
  | tables (elements : List (List (String × Toml)))
deriving Inhabited

namespace Toml

/-- What a table holds, by name. -/
abbrev Members := List (String × Toml)

/-- The members with one replaced, or added at the end. -/
def put (key : String) (value : Toml) : Members → Members
  | [] => [(key, value)]
  | (name, old) :: more => if name = key then (name, value) :: more else (name, old) :: put key value more

/-- Adds a value under a dotted key. A key is given once, and only dotted keys add to tables of
dotted keys. -/
def insert? (value : Toml) : (path : List String) → Members → Option Members
  | [], _ => none
  | [key], members => if (members.lookup key).isSome then none else some (put key value members)
  | key :: more, members =>
    match members.lookup key with
    | none => (insert? value more []).map (fun inner => put key (.table .dotted inner) members)
    | some (.table .dotted inner) =>
      (insert? value more inner).map (fun inner => put key (.table .dotted inner) members)
    | some _ => none

/-- Changes the table at a path of headers; of several tables with one header, the last. A table on
the way that is missing is made if `make` is set. -/
def change? (make : Bool) (f : String → Members → Option Members) :
    (path : List String) → Members → Option Members
  | [], _ => none
  | [key], members => f key members
  | key :: more, members =>
    match members.lookup key with
    | none =>
      if make then (change? make f more []).map (fun inner => put key (.table .implied inner) members)
      else none
    | some (.table .inline _) => none
    | some (.table origin inner) =>
      (change? make f more inner).map (fun inner => put key (.table origin inner) members)
    | some (.tables (last :: earlier)) =>
      (change? make f more last).map (fun last => put key (.tables (last :: earlier)) members)
    | some _ => none

/-- Opens a table by its header. Each table has one header. -/
def openTable? (path : List String) (members : Members) : Option Members :=
  change? true (fun key members =>
    match members.lookup key with
    | none => some (put key (.table .header []) members)
    | some (.table .implied inner) => some (put key (.table .header inner) members)
    | some _ => none) path members

/-- Opens one more of several tables with one header. -/
def openTables? (path : List String) (members : Members) : Option Members :=
  change? true (fun key members =>
    match members.lookup key with
    | none => some (put key (.tables [[]]) members)
    | some (.tables elements) => some (put key (.tables ([] :: elements)) members)
    | some _ => none) path members

/-- Adds a value to the table that was opened last, or to the document if none was. -/
def insertInto? (opened key : List String) (value : Toml) (members : Members) : Option Members :=
  if opened.isEmpty then insert? value key members
  else change? false (fun name members =>
    match members.lookup name with
    | some (.table origin inner) =>
      (insert? value key inner).map (fun inner => put name (.table origin inner) members)
    | some (.tables (last :: earlier)) =>
      (insert? value key last).map (fun last => put name (.tables (last :: earlier)) members)
    | _ => none) opened members

/-- Whether the character may stand in comments and texts: no control character but the tab. -/
def isPlain (c : Char) : Bool := c == '\t' || (' ' ≤ c && c ≠ '\x7f')

/-- The rest after spaces and tabs. -/
def skipBlanks (source : List Char) : List Char := source.dropWhile (fun c => c == ' ' || c == '\t')

/-- The rest after the end of a line. -/
def afterLineEnd? : List Char → Option (List Char)
  | '\n' :: rest => some rest
  | '\r' :: '\n' :: rest => some rest
  | _ => none

/-- The rest after blanks and a comment. -/
def skipToLineEnd (source : List Char) : List Char :=
  match skipBlanks source with
  | '#' :: rest => rest.dropWhile isPlain
  | rest => rest

/-- The rest after blanks, comments and the ends of lines. The number bounds how many lines end. -/
def skipLines : Nat → List Char → List Char
  | 0, source => source
  | bound + 1, source =>
    let rest := skipToLineEnd source
    match afterLineEnd? rest with
    | some rest => skipLines bound rest
    | none => rest

/-- The character of that many digits to the base 16, and the rest. -/
def hexChar? (digits : Nat) (source : List Char) : Option (Char × List Char) :=
  let code := source.take digits
  let value := code.foldl (fun n d => n * 16 + Text.hexDigitValue d) 0
  if code.length = digits ∧ code.all Text.isHexDigit ∧ value.isValidChar then
    some (Char.ofNat value, source.drop digits)
  else none

/-- The character that an escape stands for, from after its backslash, and the rest. -/
def escape? : List Char → Option (Char × List Char)
  | 'b' :: rest => some ('\x08', rest)
  | 't' :: rest => some ('\t', rest)
  | 'n' :: rest => some ('\n', rest)
  | 'f' :: rest => some ('\x0c', rest)
  | 'r' :: rest => some ('\r', rest)
  | 'e' :: rest => some ('\x1b', rest)
  | '"' :: rest => some ('"', rest)
  | '\\' :: rest => some ('\\', rest)
  | 'x' :: rest => hexChar? 2 rest
  | 'u' :: rest => hexChar? 4 rest
  | 'U' :: rest => hexChar? 8 rest
  | _ => none

/-- A text on one line up to its closing quote, and the rest. Only texts in double quotes have
escapes. `written` holds what was read, the last character first; the number bounds the steps. -/
def lineText? (quote : Char) : Nat → List Char → List Char → Option (String × List Char)
  | 0, _, _ => none
  | _ + 1, _, [] => none
  | bound + 1, written, c :: rest =>
    if c = quote then some (String.ofList written.reverse, rest)
    else if c = '\\' ∧ quote = '"' then
      (escape? rest).bind (fun (char, rest) => lineText? quote bound (char :: written) rest)
    else if isPlain c then lineText? quote bound (c :: written) rest
    else none

/-- A text on several lines up to its three closing quotes, and the rest. A backslash at the end of a
line joins it with the next text. -/
def linesText? (quote : Char) : Nat → List Char → List Char → Option (String × List Char)
  | 0, _, _ => none
  | _ + 1, _, [] => none
  | bound + 1, written, c :: rest =>
    if c = quote then
      let quotes := (rest.takeWhile (· == quote)).length + 1
      if quotes < 3 then linesText? quote bound (quote :: written) rest
      else
        let inside := min quotes 5 - 3
        some (String.ofList (List.replicate inside quote ++ written).reverse, rest.drop (inside + 2))
    else if c = '\\' ∧ quote = '"' then
      match afterLineEnd? (skipBlanks rest) with
      | some rest =>
        linesText? quote bound written
          (rest.dropWhile (fun c => c == ' ' || c == '\t' || c == '\n' || c == '\r'))
      | none => (escape? rest).bind (fun (char, rest) => linesText? quote bound (char :: written) rest)
    else match afterLineEnd? (c :: rest) with
      | some rest => linesText? quote bound ('\n' :: written) rest
      | none => if isPlain c then linesText? quote bound (c :: written) rest else none

/-- A text in quotes, and the rest. -/
def text? (lines : Bool) (source : List Char) : Option (String × List Char) :=
  match source with
  | quote :: rest =>
    if quote = '"' ∨ quote = '\'' then
      if lines && [quote, quote].isPrefixOf rest then
        let body := rest.drop 2
        linesText? quote (body.length + 1) [] ((afterLineEnd? body).getD body)
      else lineText? quote (rest.length + 1) [] rest
    else none
  | [] => none

/-- The characters of keys without quotes. -/
def isBareKeyChar (c : Char) : Bool := c.isAlphanum || c == '_' || c == '-'

/-- A key without dots, and the rest. -/
def simpleKey? (source : List Char) : Option (String × List Char) :=
  match source.takeWhile isBareKeyChar with
  | [] => text? false source
  | key => some (String.ofList key, source.drop key.length)

/-- A key, its parts between dots, and the rest. The number bounds the parts. -/
def key? : Nat → List Char → Option (List String × List Char)
  | 0, _ => none
  | bound + 1, source =>
    match simpleKey? (skipBlanks source) with
    | some (key, rest) =>
      match skipBlanks rest with
      | '.' :: rest => (key? bound rest).map (fun (more, rest) => (key :: more, rest))
      | rest => some ([key], rest)
    | none => none

mutual

/-- A value, and the rest. The number bounds the steps. -/
def value? : Nat → List Char → Option (Toml × List Char)
  | 0, _ => none
  | bound + 1, source =>
    match source with
    | '[' :: rest => elements? bound [] rest
    | '\x7b' :: rest => members? bound [] rest
    | 't' :: 'r' :: 'u' :: 'e' :: rest => some (.truth true, rest)
    | 'f' :: 'a' :: 'l' :: 's' :: 'e' :: rest => some (.truth false, rest)
    | _ => (text? true source).map (fun (value, rest) => (.text value, rest))

/-- The elements of an array up to its end, and the rest; `found` holds those before, the last one
first. -/
def elements? : Nat → List Toml → List Char → Option (Toml × List Char)
  | 0, _, _ => none
  | bound + 1, found, source =>
    match skipLines source.length source with
    | ']' :: rest => some (.array found.reverse, rest)
    | rest =>
      match value? bound rest with
      | some (value, rest) =>
        match skipLines rest.length rest with
        | ',' :: rest => elements? bound (value :: found) rest
        | ']' :: rest => some (.array (value :: found).reverse, rest)
        | _ => none
      | none => none

/-- The members of a table in braces up to its end, and the rest; `found` holds those before. -/
def members? : Nat → Members → List Char → Option (Toml × List Char)
  | 0, _, _ => none
  | bound + 1, found, source =>
    match skipLines source.length source with
    | '\x7d' :: rest => some (.table .inline found, rest)
    | rest =>
      match member? bound rest with
      | some (key, value, rest) =>
        match insert? value key found with
        | some found =>
          match skipLines rest.length rest with
          | ',' :: rest => members? bound found rest
          | '\x7d' :: rest => some (.table .inline found, rest)
          | _ => none
        | none => none
      | none => none

/-- A key with its value, and the rest. -/
def member? : Nat → List Char → Option (List String × Toml × List Char)
  | 0, _ => none
  | bound + 1, source =>
    match key? (source.length + 1) source with
    | some (key, '=' :: rest) =>
      (value? bound (skipBlanks rest)).map (fun (value, rest) => (key, value, rest))
    | _ => none

end

/-- The header of a table, from after its opening brackets up to and with its closing ones. -/
def header? (closing : List Char) (source : List Char) : Option (List String × List Char) :=
  match key? (source.length + 1) source with
  | some (key, rest) => if closing.isPrefixOf rest then some (key, rest.drop closing.length) else none
  | none => none

/-- Reads lines into a document. `opened` is the header of the table that takes them. The number
bounds the lines. -/
def readLines? : Nat → (opened : List String) → Members → List Char → Option Members
  | 0, _, _, _ => none
  | bound + 1, opened, members, source =>
    let next : Option (List String × Members × List Char) :=
      match skipBlanks source with
      | '[' :: '[' :: rest =>
        match header? [']', ']'] rest with
        | some (key, rest) => (openTables? key members).map (fun members => (key, members, rest))
        | none => none
      | '[' :: rest =>
        match header? [']'] rest with
        | some (key, rest) => (openTable? key members).map (fun members => (key, members, rest))
        | none => none
      | rest =>
        if (skipToLineEnd rest).isEmpty ∨ (afterLineEnd? (skipToLineEnd rest)).isSome then
          some (opened, members, rest)
        else
          match member? (rest.length + 1) rest with
          | some (key, value, rest) =>
            (insertInto? opened key value members).map (fun members => (opened, members, rest))
          | none => none
    match next with
    | some (opened, members, rest) =>
      match skipToLineEnd rest with
      | [] => some members
      | rest => (afterLineEnd? rest).bind (readLines? bound opened members)
    | none => none

/-- The members of the document that a text writes. A byte order mark may come first. -/
def read? (text : String) : Option Members :=
  let source := match text.toList with
    | '\ufeff' :: rest => rest
    | source => source
  readLines? (source.length + 1) [] [] source

end Toml

end DefinitionLists
