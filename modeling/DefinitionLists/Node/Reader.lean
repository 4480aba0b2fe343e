/-
Module: DefinitionLists.Node.Reader
Purpose: Reading syntax trees from JSON text.
Main exports: Node.Fields, Node.ofFields, Node.read
-/
import DefinitionLists.Json.Token
import DefinitionLists.Node

namespace DefinitionLists

namespace Node

open Json

/-- The fields of a node as they are read, whatever the tag of the node. -/
structure Fields where
  tag : String := ""
  children : List Node := []
  value : Option String := none
  ordered : Option Bool := none
  start : Option UInt64 := none
  spread : Option Bool := none
  checked : Option Bool := none
  depth : Option UInt8 := none
  language : Option String := none
  url : Option String := none
  title : Option String := none
  alt : Option String := none
  hint : Option String := none
  span : Option Span := none
deriving Inhabited

/-- The name of a field. Where a node is an array, its elements are the fields in this order. -/
inductive Field where
  | tag
  | children
  | value
  | ordered
  | start
  | spread
  | checked
  | depth
  | language
  | url
  | title
  | alt
  | hint
  | span
deriving Repr, Inhabited, DecidableEq

/-- All fields in order. -/
def Field.all : List Field :=
  [.tag, .children, .value, .ordered, .start, .spread, .checked, .depth, .language, .url, .title,
    .alt, .hint, .span]

/-- The name of a field in JSON text. -/
def Field.name : Field → String
  | .tag => "type"
  | .children => "children"
  | .value => "value"
  | .ordered => "ordered"
  | .start => "start"
  | .spread => "spread"
  | .checked => "checked"
  | .depth => "depth"
  | .language => "lang"
  | .url => "url"
  | .title => "title"
  | .alt => "alt"
  | .hint => "data"
  | .span => "position"

/-- The field of that name, if there is one. -/
def Field.ofName? (name : String) : Option Field :=
  Field.all.find? (fun field => field.name == name)

/-- The container of that tag, if there is one. -/
def containerOfTag? (tag : String) : Option Container :=
  [.root, .paragraph, .blockquote, .descriptionList, .descriptionTerm, .descriptionDetails,
    .emphasis, .strong, .deletion].find? (fun kind => Container.tag kind == tag)

/-- The node that the fields describe. Fields that the kind of node has no use for are dropped, and
fields that it lacks take their defaults. -/
def ofFields (fields : Fields) : Node :=
  match containerOfTag? fields.tag with
  | some kind => .branch (.container kind fields.hint fields.span) fields.children
  | none =>
    match fields.tag with
    | "heading" => .branch (.heading (fields.depth.getD 1)) fields.children
    | "list" =>
      .branch (.list (fields.ordered.getD false) fields.start (fields.spread.getD false) fields.hint)
        fields.children
    | "listItem" =>
      .branch (.listItem (fields.spread.getD false) fields.checked fields.hint) fields.children
    | "link" => .branch (.link (fields.url.getD "") fields.title) fields.children
    | "code" => .leaf (.code fields.language (fields.value.getD ""))
    | "html" => .leaf (.html (fields.value.getD ""))
    | "text" => .leaf (.text (fields.value.getD ""))
    | "inlineCode" => .leaf (.inlineCode (fields.value.getD ""))
    | "image" => .leaf (.image (fields.url.getD "") fields.title (fields.alt.getD ""))
    | "thematicBreak" => .leaf .thematicBreak
    | "break" => .leaf .lineBreak
    | tag => .branch (.other tag fields.value fields.hint) fields.children

/-- What is kept of a value that may be anything. -/
inductive Loose where
  | other
  | natural (value : UInt64)
  | string (value : String)
  | object (members : List (String × Loose))
deriving Inhabited

/-- The value of the last member of that name. Only objects have members. -/
def Loose.member? (name : String) : Loose → Option Loose
  | .object members => (members.reverse.find? (fun member => member.1 == name)).map Prod.snd
  | _ => none

/-- The hint in a node's data: the string `hName`. -/
def Loose.hint? (data : Loose) : Option String :=
  match data.member? "hName" with
  | some (.string name) => some name
  | _ => none

/-- The byte offset of a point of a position. -/
def Loose.offset? (point : Loose) : Option Nat :=
  match point.member? "offset" with
  | some (.natural offset) => some offset.toNat
  | _ => none

/-- The span of a position that has both offsets. -/
def Loose.span? (position : Loose) : Option Span := do
  let start ← (← position.member? "start").offset?
  let stop ← (← position.member? "end").offset?
  return ⟨start, stop⟩

/-- A reader takes tokens from the front and returns what it read with the tokens that are left. -/
abbrev Reader (α : Type) := List Token → Except Fault (α × List Token)

/-- The fault of finding a token that starts no value of the kind that is needed: a value of another
kind does not match, and what is no value is malformed. -/
def faultAt : Token → Fault
  | .closeArray | .closeObject | .comma | .colon | .hugeNumber | .brokenString => .malformed
  | .openArray | .openObject | .null | .bool _ | .number _ | .string _ => .mismatched

/-- Reads a token for which `f` has a value. -/
def readToken {α : Type} (ending : Ending) (f : Token → Option α) : Reader α
  | [] => .error ending.atValue
  | token :: rest =>
    match f token with
    | some value => .ok (value, rest)
    | none => .error (faultAt token)

/-- The string of a token. -/
def stringOf? : Token → Option String
  | .string value => some value
  | _ => none

/-- The truth value of a token. -/
def boolOf? : Token → Option Bool
  | .bool value => some value
  | _ => none

/-- The natural number of a token. -/
def naturalOf? : Token → Option UInt64
  | .number value => value
  | _ => none

/-- The natural number of a token, if it fits eight bits. -/
def depthOf? (token : Token) : Option UInt8 := do
  let value ← naturalOf? token
  if value < 256 then some value.toUInt8 else none

/-- Lets a reader's value be `null`. -/
def orNull {α : Type} (f : Token → Option α) : Token → Option (Option α)
  | .null => some none
  | token => (f token).map some

/-- What comes after a value in a container: another one, or the end. -/
inductive Next where
  | more
  | close
deriving Repr, DecidableEq

/-- Reads what stands before an element of an array: nothing before the first, a comma before the
others. The closing bracket is taken too. -/
def nextElement (ending : Ending) (first : Bool) : Reader Next
  | [] => .error (if first then ending.atValue else ending.atMark)
  | .closeArray :: rest => .ok (.close, rest)
  | token :: rest =>
    if first then .ok (.more, token :: rest)
    else if token = .comma then
      match rest with
      | .closeArray :: _ => .error .malformed
      | _ => .ok (.more, rest)
    else .error .malformed

/-- Reads the name of a member of an object and the colon after it, or the closing brace. The name
is checked before the colon is looked for. -/
def nextMember (ending : Ending) (first : Bool) (check : String → Option Fault) :
    Reader (Option String)
  | [] => .error (if first then ending.atName else ending.atMark)
  | .closeObject :: rest => .ok (none, rest)
  | token :: rest =>
    let name (tokens : List Token) : Except Fault (Option String × List Token) :=
      match tokens with
      | [] => .error ending.atName
      | .string name :: rest =>
        match check name with
        | some fault => .error fault
        | none =>
          match rest with
          | [] => .error ending.atMark
          | .colon :: rest => .ok (some name, rest)
          | _ => .error .malformed
      | _ => .error .malformed
    if first then name (token :: rest)
    else if token = .comma then name rest
    else .error .malformed

/-- Every name will do. -/
def anyName (_ : String) : Option Fault := none

mutual

/-- Reads a value that may be anything, with at most `depth` containers open at once. -/
def readLoose (ending : Ending) : (fuel depth : Nat) → Reader Loose
  | 0, _, _ => .error .truncated
  | _ + 1, _, [] => .error ending.atValue
  | fuel + 1, depth, token :: rest =>
    match token with
    | .openArray =>
      match depth with
      | 0 => .error .malformed
      | depth + 1 => readLooseElements ending fuel depth true rest
    | .openObject =>
      match depth with
      | 0 => .error .malformed
      | depth + 1 => do
        let (members, rest) ← readLooseMembers ending fuel depth true rest
        return (.object members, rest)
    | .string value => .ok (.string value, rest)
    | .number (some value) => .ok (.natural value, rest)
    | .number none | .null | .bool _ => .ok (.other, rest)
    | .closeArray | .closeObject | .comma | .colon | .hugeNumber | .brokenString =>
      .error .malformed

/-- Reads the elements of an array up to its end. -/
def readLooseElements (ending : Ending) : (fuel depth : Nat) → (first : Bool) → Reader Loose
  | 0, _, _, _ => .error .truncated
  | fuel + 1, depth, first, tokens => do
    match ← nextElement ending first tokens with
    | (.close, rest) => return (.other, rest)
    | (.more, rest) =>
      let (_, rest) ← readLoose ending fuel depth rest
      readLooseElements ending fuel depth false rest

/-- Reads the members of an object up to its end. -/
def readLooseMembers (ending : Ending) :
    (fuel depth : Nat) → (first : Bool) → Reader (List (String × Loose))
  | 0, _, _, _ => .error .truncated
  | fuel + 1, depth, first, tokens => do
    match ← nextMember ending first anyName tokens with
    | (none, rest) => return ([], rest)
    | (some name, rest) =>
      let (value, rest) ← readLoose ending fuel depth rest
      let (members, rest) ← readLooseMembers ending fuel depth false rest
      return ((name, value) :: members, rest)

end

/-- What a skipped value may have open: arrays and objects. -/
inductive Enclosure where
  | array
  | object
deriving Repr, DecidableEq

/-- Where the skipping of a value stands. -/
inductive SkipState where
  /-- Before a value. -/
  | value
  /-- After an opening bracket. -/
  | opened
  /-- After a value or a closing bracket. -/
  | closed
  /-- Before the name of a member. -/
  | name
  /-- Before the colon after a name. -/
  | colon
deriving Repr, DecidableEq

/-- What one token does to the skipping of a value: where it stands then and which containers are
open then, the innermost first. -/
def skipToken (state : SkipState) (enclosures : List Enclosure) (token : Token) :
    Except Fault (SkipState × List Enclosure) :=
  let value : Except Fault (SkipState × List Enclosure) :=
    match token with
    | .openArray => .ok (.opened, .array :: enclosures)
    | .openObject => .ok (.opened, .object :: enclosures)
    | .closeArray | .closeObject | .comma | .colon => .error .malformed
    | .null | .bool _ | .number _ | .hugeNumber | .string _ | .brokenString =>
      .ok (.closed, enclosures)
  let name : Except Fault (SkipState × List Enclosure) :=
    match token with
    | .string _ | .brokenString => .ok (.colon, enclosures)
    | _ => .error .malformed
  match state, enclosures with
  | .value, _ => value
  | .opened, .array :: outer => if token = .closeArray then .ok (.closed, outer) else value
  | .opened, .object :: outer => if token = .closeObject then .ok (.closed, outer) else name
  | .opened, [] => value
  | .closed, .array :: outer =>
    match token with
    | .closeArray => .ok (.closed, outer)
    | .comma => .ok (.value, enclosures)
    | _ => .error .malformed
  | .closed, .object :: outer =>
    match token with
    | .closeObject => .ok (.closed, outer)
    | .comma => .ok (.name, enclosures)
    | _ => .error .malformed
  | .closed, [] => .ok (.closed, [])
  | .name, _ => name
  | .colon, _ => if token = .colon then .ok (.value, enclosures) else .error .malformed

/-- The fault of skipping a value that stops where it stands. -/
def skipFault (ending : Ending) : SkipState → List Enclosure → Fault
  | .value, _ | .opened, .array :: _ | .opened, [] => ending.atSkippedValue
  | .name, _ | .opened, .object :: _ => ending.atSkippedName
  | .closed, _ | .colon, _ => ending.atMark

/-- Skips a value, however deep it is, and returns the tokens after it. Only the form of the value is
checked. -/
def skip (ending : Ending) (state : SkipState) (enclosures : List Enclosure) :
    List Token → Except Fault (List Token)
  | [] =>
    if state = .closed ∧ enclosures = [] then .ok [] else .error (skipFault ending state enclosures)
  | token :: rest =>
    if state = .closed ∧ enclosures = [] then .ok (token :: rest)
    else
      match skipToken state enclosures token with
      | .ok (state, enclosures) => skip ending state enclosures rest
      | .error fault => .error fault

mutual

/-- Reads a node: an object of named fields, or an array of fields in order. At most `depth`
containers may be open at once. -/
def readNode (ending : Ending) : (fuel depth : Nat) → Reader Node
  | 0, _, _ => .error .truncated
  | _ + 1, _, [] => .error ending.atValue
  | fuel + 1, depth, token :: rest =>
    match token with
    | .openObject =>
      match depth with
      | 0 => .error .malformed
      | depth + 1 => do
        let (fields, rest) ← readMembers ending fuel depth true [] {} rest
        return (ofFields fields, rest)
    | .openArray =>
      match depth with
      | 0 => .error .malformed
      | depth + 1 => do
        let (fields, rest) ← readPositional ending fuel depth true Field.all {} rest
        return (ofFields fields, rest)
    | token => .error (faultAt token)

/-- Reads named fields up to the end of the object. No field may come twice; members of other names
are skipped. -/
def readMembers (ending : Ending) :
    (fuel depth : Nat) → (first : Bool) → (seen : List Field) → Fields → Reader Fields
  | 0, _, _, _, _, _ => .error .truncated
  | fuel + 1, depth, first, seen, fields, tokens => do
    let check (name : String) : Option Fault :=
      if (Field.ofName? name).any seen.contains then some .mismatched else none
    match ← nextMember ending first check tokens with
    | (none, rest) => return (fields, rest)
    | (some name, rest) =>
      match Field.ofName? name with
      | none =>
        let rest ← skip ending .value [] rest
        readMembers ending fuel depth false seen fields rest
      | some field =>
        let (fields, rest) ← readField ending fuel depth field fields rest
        readMembers ending fuel depth false (field :: seen) fields rest

/-- Reads the fields of an array in order. Fields at the end may be left out; none may follow the
last. -/
def readPositional (ending : Ending) :
    (fuel depth : Nat) → (first : Bool) → List Field → Fields → Reader Fields
  | 0, _, _, _, _, _ => .error .truncated
  | _ + 1, _, _, [], fields, tokens =>
    match tokens with
    | .closeArray :: rest => .ok (fields, rest)
    | [] => .error ending.atMark
    | _ => .error .malformed
  | fuel + 1, depth, first, field :: later, fields, tokens => do
    match ← nextElement ending first tokens with
    | (.close, rest) => return (fields, rest)
    | (.more, rest) =>
      let (fields, rest) ← readField ending fuel depth field fields rest
      readPositional ending fuel depth false later fields rest

/-- Reads the value of a field. -/
def readField (ending : Ending) : (fuel depth : Nat) → Field → Fields → Reader Fields
  | 0, _, _, _, _ => .error .truncated
  | fuel + 1, depth, field, fields, tokens =>
    match field with
    | .tag => do
      let (tag, rest) ← readToken ending stringOf? tokens
      return ({ fields with tag }, rest)
    | .children =>
      match tokens with
      | [] => .error ending.atValue
      | .openArray :: rest =>
        match depth with
        | 0 => .error .malformed
        | depth + 1 => do
          let (children, rest) ← readNodes ending fuel depth true rest
          return ({ fields with children }, rest)
      | token :: _ => .error (faultAt token)
    | .value => do
      let (value, rest) ← readToken ending (orNull stringOf?) tokens
      return ({ fields with value }, rest)
    | .ordered => do
      let (ordered, rest) ← readToken ending (orNull boolOf?) tokens
      return ({ fields with ordered }, rest)
    | .start => do
      let (start, rest) ← readToken ending (orNull naturalOf?) tokens
      return ({ fields with start }, rest)
    | .spread => do
      let (spread, rest) ← readToken ending (orNull boolOf?) tokens
      return ({ fields with spread }, rest)
    | .checked => do
      let (checked, rest) ← readToken ending (orNull boolOf?) tokens
      return ({ fields with checked }, rest)
    | .depth => do
      let (depth, rest) ← readToken ending (orNull depthOf?) tokens
      return ({ fields with depth }, rest)
    | .language => do
      let (language, rest) ← readToken ending (orNull stringOf?) tokens
      return ({ fields with language }, rest)
    | .url => do
      let (url, rest) ← readToken ending (orNull stringOf?) tokens
      return ({ fields with url }, rest)
    | .title => do
      let (title, rest) ← readToken ending (orNull stringOf?) tokens
      return ({ fields with title }, rest)
    | .alt => do
      let (alt, rest) ← readToken ending (orNull stringOf?) tokens
      return ({ fields with alt }, rest)
    | .hint => do
      let (data, rest) ← readLoose ending fuel depth tokens
      return ({ fields with hint := data.hint? }, rest)
    | .span => do
      let (position, rest) ← readLoose ending fuel depth tokens
      return ({ fields with span := position.span? }, rest)

/-- Reads nodes up to the end of the array. -/
def readNodes (ending : Ending) : (fuel depth : Nat) → (first : Bool) → Reader (List Node)
  | 0, _, _, _ => .error .truncated
  | fuel + 1, depth, first, tokens => do
    match ← nextElement ending first tokens with
    | (.close, rest) => return ([], rest)
    | (.more, rest) =>
      let (node, rest) ← readNode ending fuel depth rest
      let (nodes, rest) ← readNodes ending fuel depth false rest
      return (node :: nodes, rest)

end

/-- How many containers may be open at once. -/
def maxDepth : Nat := 127

/-- Reads a tree from JSON text that holds nothing else. -/
def read (text : String) : Except Fault Node := do
  let (tokens, ending) := Token.scan text.toList
  let (node, rest) ← readNode ending (4 * tokens.length + 4) maxDepth tokens
  match rest, ending with
  | [], .finished => return node
  | _, _ => throw .malformed

end Node

end DefinitionLists
