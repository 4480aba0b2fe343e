/-
Module: DefinitionLists.Markdown.Literal
Purpose: The parts of running text that are taken as they stand: code spans and addresses in angle
  brackets.
Main exports: codeSpan?, autolink?
-/
import DefinitionLists.Markdown.Content

namespace DefinitionLists.Markdown

open Markdown.Symbol

/-- How many backticks the symbols start with. -/
def backtickCount : List Symbol → Nat
  | .char '`' :: rest => backtickCount rest + 1
  | _ => 0

/-- What precedes the first run of exactly `length` backticks, the last symbol first, and what
follows that run. `run` backticks stand right before the symbols. -/
def splitAtBackticks? (length run : Nat) (before : List Symbol) :
    List Symbol → Option (List Symbol × List Symbol)
  | [] => if run = length then some (before, []) else none
  | .char c :: rest =>
    if c = '`' then splitAtBackticks? length (run + 1) before rest
    else if run = length then some (before, .char c :: rest)
    else splitAtBackticks? length 0 (.char c :: (List.replicate run (.char '`') ++ before)) rest
  | .lineBreak around :: rest =>
    if run = length then some (before, .lineBreak around :: rest)
    else splitAtBackticks? length 0
      (.lineBreak around :: (List.replicate run (.char '`') ++ before)) rest

/-- The characters of code. Each character that ends a line shows as a space. -/
def codeChars : List Symbol → List Char
  | [] => []
  | .char c :: rest => c :: codeChars rest
  | .lineBreak around :: rest =>
    around.trail ++ List.replicate around.ending.length ' ' ++ around.lead ++ codeChars rest

/-- The code without one space at either end. Code with a space at one end only, or of nothing but
spaces, stays as it is. -/
def stripCode (code : List Char) : List Char :=
  if code.head? = some ' ' ∧ code.getLast? = some ' ' ∧ !code.all (· == ' ') then
    (code.drop 1).dropLast
  else code

/-- The code up to the next run of `length` backticks, and the rest after that run. -/
def codeSpan? (length : Nat) (symbols : List Symbol) : Option (List Char × List Symbol) :=
  match length with
  | 0 => none
  | _ => (splitAtBackticks? length 0 [] symbols).map
      (fun (before, rest) => (stripCode (codeChars before.reverse), rest))

/-- The characters up to the end of the line. -/
def lineChars : List Symbol → List Char
  | .char c :: rest => c :: lineChars rest
  | _ => []

/-- The address that is a scheme of two to thirty-two characters, a colon, and anything but blanks,
control characters and angle brackets. -/
def schemeAddress? (line : List Char) : Option (List Char) :=
  match line with
  | c :: _ =>
    let isSchemeChar (c : Char) : Bool := c.isAlphanum || c == '.' || c == '-' || c == '+'
    let scheme := line.takeWhile isSchemeChar
    let address := line.takeWhile (fun c => ' ' < c && c != '<' && c != '>')
    if c.isAlpha ∧ 2 ≤ scheme.length ∧ scheme.length ≤ 32 ∧
        (line.drop scheme.length).head? = some ':' ∧ (line.drop address.length).head? = some '>' then
      some address
    else none
  | [] => none

/-- The characters before the at sign of a mail address. -/
def isMailboxChar (c : Char) : Bool :=
  c.isAlphanum || ".!#$%&'*+/=?^_`\x7b|\x7d~-".toList.contains c

/-- Whether the text is a label of a domain name: letters, digits and inner hyphens, at most
sixty-three of them. -/
def isDomainLabel (label : List Char) : Bool :=
  !label.isEmpty && label.length ≤ 63 && label.head? != some '-' && label.getLast? != some '-' &&
    label.all (fun c => c.isAlphanum || c == '-')

/-- Whether the text is a domain name: labels with full stops between them. `label` holds what was
read of the first one, the last character first. -/
def isDomain (label : List Char) : List Char → Bool
  | [] => isDomainLabel label.reverse
  | c :: rest =>
      if c = '.' then isDomainLabel label.reverse && isDomain [] rest else isDomain (c :: label) rest

/-- The mail address that the line starts with, if a closing angle bracket follows it. -/
def mailAddress? (line : List Char) : Option (List Char) :=
  let address := line.takeWhile (· != '>')
  let mailbox := address.takeWhile isMailboxChar
  if !mailbox.isEmpty ∧ address.length < line.length ∧
      (address.drop mailbox.length).head? = some '@' ∧
      isDomain [] (address.drop (mailbox.length + 1)) then
    some address
  else none

/-- The address between angle brackets, from after the first of them, and the rest. -/
def autolink? (symbols : List Symbol) : Option (List Char × List Symbol) :=
  let line := lineChars symbols
  ((schemeAddress? line).orElse (fun _ => mailAddress? line)).map
    (fun address => (address, symbols.drop (address.length + 1)))

end DefinitionLists.Markdown
