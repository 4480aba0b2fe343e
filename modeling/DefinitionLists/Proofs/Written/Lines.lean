/-
Module: DefinitionLists.Proofs.Written.Lines
Purpose: Documents written line by line, and how they come apart into their lines again.
Main exports: writeLines, Unbroken, writeLines_append, splitLines_writeLines, lines_writeLines,
  Line.written, splitFrom_writeLines
-/
import DefinitionLists.Markdown.Line
import DefinitionLists.Text.Lines

namespace DefinitionLists

open Text (byteLength dropCarriageReturn finishLines joinLines lines splitLines)

/-- Lines with a line feed between each two of them, and one after the last if `closed`. -/
def writeLines (closed : Bool) (written : List (List Char)) : List Char :=
  joinLines (written ++ if closed then [[]] else [])

/-- Whether no line ends within the text. -/
def Unbroken (line : List Char) : Prop := ∀ c ∈ line, c ≠ '\n' ∧ c ≠ '\r'

/-- What ends a line that is written before others. -/
def lineEnd (closed : Bool) (more : List (List Char)) : List Char :=
  if closed || !more.isEmpty then ['\n'] else []

theorem writeLines_nil (closed : Bool) : writeLines closed [] = [] := by
  cases closed <;> rfl

theorem writeLines_cons (closed : Bool) (line : List Char) (more : List (List Char)) :
    writeLines closed (line :: more) = line ++ (lineEnd closed more ++ writeLines closed more) := by
  unfold writeLines lineEnd
  cases more with
  | nil => cases closed <;> simp [joinLines]
  | cons next more => simp [joinLines]

theorem writeLines_false (written : List (List Char)) :
    writeLines false written = joinLines written := by
  simp [writeLines]

/-- The lines before others all end in line feeds. -/
theorem writeLines_append (closed : Bool) (first rest : List (List Char)) :
    writeLines closed (first ++ rest) =
      writeLines (closed || !rest.isEmpty) first ++ writeLines closed rest := by
  induction first with
  | nil => rw [List.nil_append, writeLines_nil, List.nil_append]
  | cons line more ih =>
      have hend : lineEnd closed (more ++ rest) = lineEnd (closed || !rest.isEmpty) more := by
        cases closed <;> cases rest <;> simp [lineEnd]
      rw [List.cons_append, writeLines_cons, writeLines_cons, ih, hend]
      simp only [List.append_assoc]

/-- The bytes of a line and of the lines after it, when others come after all of them. -/
theorem byteLength_writeLines_cons (closed : Bool) (line : List Char) (more rest : List (List Char)) :
    byteLength (writeLines (closed || !rest.isEmpty) (line :: more)) =
      byteLength (writeLines (closed || !(more ++ rest).isEmpty) [line]) +
        byteLength (writeLines (closed || !rest.isEmpty) more) := by
  have hflag : (closed || !(more ++ rest).isEmpty) =
      ((closed || !rest.isEmpty) || !more.isEmpty) := by
    cases closed <;> cases more <;> cases rest <;> rfl
  rw [hflag, ← List.singleton_append, writeLines_append, Text.byteLength_append]

/-! ### Between line feeds -/

theorem splitLines_of_unbroken {line : List Char} (h : Unbroken line) : splitLines line = [line] :=
  Text.splitLines_of_not_mem fun hmem => (h _ hmem).1 rfl

/-- Joined lines come apart into the lines. -/
theorem splitLines_joinLines {written : List (List Char)} (hne : written ≠ [])
    (h : ∀ line ∈ written, Unbroken line) : splitLines (joinLines written) = written :=
  Text.splitLines_joinLines hne fun line hline hmem => (h line hline _ hmem).1 rfl

/-- Lines that are written are split again where they were joined. -/
theorem splitLines_writeLines (closed : Bool) {written : List (List Char)} (hne : written ≠ [])
    (h : ∀ line ∈ written, Unbroken line) :
    splitLines (writeLines closed written) = written ++ if closed then [[]] else [] := by
  apply splitLines_joinLines
  · simp [hne]
  · intro line hline
    rcases List.mem_append.1 hline with hline | hline
    · exact h line hline
    · cases closed
      · simp at hline
      · obtain rfl : line = [] := by simpa using hline
        simp [Unbroken]

theorem dropCarriageReturn_of_unbroken {line : List Char} (h : Unbroken line) :
    dropCarriageReturn line = line := by
  unfold dropCarriageReturn
  split
  · next rest heq =>
      have hmem : '\r' ∈ line := by
        rw [← List.mem_reverse, heq]
        simp
      exact absurd rfl (h '\r' hmem).2
  · rfl

theorem finishLines_append {written : List (List Char)} (closed : Bool)
    (h : ∀ line ∈ written, Unbroken line ∧ line ≠ []) :
    finishLines (written ++ if closed then [[]] else []) = written := by
  induction written with
  | nil => cases closed <;> rfl
  | cons line more ih =>
      obtain ⟨hline, hne⟩ := h line (by simp)
      have hmore := ih (fun other ho => h other (by simp [ho]))
      cases more with
      | nil => cases closed <;> simp [finishLines, hne, dropCarriageReturn_of_unbroken hline]
      | cons next more =>
          rw [List.cons_append, List.cons_append, finishLines,
            dropCarriageReturn_of_unbroken hline, ← List.cons_append, hmore]
          simp

/-- The lines of a text written line by line are those that it was written of. -/
theorem lines_writeLines (closed : Bool) {written : List (List Char)} (hne : written ≠ [])
    (h : ∀ line ∈ written, Unbroken line ∧ line ≠ []) :
    lines (writeLines closed written) = written := by
  have hunbroken : ∀ line ∈ written, Unbroken line := fun line hl => (h line hl).1
  rw [lines, splitLines_writeLines closed hne hunbroken, finishLines_append closed h]

/-! ### Lines of Markdown -/

namespace Markdown

/-- The first line of a document from a byte offset on, when it is written before others. -/
def Line.written (closed : Bool) (start : Nat) (text : List Char) (more : List (List Char)) : Line :=
  ⟨start, text, lineEnd closed more, writeLines closed more⟩

theorem Line.endsInCarriageReturn_written (closed : Bool) (start : Nat) (text : List Char)
    (more : List (List Char)) : (Line.written closed start text more).endsInCarriageReturn = false := by
  unfold Line.written Line.endsInCarriageReturn lineEnd
  split <;> rfl

/-- A line takes the bytes that are written for it. -/
theorem Line.stop_written (closed : Bool) (start : Nat) (text : List Char) (more : List (List Char)) :
    (Line.written closed start text more).stop =
      start + byteLength (writeLines (closed || !more.isEmpty) [text]) := by
  have hsize : '\n'.utf8Size = 1 := by decide
  rw [writeLines_cons, writeLines_nil]
  cases closed <;> cases more <;> simp [Line.written, Line.stop, lineEnd, Nat.add_assoc, hsize]

/-- Text in which no line ends belongs to the line at hand. -/
theorem Line.splitFrom_append {text : List Char} (h : Unbroken text) (start : Nat)
    (before rest : List Char) :
    splitFrom start before (text ++ rest) = splitFrom start (text.reverse ++ before) rest := by
  induction text generalizing before with
  | nil => rfl
  | cons c more ih =>
      have hmore := ih (fun d hd => h d (by simp [hd])) (c :: before)
      obtain ⟨hfeed, hreturn⟩ := h c (by simp)
      rw [List.cons_append, splitFrom, hmore]
      · simp
      · rintro rfl
        exact hfeed rfl
      · rintro rest rfl
        exact absurd rfl hreturn
      · rintro rfl
        exact hreturn rfl

/-- The lines of a document begin with the one that is written first. -/
theorem Line.splitFrom_writeLines (closed : Bool) (start : Nat) {text : List Char}
    {more : List (List Char)} (h : Unbroken text) (hne : text ≠ [] ∨ more ≠ []) :
    splitFrom start [] (writeLines closed (text :: more)) =
      written closed start text more ::
        splitFrom (written closed start text more).stop [] (writeLines closed more) := by
  rw [writeLines_cons, splitFrom_append h, List.append_nil]
  by_cases hend : (closed || !more.isEmpty) = true
  · rw [lineEnd, if_pos hend, List.singleton_append, splitFrom]
    simp [written, lineEnd, hend]
  · obtain ⟨rfl, rfl⟩ : closed = false ∧ more = [] := by simpa using hend
    have htext : text ≠ [] := by simpa using hne
    rw [lineEnd, if_neg hend, List.nil_append, writeLines_nil, splitFrom, splitFrom]
    simp [htext, written, lineEnd, writeLines_nil]

end Markdown

end DefinitionLists
