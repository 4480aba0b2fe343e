/-
Module: DefinitionLists.Proofs.Entries
Purpose: Grouping the lines of a paragraph into entries loses no line and moves none: read in order, the
  entries say what the lines say.
Main exports: said, Entry.lines, Grouping, splitEntries_of_none, exists_splitEntries_cons,
  details_ne_nil_of_mem_splitEntries, flatMap_lines_splitEntriesFrom, splitEntries_keeps_lines
-/
import DefinitionLists.Definition.Entry
import DefinitionLists.Text.Lines

namespace DefinitionLists

open Text (splitLines splitLines_append splitLines_of_not_mem)

/-- What a line says: its body if it is a definition line, and itself otherwise. -/
def said (line : List Char) : List Char := (definitionBody? line).getD line

/-- The lines of an entry: those of its term, and then those of each of its definitions. -/
def Entry.lines (entry : Entry) : List (List Char) := entry.term ++ entry.details.flatMap splitLines

/-! ### Lines -/

theorem isDefinitionLine_eq_false_iff {line : List Char} :
    isDefinitionLine line = false ↔ definitionBody? line = none := by
  simp [isDefinitionLine]

/-- What a definition line says is a part of it. -/
theorem sublist_of_definitionBody {line body : List Char} (h : definitionBody? line = some body) :
    body.Sublist line := by
  unfold definitionBody? at h
  split at h
  · next c rest =>
      split at h
      · cases h
        exact (List.dropWhile_sublist Text.isBlank).trans (List.sublist_cons_self ':' (c :: rest))
      · cases h
  · cases h

theorem not_mem_of_definitionBody {line body : List Char} (h : definitionBody? line = some body)
    {c : Char} (hc : c ∉ line) : c ∉ body :=
  fun hmem => hc ((sublist_of_definitionBody h).subset hmem)

/-- The first definition line, if there is one, comes after lines that are none. -/
theorem first_definition (lines : List (List Char)) :
    (∀ line ∈ lines, definitionBody? line = none) ∨
      ∃ lead line body rest, lines = lead ++ line :: rest ∧
        (∀ plain ∈ lead, definitionBody? plain = none) ∧ definitionBody? line = some body := by
  induction lines with
  | nil => exact .inl (by simp)
  | cons line more ih =>
      cases hline : definitionBody? line with
      | some body => exact .inr ⟨[], line, body, more, rfl, by simp, hline⟩
      | none =>
          rcases ih with hnone | ⟨lead, next, body, rest, rfl, hlead, hbody⟩
          · exact .inl (List.forall_mem_cons.2 ⟨hline, hnone⟩)
          · exact .inr ⟨line :: lead, next, body, rest, rfl,
              List.forall_mem_cons.2 ⟨hline, hlead⟩, hbody⟩

/-! ### Entries -/

namespace Entry

theorem continueLast_ne_nil {line : List Char} {texts : List (List Char)} (h : texts ≠ []) :
    continueLast line texts ≠ [] := by
  fun_cases continueLast line texts with
  | case1 => exact absurd rfl h
  | case2 => simp
  | case3 => simp

/-- A definition that is added comes after the lines that the entry has. -/
theorem lines_define (entry : Entry) {body : List Char} (h : '\n' ∉ body) :
    (entry.define body).lines = entry.lines ++ [body] := by
  simp [lines, define, splitLines_of_not_mem h]

theorem flatMap_splitLines_continueLast {line : List Char} (h : '\n' ∉ line)
    {texts : List (List Char)} (hne : texts ≠ []) :
    (continueLast line texts).flatMap splitLines = texts.flatMap splitLines ++ [line] := by
  fun_induction continueLast line texts with
  | case1 => exact absurd rfl hne
  | case2 last => simp [splitLines_append, splitLines_of_not_mem h]
  | case3 first more hmore ih =>
      rw [List.flatMap_cons, ih hmore, List.flatMap_cons, List.append_assoc]

/-- A line that goes on with the last definition is its last line. -/
theorem lines_continueDetails {entry : Entry} (hd : entry.details ≠ []) {line : List Char}
    (h : '\n' ∉ line) : (entry.continueDetails line).lines = entry.lines ++ [line] := by
  simp only [lines, continueDetails, flatMap_splitLines_continueLast h hd, List.append_assoc]

end Entry

/-- Lines without a definition make no entries. -/
theorem splitEntries_of_none {written : List (List Char)}
    (h : ∀ line ∈ written, definitionBody? line = none) : splitEntries written = [] := by
  have hterm (term : List (List Char)) : splitEntriesFrom [] term written = [] := by
    induction written generalizing term with
    | nil => rfl
    | cons line more ih =>
        obtain ⟨hline, hmore⟩ := List.forall_mem_cons.1 h
        simp only [splitEntriesFrom, hline]
        exact ih hmore _
  exact hterm []

/-- All lines before the first definition are the term of the first entry. -/
theorem splitEntriesFrom_lead {lead : List (List Char)}
    (h : ∀ line ∈ lead, definitionBody? line = none) {line body : List Char}
    (hbody : definitionBody? line = some body) (term rest : List (List Char)) :
    splitEntriesFrom [] term (lead ++ line :: rest) =
      splitEntriesFrom [⟨term ++ lead, [body]⟩] [] rest := by
  induction lead generalizing term with
  | nil => simp [splitEntriesFrom, hbody]
  | cons plain more ih =>
      obtain ⟨hplain, hmore⟩ := List.forall_mem_cons.1 h
      simp only [List.cons_append, splitEntriesFrom, hplain]
      rw [ih hmore, List.append_assoc, List.singleton_append]

/-- Entries keep their terms, whatever lines come after them. -/
theorem terms_prefix_splitEntriesFrom (found : List Entry) (term lines : List (List Char)) :
    (found.map Entry.term).reverse <+: (splitEntriesFrom found term lines).map Entry.term := by
  fun_induction splitEntriesFrom found term lines with
  | case1 found term => simp
  | case2 line more body last earlier _ ih => exact ih
  | case3 line more body found term _ _ ih =>
      refine List.IsPrefix.trans ?_ ih
      simp
  | case4 line more term _ ih => exact ih
  | case5 line more last earlier term _ _ ih => exact ih
  | case6 line more last earlier term _ _ ih => exact ih

/-- The lines before the first definition are the term of the first entry. -/
theorem exists_splitEntries_cons {lead : List (List Char)}
    (h : ∀ line ∈ lead, definitionBody? line = none) {line body : List Char}
    (hbody : definitionBody? line = some body) (rest : List (List Char)) :
    ∃ details more, splitEntries (lead ++ line :: rest) = ⟨lead, details⟩ :: more := by
  have hterms := terms_prefix_splitEntriesFrom [⟨[] ++ lead, [body]⟩] [] rest
  rw [← splitEntriesFrom_lead h hbody, ← splitEntries] at hterms
  cases hentries : splitEntries (lead ++ line :: rest) with
  | nil =>
      rw [hentries] at hterms
      simp at hterms
  | cons first more =>
      rw [hentries] at hterms
      obtain ⟨term, details⟩ := first
      obtain rfl : lead = term := by simpa using hterms
      exact ⟨details, more, rfl⟩

/-- Without a definition line there are no entries. -/
theorem splitEntries_eq_nil_iff {lines : List (List Char)} :
    splitEntries lines = [] ↔ ∀ line ∈ lines, isDefinitionLine line = false := by
  simp only [isDefinitionLine_eq_false_iff]
  constructor
  · intro hnil
    rcases first_definition lines with hnone | ⟨lead, line, body, rest, rfl, hlead, hbody⟩
    · exact hnone
    · obtain ⟨details, more, hcons⟩ := exists_splitEntries_cons hlead hbody rest
      rw [hcons] at hnil
      cases hnil
  · exact splitEntries_of_none

/-- The first term is all that comes before the first definition line. -/
theorem term_of_head_splitEntries {lines : List (List Char)} {entry : Entry}
    (h : (splitEntries lines).head? = some entry) :
    entry.term = lines.takeWhile (fun line => !isDefinitionLine line) := by
  rcases first_definition lines with hnone | ⟨lead, line, body, rest, rfl, hlead, hbody⟩
  · rw [splitEntries_of_none hnone] at h
    cases h
  · obtain ⟨details, more, hcons⟩ := exists_splitEntries_cons hlead hbody rest
    rw [hcons] at h
    cases h
    have hplain : ∀ plain ∈ lead, (!isDefinitionLine plain) = true := by
      intro plain hplain
      simp [isDefinitionLine, hlead plain hplain]
    rw [List.takeWhile_append_of_pos hplain,
      List.takeWhile_cons_of_neg (by simp [isDefinitionLine, hbody]), List.append_nil]

/-! ### While lines are grouped -/

/-- What holds of the entries that were found, the last one first, and of the lines that wait to be a
term, when `rest` is still to come. -/
structure Grouping (found : List Entry) (term rest : List (List Char)) : Prop where
  /-- Every entry has a definition. -/
  defined : ∀ entry ∈ found, entry.details ≠ []
  /-- Every term but the first is one line. -/
  single : ∀ lines ∈ (found.map Entry.term).dropLast, lines.length = 1
  /-- After the first definition, a line waits only right above the next one. -/
  waiting : found ≠ [] → term = [] ∨ term.length = 1 ∧ rest.head?.any isDefinitionLine = true

namespace Grouping

variable {found earlier : List Entry} {last : Entry} {term rest : List (List Char)}
  {line body : List Char}

theorem start (term lines : List (List Char)) : Grouping [] term lines :=
  ⟨by simp, by simp, fun h => absurd rfl h⟩

theorem define (h : Grouping (last :: earlier) [] (line :: rest)) :
    Grouping (last.define body :: earlier) [] rest := by
  refine ⟨?_, h.single, fun _ => .inl rfl⟩
  intro entry hentry
  rcases List.mem_cons.1 hentry with rfl | hentry
  · simp [Entry.define]
  · exact h.defined entry (List.mem_cons_of_mem _ hentry)

/-- An entry that is not the first one opens with one line. -/
theorem enter (h : Grouping found term (line :: rest))
    (ht : ∀ last earlier, found = last :: earlier → term ≠ []) :
    Grouping (⟨term, [body]⟩ :: found) [] rest := by
  refine ⟨?_, ?_, fun _ => .inl rfl⟩
  · intro entry hentry
    rcases List.mem_cons.1 hentry with rfl | hentry
    · simp
    · exact h.defined entry hentry
  · cases found with
    | nil => simp
    | cons last earlier =>
        intro lines hlines
        rw [List.map_cons, List.map_cons, List.dropLast_cons_cons] at hlines
        rcases List.mem_cons.1 hlines with rfl | hlines
        · rcases h.waiting (by simp) with hnil | ⟨hone, -⟩
          · exact absurd hnil (ht last earlier rfl)
          · exact hone
        · exact h.single lines hlines

/-- Above a line that is no definition no line waits, after the first definition. -/
theorem term_eq_nil (h : Grouping (last :: earlier) term (line :: rest))
    (hline : definitionBody? line = none) : term = [] := by
  rcases h.waiting (by simp) with hnil | ⟨-, hnext⟩
  · exact hnil
  · simp [isDefinitionLine, hline] at hnext

/-- A line that waits right above a definition line may only be the next term. -/
theorem await (h : Grouping (last :: earlier) term (line :: rest))
    (hline : definitionBody? line = none) (hnext : rest.head?.any isDefinitionLine = true) :
    Grouping (last :: earlier) (term ++ [line]) rest := by
  refine ⟨h.defined, h.single, fun _ => .inr ⟨?_, hnext⟩⟩
  rw [h.term_eq_nil hline]
  rfl

theorem continueDetails (h : Grouping (last :: earlier) term (line :: rest))
    (hline : definitionBody? line = none) :
    Grouping (last.continueDetails line :: earlier) term rest := by
  refine ⟨?_, h.single, fun _ => .inl (h.term_eq_nil hline)⟩
  intro entry hentry
  rcases List.mem_cons.1 hentry with rfl | hentry
  · exact Entry.continueLast_ne_nil (h.defined last (by simp))
  · exact h.defined entry (List.mem_cons_of_mem _ hentry)

/-- At the end of the lines, none waits after the first definition. -/
theorem term_eq_nil_of_end (h : Grouping found term []) (hne : found ≠ []) : term = [] := by
  rcases h.waiting hne with hnil | ⟨-, hnext⟩
  · exact hnil
  · cases hnext

/-- What holds while lines are grouped holds of all entries in the end. -/
theorem splitEntriesFrom {lines : List (List Char)} (h : Grouping found term lines) :
    Grouping (DefinitionLists.splitEntriesFrom found term lines).reverse [] [] := by
  fun_induction DefinitionLists.splitEntriesFrom found term lines with
  | case1 found term =>
      rw [List.reverse_reverse]
      exact ⟨h.defined, h.single, fun _ => .inl rfl⟩
  | case2 line more body last earlier _ ih => exact ih h.define
  | case3 line more body found term hplain _ ih => exact ih (h.enter hplain)
  | case4 line more term _ ih => exact ih (start _ _)
  | case5 line more last earlier term hline hnext ih => exact ih (h.await hline hnext)
  | case6 line more last earlier term hline _ ih => exact ih (h.continueDetails hline)

end Grouping

/-- Every entry has a definition: a line without one before it waits as part of a term. -/
theorem details_ne_nil_of_mem_splitEntries {lines : List (List Char)} :
    ∀ entry ∈ splitEntries lines, entry.details ≠ [] := by
  intro entry hentry
  have hgrouped := (Grouping.start [] lines).splitEntriesFrom
  exact hgrouped.defined entry (List.mem_reverse.2 hentry)

theorem length_term_of_mem_tail_splitEntries {lines : List (List Char)} :
    ∀ entry ∈ (splitEntries lines).tail, entry.term.length = 1 := by
  intro entry hentry
  have hgrouped := (Grouping.start [] lines).splitEntriesFrom
  apply hgrouped.single
  rw [List.map_reverse, List.dropLast_reverse, List.mem_reverse, ← List.map_tail]
  exact List.mem_map_of_mem hentry

/-- The entries that come of lines say, in order, what was found and what the lines say, unless there
are none. -/
theorem flatMap_lines_splitEntriesFrom {found : List Entry} {term lines : List (List Char)}
    (h : Grouping found term lines) (hfeed : ∀ line ∈ lines, '\n' ∉ line)
    (hne : splitEntriesFrom found term lines ≠ []) :
    (splitEntriesFrom found term lines).flatMap Entry.lines =
      found.reverse.flatMap Entry.lines ++ (term ++ lines.map said) := by
  -- along the reading of the lines, with what holds of the entries found so far; in each case one line
  -- moves from what is to come to what is found or waits
  fun_induction splitEntriesFrom found term lines with
  | case1 found term =>
      have hterm : term = [] := h.term_eq_nil_of_end (by simpa using hne)
      simp [hterm]
  | case2 line more body last earlier hbody ih =>
      obtain ⟨hline, hmore⟩ := List.forall_mem_cons.1 hfeed
      rw [ih h.define hmore hne]
      simp [Entry.lines_define last (not_mem_of_definitionBody hbody hline), said, hbody]
  | case3 line more body found term hplain hbody ih =>
      obtain ⟨hline, hmore⟩ := List.forall_mem_cons.1 hfeed
      have hentry : Entry.lines ⟨term, [body]⟩ = term ++ [body] := by
        simp [Entry.lines, splitLines_of_not_mem (not_mem_of_definitionBody hbody hline)]
      rw [ih (h.enter hplain) hmore hne]
      simp [hentry, said, hbody]
  | case4 line more term hline ih =>
      rw [ih (.start _ _) (List.forall_mem_cons.1 hfeed).2 hne]
      simp [said, hline]
  | case5 line more last earlier term hline hnext ih =>
      rw [ih (h.await hline hnext) (List.forall_mem_cons.1 hfeed).2 hne]
      simp [said, hline]
  | case6 line more last earlier term hline hnext ih =>
      obtain ⟨hfree, hmore⟩ := List.forall_mem_cons.1 hfeed
      -- no line can be waiting here, so that the line belongs to the last definition
      have hterm : term = [] := h.term_eq_nil hline
      have hlast := Entry.lines_continueDetails (h.defined last (by simp)) hfree
      rw [ih (h.continueDetails hline) hmore hne]
      simp [hlast, hterm, said, hline]

/-- Lines make entries if one of them is a definition. The entries, read in order, say what the lines
say. Each has a definition; the lines before the first definition are the term of the first entry, and
each later term is one line. -/
theorem splitEntries_keeps_lines {lines : List (List Char)} (h : ∀ line ∈ lines, '\n' ∉ line) :
    (splitEntries lines = [] ↔ ∀ line ∈ lines, isDefinitionLine line = false) ∧
      (splitEntries lines ≠ [] → (splitEntries lines).flatMap Entry.lines = lines.map said) ∧
      (∀ entry ∈ splitEntries lines, entry.details ≠ []) ∧
      (∀ entry ∈ (splitEntries lines).head?,
        entry.term = lines.takeWhile (fun line => !isDefinitionLine line)) ∧
      (∀ entry ∈ (splitEntries lines).tail, entry.term.length = 1) := by
  refine ⟨splitEntries_eq_nil_iff, fun hne => ?_, details_ne_nil_of_mem_splitEntries,
    fun entry => term_of_head_splitEntries, length_term_of_mem_tail_splitEntries⟩
  exact flatMap_lines_splitEntriesFrom (Grouping.start [] lines) h hne

/-- A definition without a term, with a line that goes on with it and one that waits for the next. -/
theorem splitEntries_keeps_lines_of_waiting_line :
    (∀ line ∈ [":\tone".toList, "more".toList, "Next".toList, ": two".toList], '\n' ∉ line) ∧
      (splitEntries [":\tone".toList, "more".toList, "Next".toList, ": two".toList]).flatMap
        Entry.lines = ["one".toList, "more".toList, "Next".toList, "two".toList] := by
  have hfeed : ∀ line ∈ [":\tone".toList, "more".toList, "Next".toList, ": two".toList],
      '\n' ∉ line := by
    decide +kernel
  have hsome : splitEntries [":\tone".toList, "more".toList, "Next".toList, ": two".toList] ≠ [] := by
    decide +kernel
  refine ⟨hfeed, ((splitEntries_keeps_lines hfeed).2.1 hsome).trans ?_⟩
  decide +kernel

end DefinitionLists
