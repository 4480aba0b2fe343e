/-
Module: DefinitionLists.Proofs.Json.Scan
Purpose: A written JSON value, compact or pretty, is scanned as its tokens.
Main exports: scanString_escape, scanNumber_toDigits, Scans, scans_writeCompact, scans_writePretty,
  scan_of_written, mostOpen_of_written
-/
import DefinitionLists.Proofs.Json.Nesting

namespace DefinitionLists.Json

open Token (isSpace scanFrom scanOne scanString scanNumber scanExponent numberToken Partial)

/-! ### Strings -/

/-- A control character is written as the number it has. -/
theorem hexQuad_hexDigit {n : Nat} (h : n < 32) :
    Token.hexQuad? '0' '0' (hexDigit (n / 16)) (hexDigit (n % 16)) = some n := by
  have hall : ∀ n : Fin 32,
      Token.hexQuad? '0' '0' (hexDigit (n.val / 16)) (hexDigit (n.val % 16)) = some n.val := by
    decide
  exact hall ⟨n, h⟩

/-- A written character is scanned as that character. -/
theorem scanString_escape (chars rest : List Char) (c : Char) :
    scanString ⟨chars, none, false⟩ (escape c ++ rest) =
      scanString ⟨c :: chars, none, false⟩ rest := by
  unfold escape
  -- seven characters have a short escape of their own
  iterate 7
    split
    · next h => simp [h, scanString, Token.simpleEscape?, Partial.push]
  split
  · next h =>
      have hhigh : Token.isHighSurrogate c.toNat = false := by simp [Token.isHighSurrogate]; omega
      have hlow : Token.isLowSurrogate c.toNat = false := by simp [Token.isLowSurrogate]; omega
      simp [scanString, hexQuad_hexDigit h, Partial.pushUnit, hhigh, hlow]
  · next _ hback _ _ _ _ _ hcontrol =>
      simp [scanString, hback, hcontrol, Partial.push]

theorem scanString_quoted (chars rest : List Char) (value : List Char) :
    scanString ⟨chars, none, false⟩ (value.flatMap escape ++ '"' :: rest) =
      .ok (.string (String.ofList (chars.reverse ++ value)), rest) := by
  induction value generalizing chars with
  | nil => simp [scanString, Partial.token]
  | cons c more ih =>
      rw [List.flatMap_cons, List.append_assoc, scanString_escape, ih]
      simp

/-! ### Numbers -/

/-- Whether a number before the text ends there. -/
def EndsNumber (text : List Char) : Prop :=
  ∀ c, text.head? = some c → c.isDigit = false ∧ c ≠ '.' ∧ c ≠ 'e' ∧ c ≠ 'E'

/-- Only zero is written with a zero in front. -/
theorem eq_zero_of_toDigits_eq_cons {n : Nat} {digits : List Char}
    (h : Nat.toDigits 10 n = '0' :: digits) : n = 0 := by
  induction n using Nat.strongRecOn generalizing digits with
  | ind n ih =>
      rw [Nat.toDigits_eq_if (by decide)] at h
      split at h
      · next hn =>
          have hall : ∀ n : Fin 10, n.val.digitChar = '0' → n.val = 0 := by decide
          exact hall ⟨n, hn⟩ (List.cons.inj h).1
      · next hn =>
          obtain ⟨first, more, heq⟩ :=
            List.exists_cons_of_ne_nil (Nat.toDigits_ne_nil (n := n / 10) (b := 10))
          rw [heq, List.cons_append] at h
          obtain ⟨rfl, -⟩ := List.cons.inj h
          have hzero := ih (n / 10) (by omega) heq
          omega

/-- A number of 64 bits is far from the largest double. -/
theorem exceedsDouble_of_lt {n : Nat} (h : n < UInt64.size) : Token.exceedsDouble n 0 = false := by
  have hlength : (Nat.toDigits 10 n).length ≤ 20 :=
    (Nat.length_toDigits_le_iff (by decide) (by decide)).2
      (Nat.lt_of_lt_of_le h (by decide))
  unfold Token.exceedsDouble
  simp only [Int.add_zero]
  split
  · rfl
  · rw [if_neg (by omega), if_pos (by omega)]

/-- The digits of a number that fits in a word are read as that number. -/
theorem numberToken_toDigits (value : UInt64) :
    numberToken false (Nat.toDigits 10 value.toNat) none none = .number (some value) := by
  have hvalue : (Nat.toDigits 10 value.toNat).foldl
      (fun n c => n * 10 + (c.toNat - '0'.toNat)) 0 = value.toNat := by
    have := Nat.ofDigitChars_ten_toDigits (n := value.toNat)
    simpa [Nat.ofDigitChars_eq_foldl, Nat.mul_comm] using this
  have hlt : value.toNat < UInt64.size := value.toNat_lt
  unfold numberToken
  simp only [Option.getD_none, List.append_nil, List.length_nil]
  rw [hvalue]
  simp [exceedsDouble_of_lt hlt, hlt]

theorem scanExponent_of_endsNumber {negative : Bool} {whole rest : List Char}
    {fraction : Option (List Char)} (h : EndsNumber rest) :
    scanExponent negative whole fraction rest =
      .ok (numberToken negative whole fraction none, rest) := by
  cases rest with
  | nil => rfl
  | cons c rest =>
      obtain ⟨-, -, he, hE⟩ := h c rfl
      simp [scanExponent, he, hE]

/-- A number is written without a leading zero, a fraction or an exponent. -/
theorem scanNumber_toDigits (value : UInt64) {rest : List Char} (h : EndsNumber rest) :
    scanNumber false (Nat.toDigits 10 value.toNat ++ rest) = .ok (.number (some value), rest) := by
  have hdigits : ∀ c ∈ Nat.toDigits 10 value.toNat, c.isDigit = true := fun c hc =>
    Nat.isDigit_of_mem_toDigits (by decide) (by decide) hc
  have hnone : rest.takeWhile Char.isDigit = [] ∧ rest.dropWhile Char.isDigit = rest := by
    cases rest with
    | nil => exact ⟨rfl, rfl⟩
    | cons c rest => simp [(h c rfl).1]
  have hfraction : ∀ after, rest ≠ '.' :: after := by
    rintro after rfl
    exact (h '.' rfl).2.1 rfl
  -- only zero begins with the digit zero, and that is the whole number
  have hwhole : ∀ c more, Nat.toDigits 10 value.toNat ≠ '0' :: c :: more := by
    intro c more heq
    rw [eq_zero_of_toDigits_eq_cons heq, Nat.toDigits_zero] at heq
    cases heq
  unfold scanNumber
  rw [List.takeWhile_append_of_pos hdigits, List.dropWhile_append_of_pos hdigits, hnone.1, hnone.2,
    List.append_nil]
  split
  · next heq => exact absurd heq Nat.toDigits_ne_nil
  · next heq => exact absurd heq (hwhole _ _)
  · split
    · exact absurd rfl (hfraction _)
    · rw [scanExponent_of_endsNumber h, numberToken_toDigits]

theorem isSpace_of_isDigit {c : Char} (h : c.isDigit = true) : isSpace c = false := by
  rw [Bool.eq_false_iff]
  intro hs
  simp only [isSpace, Bool.or_eq_true, beq_iff_eq] at hs
  rcases hs with ((rfl | rfl) | rfl) | rfl <;> cases h

theorem scanOne_of_isDigit {c : Char} (h : c.isDigit = true) (rest : List Char) :
    scanOne c rest = scanNumber false (c :: rest) := by
  unfold scanOne
  split <;> first | cases h | skip
  rw [if_pos h]

/-! ### Sequences of tokens

A scan spends one unit of fuel for each token or space, and each of these has a character of its
own. So fuel for all characters of a text leaves fuel for all characters of what comes after. -/

/-- A scan of the text finds the tokens and then goes on with `rest`, with enough fuel for that. -/
def Scans (text : List Char) (found : List Token) (rest : List Char) : Prop :=
  ∀ fuel, text.length ≤ fuel → ∃ fuel', rest.length ≤ fuel' ∧
    scanFrom fuel text = (found ++ (scanFrom fuel' rest).1, (scanFrom fuel' rest).2)

namespace Scans

variable {text middle rest : List Char} {found later : List Token}

theorem refl (text : List Char) : Scans text [] text :=
  fun fuel hf => ⟨fuel, hf, rfl⟩

/-- What is left after the first tokens is where the others begin. -/
theorem trans (h : Scans text found middle) (h' : Scans middle later rest) :
    Scans text (found ++ later) rest := by
  intro fuel hf
  obtain ⟨fuel₁, hf₁, heq₁⟩ := h fuel hf
  obtain ⟨fuel₂, hf₂, heq₂⟩ := h' fuel₁ hf₁
  exact ⟨fuel₂, hf₂, by rw [heq₁, heq₂, List.append_assoc]⟩

theorem space {c : Char} (h : isSpace c = true) : Scans (c :: rest) [] rest := by
  intro fuel hf
  obtain ⟨fuel, rfl⟩ : ∃ n, fuel = n + 1 := ⟨fuel - 1, by simp at hf; omega⟩
  exact ⟨fuel, by simpa using hf, by simp [scanFrom, h]⟩

/-- A token that leaves no more text than there is takes one step of fuel. -/
theorem token {c : Char} (after : List Char) {token : Token} (hs : isSpace c = false)
    (h : scanOne c after = .ok (token, rest)) (hl : rest.length ≤ after.length) :
    Scans (c :: after) [token] rest := by
  intro fuel hf
  obtain ⟨fuel, rfl⟩ : ∃ n, fuel = n + 1 := ⟨fuel - 1, by simp at hf; omega⟩
  refine ⟨fuel, Nat.le_trans hl (by simpa using hf), by simp [scanFrom, hs, h]⟩

/-- A mark of one character. -/
theorem mark {c : Char} {token : Token} (rest : List Char) (hs : isSpace c = false)
    (h : scanOne c rest = .ok (token, rest)) : Scans (c :: rest) [token] rest :=
  Scans.token rest hs h (Nat.le_refl _)

theorem newLine (level : Nat) (rest : List Char) : Scans (Json.newLine level rest) [] rest := by
  have hspaces (n : Nat) : Scans (List.replicate n ' ' ++ rest) [] rest := by
    induction n with
    | zero => exact refl rest
    | succ n ih => exact (space (by decide)).trans ih
  exact (space (by decide)).trans (hspaces (2 * level))

theorem quoted (value : String) (rest : List Char) :
    Scans (Json.quoted value ++ rest) [.string value] rest := by
  have hscan := scanString_quoted [] rest value.toList
  have htext : Json.quoted value ++ rest = '"' :: (value.toList.flatMap escape ++ '"' :: rest) := by
    simp [Json.quoted]
  rw [htext]
  refine token _ (by decide) (hscan.trans ?_) ?_
  · simp
  · simp
    omega

theorem number (value : UInt64) (h : EndsNumber rest) :
    Scans ((toString value.toNat).toList ++ rest) [.number (some value)] rest := by
  have htext : (toString value.toNat).toList = Nat.toDigits 10 value.toNat := by simp
  obtain ⟨c, digits, heq⟩ :=
    List.exists_cons_of_ne_nil (Nat.toDigits_ne_nil (n := value.toNat) (b := 10))
  have hc : c.isDigit = true :=
    Nat.isDigit_of_mem_toDigits (by decide) (by decide) (n := value.toNat) (b := 10)
      (by simp [heq])
  have hscan := scanNumber_toDigits value h
  rw [htext, heq] at *
  refine token (digits ++ rest) ?_ ?_ ?_
  · exact isSpace_of_isDigit hc
  · exact (scanOne_of_isDigit hc _).trans hscan
  · simp

theorem scalar {value : Json} (hv : nesting value = 0) (h : EndsNumber rest) :
    Scans (Json.scalar value ++ rest) value.tokens rest := by
  cases value with
  | null =>
      exact token (['u', 'l', 'l'] ++ rest) (by decide) rfl
        (List.suffix_append _ rest).length_le
  | bool value =>
      cases value with
      | true =>
          exact token (['r', 'u', 'e'] ++ rest) (by decide) rfl
            (List.suffix_append _ rest).length_le
      | false =>
          exact token (['a', 'l', 's', 'e'] ++ rest) (by decide) rfl
            (List.suffix_append _ rest).length_le
  | number value => exact number value h
  | string value => exact quoted value rest
  | array elements => simp [nesting] at hv
  | object members => simp [nesting] at hv

end Scans

theorem endsNumber_cons {c : Char} (rest : List Char)
    (h : c.isDigit = false ∧ c ≠ '.' ∧ c ≠ 'e' ∧ c ≠ 'E') : EndsNumber (c :: rest) := by
  intro c' hc
  cases hc
  exact h

theorem endsNumber_newLine (level : Nat) (rest : List Char) : EndsNumber (newLine level rest) :=
  endsNumber_cons _ (by decide)

theorem elementTokens_cons_cons (value next : Json) (more : List Json) :
    elementTokens true (value :: next :: more) =
      value.tokens ++ ([.comma] ++ elementTokens true (next :: more)) := by
  simp [elementTokens]

theorem memberTokens_cons_cons (name : String) (value : Json) (next : String × Json)
    (more : List (String × Json)) : memberTokens true ((name, value) :: next :: more) =
      [.string name] ++ ([.colon] ++
        (value.tokens ++ ([.comma] ++ memberTokens true (next :: more)))) := by
  simp [memberTokens]

mutual

theorem scans_writeCompact : ∀ (value : Json) {rest : List Char}, EndsNumber rest →
    Scans (writeCompact value rest) value.tokens rest
  | .null, rest, h | .bool _, rest, h | .number _, rest, h | .string _, rest, h => by
      rw [writeCompact]
      · exact Scans.scalar (by simp [nesting]) h
      · simp
      · simp
  | .array elements, rest, _ => by
      rw [writeCompact, tokens]
      exact (Scans.mark _ rfl rfl).trans ((scans_writeElements elements
        (endsNumber_cons rest (by decide))).trans (Scans.mark _ rfl rfl))
  | .object members, rest, _ => by
      rw [writeCompact, tokens]
      exact (Scans.mark _ rfl rfl).trans ((scans_writeMembers members
        (endsNumber_cons rest (by decide))).trans (Scans.mark _ rfl rfl))

theorem scans_writeElements : ∀ (elements : List Json) {rest : List Char}, EndsNumber rest →
    Scans (writeElements elements rest) (elementTokens true elements) rest
  | [], rest, _ => Scans.refl rest
  | [value], rest, h => by
      rw [writeElements]
      simpa [elementTokens] using scans_writeCompact value h
  | value :: next :: more, rest, h => by
      rw [writeElements, elementTokens_cons_cons]
      · exact (scans_writeCompact value (endsNumber_cons _ (by decide))).trans
          ((Scans.mark _ rfl rfl).trans (scans_writeElements (next :: more) h))
      · simp

theorem scans_writeMembers : ∀ (members : List (String × Json)) {rest : List Char},
    EndsNumber rest → Scans (writeMembers members rest) (memberTokens true members) rest
  | [], rest, _ => Scans.refl rest
  | [(name, value)], rest, h => by
      rw [writeMembers]
      simpa [memberTokens] using
        (Scans.quoted name _).trans ((Scans.mark _ rfl rfl).trans (scans_writeCompact value h))
  | (name, value) :: next :: more, rest, h => by
      rw [writeMembers, memberTokens_cons_cons]
      · exact (Scans.quoted name _).trans ((Scans.mark _ rfl rfl).trans
          ((scans_writeCompact value (endsNumber_cons _ (by decide))).trans
            ((Scans.mark _ rfl rfl).trans (scans_writeMembers (next :: more) h))))
      · simp

end

mutual

/-- What is written on lines scans as the tokens of the value. After a number, which has no end of its
own, no digit may come. -/
theorem scans_writePretty (level : Nat) : ∀ (value : Json) {rest : List Char}, EndsNumber rest →
    Scans (writePretty level value rest) value.tokens rest
  | .null, rest, h | .bool _, rest, h | .number _, rest, h | .string _, rest, h => by
      rw [writePretty]
      · exact Scans.scalar (by simp [nesting]) h
      all_goals simp
  | .array [], rest, _ => by
      rw [writePretty]
      exact (Scans.mark _ rfl rfl).trans (Scans.mark _ rfl rfl)
  | .array (value :: more), rest, _ => by
      -- the elements end before a line feed, where a number ends too
      rw [writePretty, tokens]
      · exact (Scans.mark _ rfl rfl).trans ((scans_writePrettyElements (level + 1) (value :: more)
          (endsNumber_newLine level _)).trans
            ((Scans.newLine level _).trans (Scans.mark _ rfl rfl)))
      · simp
  | .object [], rest, _ => by
      rw [writePretty]
      exact (Scans.mark _ rfl rfl).trans (Scans.mark _ rfl rfl)
  | .object (member :: more), rest, _ => by
      rw [writePretty, tokens]
      · exact (Scans.mark _ rfl rfl).trans ((scans_writePrettyMembers (level + 1) (member :: more)
          (endsNumber_newLine level _)).trans
            ((Scans.newLine level _).trans (Scans.mark _ rfl rfl)))
      · simp

theorem scans_writePrettyElements (level : Nat) : ∀ (elements : List Json) {rest : List Char},
    EndsNumber rest →
      Scans (writePrettyElements level elements rest) (elementTokens true elements) rest
  | [], rest, _ => Scans.refl rest
  | [value], rest, h => by
      rw [writePrettyElements]
      simpa [elementTokens] using (Scans.newLine level _).trans (scans_writePretty level value h)
  | value :: next :: more, rest, h => by
      rw [writePrettyElements, elementTokens_cons_cons]
      · exact (Scans.newLine level _).trans
          ((scans_writePretty level value (endsNumber_cons _ (by decide))).trans
            ((Scans.mark _ rfl rfl).trans (scans_writePrettyElements level (next :: more) h)))
      · simp

theorem scans_writePrettyMembers (level : Nat) : ∀ (members : List (String × Json))
    {rest : List Char}, EndsNumber rest →
      Scans (writePrettyMembers level members rest) (memberTokens true members) rest
  | [], rest, _ => Scans.refl rest
  | [(name, value)], rest, h => by
      rw [writePrettyMembers]
      simpa [memberTokens] using (Scans.newLine level _).trans ((Scans.quoted name _).trans
        ((Scans.mark _ rfl rfl).trans ((Scans.space rfl).trans (scans_writePretty level value h))))
  | (name, value) :: next :: more, rest, h => by
      rw [writePrettyMembers, memberTokens_cons_cons]
      · exact (Scans.newLine level _).trans ((Scans.quoted name _).trans
          ((Scans.mark _ rfl rfl).trans ((Scans.space rfl).trans
            ((scans_writePretty level value (endsNumber_cons _ (by decide))).trans
              ((Scans.mark _ rfl rfl).trans (scans_writePrettyMembers level (next :: more) h))))))
      · simp

end

/-! ### Whole texts -/

/-- A scan with fuel for the whole text comes to its end. -/
theorem Scans.scan {text : List Char} {found : List Token} (h : Scans text found []) :
    Token.scan text = (found, .finished) := by
  obtain ⟨fuel, -, heq⟩ := h text.length (Nat.le_refl _)
  have hend : scanFrom fuel [] = ([], .finished) := by cases fuel <;> rfl
  rw [Token.scan, heq, hend, List.append_nil]

/-- A value is scanned as its tokens from either of its texts. -/
theorem scan_of_written {value : Json} {text : String}
    (h : text = value.compact ∨ text = value.pretty) :
    Token.scan text.toList = (value.tokens, .finished) := by
  have hend : EndsNumber [] := fun c hc => by cases hc
  rcases h with rfl | rfl
  · simpa [compact] using (scans_writeCompact value hend).scan
  · simpa [pretty] using (scans_writePretty 0 value hend).scan

mutual

/-- What comes after a value in a text may be written with it or after it. -/
theorem writePretty_append (level : Nat) : ∀ (value : Json) (rest after : List Char),
    writePretty level value rest ++ after = writePretty level value (rest ++ after)
  | .null, rest, after | .bool _, rest, after | .number _, rest, after | .string _, rest, after => by
      simp only [writePretty, List.append_assoc]
  | .array [], rest, after => by
      simp only [writePretty, List.cons_append]
  | .array (value :: more), rest, after => by
      simp only [writePretty, List.cons_append, newLine, List.append_assoc,
        writePrettyElements_append]
  | .object [], rest, after => by
      simp only [writePretty, List.cons_append]
  | .object (member :: more), rest, after => by
      simp only [writePretty, List.cons_append, newLine, List.append_assoc,
        writePrettyMembers_append]

theorem writePrettyElements_append (level : Nat) : ∀ (elements : List Json)
    (rest after : List Char), writePrettyElements level elements rest ++ after =
      writePrettyElements level elements (rest ++ after)
  | [], rest, after => rfl
  | [value], rest, after => by
      simp only [writePrettyElements, newLine, List.cons_append, List.append_assoc,
        writePretty_append]
  | value :: next :: more, rest, after => by
      simp only [writePrettyElements, newLine, List.cons_append, List.append_assoc,
        writePretty_append, writePrettyElements_append]

theorem writePrettyMembers_append (level : Nat) : ∀ (members : List (String × Json))
    (rest after : List Char), writePrettyMembers level members rest ++ after =
      writePrettyMembers level members (rest ++ after)
  | [], rest, after => rfl
  | [(name, value)], rest, after => by
      simp only [writePrettyMembers, newLine, List.cons_append, List.append_assoc,
        writePretty_append]
  | (name, value) :: next :: more, rest, after => by
      simp only [writePrettyMembers, newLine, List.cons_append, List.append_assoc,
        writePretty_append, writePrettyMembers_append]

end

/-- A line feed after the pretty text of a value is no token. -/
theorem scan_of_printed (value : Json) :
    Token.scan (value.pretty ++ "\n").toList = (value.tokens, .finished) := by
  have hfeed : EndsNumber ['\n'] := endsNumber_cons [] (by decide)
  have htext : (value.pretty ++ "\n").toList = writePretty 0 value ['\n'] := by
    simp [pretty, writePretty_append]
  have hscans := (scans_writePretty 0 value hfeed).trans (Scans.space (by decide))
  rw [List.append_nil] at hscans
  rw [htext]
  exact hscans.scan

/-- As many containers are open at once in a text as lie around one another in its value. -/
theorem mostOpen_of_written {value : Json} {text : String}
    (h : text = value.compact ∨ text = value.pretty) : mostOpen text = value.nesting := by
  have hopen := mostOpenFrom_tokens 0 value []
  rw [List.append_nil] at hopen
  rw [mostOpen, scan_of_written h, hopen, mostOpenFrom]
  omega

end DefinitionLists.Json
