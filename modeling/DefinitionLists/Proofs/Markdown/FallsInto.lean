/-
Module: DefinitionLists.Proofs.Markdown.FallsInto
Purpose: Running text that falls into shorter texts: its reading comes past each of them in turn and finds
  markup nowhere else. Then the shorter texts, each read alone, have the same markup.
Main exports: Reading.Leads, Reading.markups_of_leads, Reading.FallsInto, Reading.markups_of_fallsInto,
  Reading.fallsBy, Reading.fallsInto_of_steps
-/
import DefinitionLists.Proofs.Markdown.StandAlone

namespace DefinitionLists.Markdown

namespace Reading

variable {deletions : Bool} {depth : Nat} {state stop : Reading} {symbols left : List Symbol}

/-! ### Runs -/

/-- Whether reading some symbols comes to a state with some symbols left, and on the way closes none of
that many outermost brackets. No label has a target. -/
inductive Leads (deletions : Bool) (depth : Nat) :
    (state : Reading) → (symbols : List Symbol) → (stop : Reading) → (left : List Symbol) → Prop where
  | here {state : Reading} {symbols : List Symbol} : Leads deletions depth state symbols state symbols
  | step {state stop : Reading} {symbol : Symbol} {rest left : List Symbol}
      (deep : depth ≤ (step deletions [] state symbol rest).1.brackets.length)
      (more : Leads deletions depth (step deletions [] state symbol rest).1
        (step deletions [] state symbol rest).2 stop left) :
      Leads deletions depth state (symbol :: rest) stop left

/-- Reading goes forward only. -/
theorem Leads.suffix (h : Leads deletions depth state symbols stop left) : left <:+ symbols := by
  induction h with
  | here => exact List.suffix_refl _
  | step _ _ ih => exact suffix_cons_of_suffix (ih.trans (step_suffix _ _ _ _ _)) _

/-- A run that takes nothing does nothing. -/
theorem Leads.eq_of_same (h : Leads deletions depth state symbols stop symbols) : stop = state := by
  cases h with
  | here => rfl
  | step _ more =>
      have hlong := (more.suffix.trans (step_suffix _ _ _ _ _)).length_le
      exact absurd hlong (Nat.not_succ_le_self _)

theorem run_nil (deletions : Bool) (targets : Targets) (bound : Nat) (state : Reading) :
    run deletions targets bound state [] = state := by
  cases bound <;> rfl

theorem run_cons (deletions : Bool) (targets : Targets) (bound : Nat) (state : Reading)
    (symbol : Symbol) (rest : List Symbol) :
    run deletions targets (bound + 1) state (symbol :: rest) =
      run deletions targets bound (step deletions targets state symbol rest).1
        (step deletions targets state symbol rest).2 :=
  rfl

/-- As many steps as there are symbols suffice, and more do no harm. -/
theorem run_of_le {bound bound' : Nat} (h : symbols.length ≤ bound) (h' : symbols.length ≤ bound')
    (deletions : Bool) (targets : Targets) (state : Reading) :
    run deletions targets bound state symbols = run deletions targets bound' state symbols := by
  induction bound generalizing bound' state symbols with
  | zero =>
      rw [List.eq_nil_of_length_eq_zero (Nat.le_zero.1 h), run_nil, run_nil]
  | succ bound ih =>
      cases symbols with
      | nil => rw [run_nil, run_nil]
      | cons symbol rest =>
          have hrest := (step_suffix deletions targets state symbol rest).length_le
          rw [List.length_cons] at h h'
          obtain ⟨bound', rfl⟩ : ∃ n, bound' = n + 1 := ⟨bound' - 1, by omega⟩
          exact ih (Nat.le_trans hrest (by omega)) (Nat.le_trans hrest (by omega)) _

/-- What a run comes past does not change what it leads to. -/
theorem Leads.run_eq (h : Leads deletions depth state symbols stop left) :
    run deletions [] symbols.length state symbols = run deletions [] left.length stop left := by
  induction h with
  | here => rfl
  | @step state stop symbol rest left deep more ih =>
      rw [List.length_cons, run_cons, ← ih]
      exact run_of_le (step_suffix _ _ _ _ _).length_le (Nat.le_refl _) _ _ _

/-! ### One text -/

/-- A reading that comes past a text adds the markup that the text has alone. -/
theorem markups_of_leads {blanks : Bool} {front : List Markup} {alone : Reading}
    {own text back : List Symbol}
    (h : Alike blanks front depth state alone) (hs : SameText blanks own text) (hback : AtLineEnd back)
    (hl : Leads deletions depth state (own ++ back) stop back) {bound : Nat}
    (hbound : text.length ≤ bound) :
    stop.markups blanks = front ++ (run deletions [] bound alone text).markups blanks := by
  generalize hsymbols : own ++ back = symbols at hl
  induction hl generalizing own text alone bound with
  | @here state back =>
      obtain rfl : own = [] := List.append_left_eq_self.1 hsymbols
      cases hs
      rw [run_nil, h.markups]
  | @step state stop symbol rest back deep more ih =>
      have hsuffix := more.suffix
      cases own with
      | nil =>
          -- a reading cannot be at what comes after the text before it has read anything of it
          have hlong := (hsuffix.trans (step_suffix _ _ _ _ _)).length_le
          rw [← List.nil_append back, hsymbols] at hlong
          exact absurd hlong (Nat.not_succ_le_self _)
      | cons first own =>
          obtain ⟨rfl, rfl⟩ := List.cons.inj hsymbols
          obtain ⟨symbol', text, rfl⟩ : ∃ symbol' text', text = symbol' :: text' :=
            List.exists_cons_of_length_eq_add_one hs.length_eq.symm
          obtain ⟨bound, rfl⟩ : ∃ n, bound = n + 1 := ⟨bound - 1, by
            rw [List.length_cons] at hbound
            omega⟩
          have hshort := (step_suffix deletions [] alone symbol' text).length_le
          rw [List.length_cons] at hbound
          rw [run_cons]
          have hnext := step_alike h hs hback deep hsuffix.length_le
          generalize step deletions [] state first (own ++ back) = next at more ih hnext
          generalize step deletions [] alone symbol' text = alone' at hshort hnext ⊢
          cases hnext with
          | @intro state' alone' own' text' hleft hmarkups halike =>
              -- once the text alone is over, the other reading has come past it too
              by_cases hend : text' = []
              · subst hend
                cases hleft
                rw [more.eq_of_same, hmarkups, run_nil]
              · exact ih (halike hend) hleft hback
                  (Nat.le_trans hshort (Nat.le_of_succ_le_succ hbound)) rfl

/-! ### Texts in turn -/

/-- Whether reading some symbols comes past each of some texts in turn: it stands at the start of the
text, comes to its end where a line ends, and closes on the way no bracket that was open before. Outside
of the texts no link, image or code is found. If blanks count, the texts are the same to the last of
them. -/
inductive FallsInto (blanks deletions : Bool) : (state : Reading) → (symbols : List Symbol) →
    (texts : List (List Symbol)) → Prop where
  | done {state : Reading} {symbols : List Symbol}
      (nothing : (run deletions [] symbols.length state symbols).markups blanks = state.markups blanks) :
      FallsInto blanks deletions state symbols []
  | text {state start stop : Reading} {symbols own text back : List Symbol} {texts : List (List Symbol)}
      (before : Leads deletions 0 state symbols start (own ++ back))
      (nothing : start.markups blanks = state.markups blanks) (same : SameText blanks own text)
      (ends : AtLineEnd back) (past : Leads deletions start.brackets.length start (own ++ back) stop back)
      (after : FallsInto blanks deletions stop back texts) :
      FallsInto blanks deletions state symbols (text :: texts)

/-- A text that is read alone begins where some markup was read and some brackets are open. -/
theorem alike_start (blanks : Bool) (state : Reading) :
    Alike blanks (state.markups blanks) state.brackets.length state {} where
  levels := .outermost rfl (List.append_nil _).symm
  previous h := absurd rfl h

/-- The markup that a reading finds is that of the texts, each read alone, in their order. -/
theorem markups_of_fallsInto {blanks : Bool} {texts : List (List Symbol)}
    (h : FallsInto blanks deletions state symbols texts) :
    (run deletions [] symbols.length state symbols).markups blanks =
      state.markups blanks ++ texts.flatMap (Dialect.markups ⟨deletions, []⟩ blanks) := by
  induction h with
  | done nothing => rw [nothing, List.flatMap_nil, List.append_nil]
  | @text state start stop symbols own text back texts before nothing same ends past after ih =>
      have hone := markups_of_leads (alike_start blanks start) same ends past (Nat.le_refl _)
      rw [before.run_eq, past.run_eq, ih, hone, nothing, List.flatMap_cons, List.append_assoc,
        markups_ofSymbols blanks ⟨deletions, []⟩ text]

/-! ### Texts found by counting steps

Two counts for each text, of the steps to its start and of those from there to its end, show that a reading
comes past the texts. Where it does, there are such counts. -/

/-- What a reading comes to in so many steps, if it closes on the way none of that many brackets. -/
def steps? (deletions : Bool) (depth : Nat) :
    (count : Nat) → Reading → List Symbol → Option (Reading × List Symbol)
  | 0, state, symbols => some (state, symbols)
  | _ + 1, _, [] => none
  | count + 1, state, symbol :: rest =>
    match step deletions [] state symbol rest with
    | (next, left) => if depth ≤ next.brackets.length then steps? deletions depth count next left else none

/-- Counting the steps shows where they lead. -/
theorem leads_of_steps {count : Nat} (h : steps? deletions depth count state symbols = some (stop, left)) :
    Leads deletions depth state symbols stop left := by
  fun_induction steps? deletions depth count state symbols with
  | case1 state symbols =>
      cases h
      exact .here
  | case2 => cases h
  | case3 count state symbol rest next left' hstep hdeep ih =>
      apply Leads.step <;> rw [hstep]
      · exact hdeep
      · exact ih h
  | case4 => cases h

/-- Whether a text stands where reading starts, and so many steps lead past it. What comes after it is
left. -/
def past? (blanks deletions : Bool) (text : List Symbol) (count : Nat) (start : Reading)
    (symbols : List Symbol) : Option (Reading × List Symbol) :=
  (steps? deletions start.brackets.length count start symbols).filter fun (_, back) =>
    SameText blanks (symbols.take text.length) text ∧ symbols.drop text.length = back ∧ AtLineEnd back

/-- The text that is looked for is what stands there, up to the end of a line. -/
theorem past_eq_some_iff {blanks : Bool} {text back : List Symbol} {count : Nat} {start : Reading} :
    past? blanks deletions text count start symbols = some (stop, back) ↔
      steps? deletions start.brackets.length count start symbols = some (stop, back) ∧
        ∃ own, symbols = own ++ back ∧ SameText blanks own text ∧ AtLineEnd back := by
  simp only [past?, Option.filter_eq_some_iff, decide_eq_true_eq]
  refine and_congr_right fun _ => ⟨?_, ?_⟩
  · rintro ⟨hsame, rfl, hends⟩
    exact ⟨_, (List.take_append_drop _ _).symm, hsame, hends⟩
  · rintro ⟨own, rfl, hsame, hends⟩
    rw [List.take_left' hsame.length_eq, List.drop_left' hsame.length_eq]
    exact ⟨hsame, rfl, hends⟩

/-- Whether texts are found where so many steps lead to the start of each, and so many past it. -/
def fallsBy (blanks deletions : Bool) :
    (steps : List (Nat × Nat)) → (texts : List (List Symbol)) → Reading → List Symbol → Bool
  | [], [], state, symbols =>
    (run deletions [] symbols.length state symbols).markups blanks = state.markups blanks
  | (before, within) :: more, text :: others, state, symbols =>
    (steps? deletions 0 before state symbols).any fun (start, front) =>
      start.markups blanks = state.markups blanks &&
        (past? blanks deletions text within start front).any fun (stop, back) =>
          fallsBy blanks deletions more others stop back
  | _, _, _, _ => false

/-- Texts that are found by steps are fallen into. -/
theorem fallsInto_of_steps {blanks : Bool} {steps : List (Nat × Nat)} {texts : List (List Symbol)}
    (h : fallsBy blanks deletions steps texts state symbols = true) :
    FallsInto blanks deletions state symbols texts := by
  fun_induction fallsBy blanks deletions steps texts state symbols with
  | case1 state symbols => exact .done (of_decide_eq_true h)
  | case2 before within more text others state symbols ih =>
      simp only [Option.any_eq_true, Prod.exists, Bool.and_eq_true, decide_eq_true_eq] at h
      obtain ⟨start, front, hbefore, hnothing, stop, back, hpast, hmore⟩ := h
      obtain ⟨hwithin, own, rfl, hsame, hends⟩ := past_eq_some_iff.1 hpast
      exact .text (leads_of_steps hbefore) hnothing hsame hends (leads_of_steps hwithin) (ih _ _ hmore)
  | case3 => cases h

end Reading

end DefinitionLists.Markdown
