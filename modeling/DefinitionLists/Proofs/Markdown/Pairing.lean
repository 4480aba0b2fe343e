/-
Module: DefinitionLists.Proofs.Markdown.Pairing
Purpose: The pairing of delimiter runs moves parts of running text into spans and does nothing else to
  them: it goes with every change of parts that leaves text and spans alone, and keeps the order of all
  that parts hold.
Main exports: Inline.KeepsSpans, Inline.ofPieces_map, Inline.SeesThroughSpans, Inline.flatMap_ofPieces
-/
import DefinitionLists.Markdown.Inline

namespace DefinitionLists.Markdown

/-! ### Runs that are open -/

namespace Pairing

theorem flatten_append (inside around : List OpenSpan) :
    flatten (inside ++ around) = flatten inside ++ flatten around := by
  induction inside with
  | nil => rfl
  | cons top below ih => simp only [List.cons_append, flatten, ih, List.append_assoc]

theorem eq_of_findOpener {p : DelimiterRun → Bool} {stack inside around : List OpenSpan}
    {opener : OpenSpan} (h : findOpener p stack = some (inside, opener, around)) :
    stack = inside ++ opener :: around := by
  induction stack generalizing inside with
  | nil => cases h
  | cons top below ih =>
      rw [findOpener] at h
      split at h
      · cases h
        rfl
      · obtain ⟨⟨inside, found, around⟩, hfound, heq⟩ := Option.map_eq_some_iff.1 h
        cases heq
        rw [ih hfound, List.cons_append]

/-- An opener that is found among the innermost runs splits all of them. -/
theorem eq_of_findOpener_take {p : DelimiterRun → Bool} {stack inside around : List OpenSpan}
    {opener : OpenSpan} {count : Nat}
    (h : findOpener p (stack.take count) = some (inside, opener, around)) :
    stack = inside ++ opener :: stack.drop (inside.length + 1) := by
  have hstack : stack = (inside ++ [opener]) ++ (around ++ stack.drop count) := by
    rw [← List.append_assoc, List.append_assoc inside, List.singleton_append, ← eq_of_findOpener h,
      List.take_append_drop]
  have hdrop : stack.drop (inside.length + 1) = around ++ stack.drop count := by
    rw [hstack, List.drop_left' (by simp), ← hstack]
  rw [hdrop]
  simpa using hstack

/-- The open runs that a run may pair with. -/
def reachable (state : Pairing) (char : Char) : List OpenSpan :=
  if char = '~' then state.stack.take (state.stack.length - state.tildeFloor) else state.stack

/-- What is known once a run ended the span that a run among the open ones began. -/
def enclose (state : Pairing) (run : DelimiterRun) (inside : List OpenSpan) (opener : OpenSpan) :
    Pairing :=
  let around := state.stack.drop (inside.length + 1)
  let paired := min run.count opener.run.count
  let wrapped := wrapSpan run.char paired (flatten inside ++ opener.after).reverse
  let left : DelimiterRun := { opener.run with count := opener.run.count - paired }
  let state : Pairing := { state with
    stack := around, tildeFloor := min state.tildeFloor around.length }
  if left.count = 0 then wrapped.foldl add state
  else { state with stack := ⟨left, wrapped.reverse⟩ :: around }

/-- One round of pairing: the run ends the innermost span it can end, and what is left of it goes on. -/
theorem close_succ (bound : Nat) (state : Pairing) (run : DelimiterRun) :
    close (bound + 1) state run =
      if run.count = 0 then (state, run)
      else match findOpener run.closesSpanOf (state.reachable run.char) with
        | some (inside, opener, _) =>
          close bound (state.enclose run inside opener)
            { run with count := run.count - min run.count opener.run.count }
        | none =>
          (if run.char = '~' then { state with tildeFloor := state.stack.length } else state, run) :=
  rfl

/-- An opener that is found splits the open runs into those inside its span and those around it. -/
theorem stack_of_reachable {p : DelimiterRun → Bool} {state : Pairing} {char : Char}
    {inside around : List OpenSpan} {opener : OpenSpan}
    (h : findOpener p (state.reachable char) = some (inside, opener, around)) :
    state.stack = inside ++ opener :: state.stack.drop (inside.length + 1) := by
  unfold reachable at h
  split at h
  · exact eq_of_findOpener_take h
  · rw [← List.take_length (l := state.stack)] at h
    exact eq_of_findOpener_take h

end Pairing

/-! ### Changes of parts -/

/-- Whether a change of parts leaves text alone and goes through spans. -/
structure Inline.KeepsSpans (f : Inline → Inline) : Prop where
  text : ∀ value, f (.text value) = .text value
  span : ∀ kind content, f (.span kind content) = .span kind (content.map f)

/-- Changes the part that a piece is. -/
def Piece.map (f : Inline → Inline) : Piece → Piece
  | .inline part => .inline (f part)
  | piece => piece

/-- Changes the parts after an open run. -/
def OpenSpan.map (f : Inline → Inline) (span : OpenSpan) : OpenSpan :=
  { span with after := span.after.map f }

/-- Changes all parts. -/
def Pairing.map (f : Inline → Inline) (state : Pairing) : Pairing :=
  { state with before := state.before.map f, stack := state.stack.map (OpenSpan.map f) }

section Map

variable {f : Inline → Inline}

/-- Changing what is wrapped and changing the span are the same. -/
theorem wrapSpan_map (hf : Inline.KeepsSpans f) (char : Char) (count : Nat) (content : List Inline) :
    wrapSpan char count (content.map f) = (wrapSpan char count content).map f := by
  have hstrong (times : Nat) :
      (List.range times).foldl (fun inner _ => [Inline.span .strong inner]) (content.map f) =
        ((List.range times).foldl (fun inner _ => [Inline.span .strong inner]) content).map f := by
    induction times with
    | zero => rfl
    | succ n ih =>
        simp only [List.range_succ, List.foldl_append, List.foldl_cons, List.foldl_nil, ih,
          List.map_cons, List.map_nil, hf.span]
  unfold wrapSpan
  simp only [hstrong]
  split
  · rw [List.map_singleton, hf.span]
  · split
    · rw [List.map_singleton, hf.span]
    · rfl

namespace Pairing

theorem add_map (state : Pairing) (part : Inline) :
    (state.map f).add (f part) = (state.add part).map f := by
  unfold add
  cases hstack : state.stack with
  | nil => simp [map, hstack]
  | cons top below => simp [map, hstack, OpenSpan.map]

theorem foldl_add_map (parts : List Inline) (state : Pairing) :
    (parts.map f).foldl add (state.map f) = (parts.foldl add state).map f := by
  induction parts generalizing state with
  | nil => rfl
  | cons part more ih => rw [List.map_cons, List.foldl_cons, add_map, ih, List.foldl_cons]

theorem flatten_map (hf : Inline.KeepsSpans f) (stack : List OpenSpan) :
    flatten (stack.map (OpenSpan.map f)) = (flatten stack).map f := by
  induction stack with
  | nil => rfl
  | cons top below ih =>
      simp only [List.map_cons, flatten, ih, OpenSpan.map, DelimiterRun.asText, List.map_append, hf.text]

theorem findOpener_map (p : DelimiterRun → Bool) (stack : List OpenSpan) :
    findOpener p (stack.map (OpenSpan.map f)) = (findOpener p stack).map
      fun (inside, found, around) =>
        (inside.map (OpenSpan.map f), found.map f, around.map (OpenSpan.map f)) := by
  induction stack with
  | nil => rfl
  | cons top below ih =>
      rw [List.map_cons, findOpener, findOpener, ih]
      change (if p top.run = true then _ else _) = _
      split
      · rfl
      · rw [Option.map_map, Option.map_map]
        rfl

theorem reachable_map (state : Pairing) (char : Char) :
    (state.map f).reachable char = (state.reachable char).map (OpenSpan.map f) := by
  unfold reachable
  split
  · simp [map, List.map_take]
  · rfl

theorem enclose_map (hf : Inline.KeepsSpans f) (state : Pairing) (run : DelimiterRun)
    (inside : List OpenSpan) (opener : OpenSpan) :
    (state.map f).enclose run (inside.map (OpenSpan.map f)) (opener.map f) =
      (state.enclose run inside opener).map f := by
  have hcontent : (flatten (inside.map (OpenSpan.map f)) ++ (opener.map f).after).reverse =
      (flatten inside ++ opener.after).reverse.map f := by
    rw [flatten_map hf, OpenSpan.map, ← List.map_append, List.map_reverse]
  have haround : (state.map f).stack.drop ((inside.map (OpenSpan.map f)).length + 1) =
      (state.stack.drop (inside.length + 1)).map (OpenSpan.map f) := by
    rw [List.length_map]
    exact List.map_drop.symm
  unfold enclose
  simp only [hcontent, haround, wrapSpan_map hf]
  simp only [OpenSpan.map, map, List.length_map]
  split
  · exact foldl_add_map _ ⟨state.before, state.stack.drop (inside.length + 1),
      min state.tildeFloor (state.stack.drop (inside.length + 1)).length⟩
  · simp [OpenSpan.map]

/-- Which runs pair does not depend on what stands between them. -/
theorem close_map (hf : Inline.KeepsSpans f) (bound : Nat) (state : Pairing) (run : DelimiterRun) :
    close bound (state.map f) run = ((close bound state run).1.map f, (close bound state run).2) := by
  induction bound generalizing state run with
  | zero => rfl
  | succ bound ih =>
      rw [close_succ, close_succ, reachable_map, findOpener_map]
      split
      · rfl
      · cases findOpener run.closesSpanOf (state.reachable run.char) with
        | none =>
            simp only [Option.map_none]
            split
            · simp [map]
            · rfl
        | some found =>
            obtain ⟨inside, opener, around⟩ := found
            simp only [Option.map_some, enclose_map hf, ih]
            rfl

theorem take_map (hf : Inline.KeepsSpans f) (state : Pairing) (piece : Piece) :
    (state.map f).take (piece.map f) = (state.take piece).map f := by
  cases piece with
  | text backwards =>
      have hadd := add_map (f := f) state (.text backwards.reverse)
      rw [hf.text] at hadd
      exact hadd
  | inline part => exact add_map state part
  | run delimiters =>
      have hplain (state : Pairing) (left : DelimiterRun) :
          (if left.count = 0 then state.map f
            else if left.opens then { state.map f with stack := ⟨left, []⟩ :: (state.map f).stack }
            else (state.map f).add left.asText) =
          (if left.count = 0 then state
            else if left.opens then { state with stack := ⟨left, []⟩ :: state.stack }
            else state.add left.asText).map f := by
        have htext := add_map (f := f) state left.asText
        rw [DelimiterRun.asText, hf.text] at htext
        split
        · rfl
        · split
          · rfl
          · exact htext
      unfold take Piece.map
      simp only
      split
      · simp only [close_map hf]
        exact hplain _ _
      · exact hplain _ _

theorem finish_map (hf : Inline.KeepsSpans f) (state : Pairing) :
    (state.map f).finish = state.finish.map f := by
  simp only [finish, map, flatten_map hf, List.map_reverse, List.map_append]

end Pairing

/-- The pairing of delimiter runs goes with changes of the parts between them. -/
theorem Inline.ofPieces_map (hf : Inline.KeepsSpans f) (pieces : List Piece) :
    Inline.ofPieces (pieces.map (Piece.map f)) = (Inline.ofPieces pieces).map f := by
  have hfold (state : Pairing) :
      (pieces.map (Piece.map f)).foldl Pairing.take (state.map f) =
        (pieces.foldl Pairing.take state).map f := by
    induction pieces generalizing state with
    | nil => rfl
    | cons piece more ih =>
        rw [List.map_cons, List.foldl_cons, List.foldl_cons, Pairing.take_map hf, ih]
  rw [Inline.ofPieces, Inline.ofPieces, ← Pairing.finish_map hf, ← hfold]
  rfl

end Map

/-! ### What parts hold -/

/-- Whether what a part holds is that of its content if it is a span, and nothing if it is text. -/
structure Inline.SeesThroughSpans {α : Type} (held : Inline → List α) : Prop where
  text : ∀ value, held (.text value) = []
  span : ∀ kind content, held (.span kind content) = content.flatMap held

/-- What the part holds that a piece is. -/
def Piece.held {α : Type} (held : Inline → List α) : Piece → List α
  | .inline part => held part
  | .text _ | .run _ => []

section Held

variable {α : Type} {held : Inline → List α}

theorem flatMap_wrapSpan (hs : Inline.SeesThroughSpans held) (char : Char) (count : Nat)
    (content : List Inline) : (wrapSpan char count content).flatMap held = content.flatMap held := by
  have hone (kind : SpanKind) (content : List Inline) :
      [Inline.span kind content].flatMap held = content.flatMap held := by
    rw [List.flatMap_singleton, hs.span]
  have hstrong (times : Nat) :
      ((List.range times).foldl (fun inner _ => [Inline.span .strong inner]) content).flatMap held =
        content.flatMap held := by
    induction times with
    | zero => rfl
    | succ n ih =>
        rw [List.range_succ, List.foldl_append, List.foldl_cons, List.foldl_nil, hone, ih]
  unfold wrapSpan
  simp only
  split
  · exact hone _ _
  · split
    · rw [hone, hstrong]
    · exact hstrong _

namespace Pairing

/-- What parts hold that are given the last one first. -/
def heldBackwards (held : Inline → List α) (parts : List Inline) : List α :=
  parts.reverse.flatMap held

theorem heldBackwards_append (later earlier : List Inline) :
    heldBackwards held (later ++ earlier) = heldBackwards held earlier ++ heldBackwards held later := by
  rw [heldBackwards, List.reverse_append, List.flatMap_append]
  rfl

theorem heldBackwards_cons (part : Inline) (earlier : List Inline) :
    heldBackwards held (part :: earlier) = heldBackwards held earlier ++ held part := by
  rw [← List.singleton_append, heldBackwards_append]
  exact congrArg _ (List.flatMap_singleton held part)

theorem heldBackwards_flatten_cons (hs : Inline.SeesThroughSpans held) (top : OpenSpan)
    (below : List OpenSpan) : heldBackwards held (flatten (top :: below)) =
      heldBackwards held (flatten below) ++ heldBackwards held top.after := by
  rw [flatten, heldBackwards_append, heldBackwards_cons, DelimiterRun.asText, hs.text, List.append_nil]

theorem flatMap_finish (state : Pairing) : state.finish.flatMap held =
    heldBackwards held state.before ++ heldBackwards held (flatten state.stack) := by
  rw [finish]
  exact heldBackwards_append _ _

theorem flatMap_finish_add (hs : Inline.SeesThroughSpans held) (state : Pairing) (part : Inline) :
    (state.add part).finish.flatMap held = state.finish.flatMap held ++ held part := by
  rw [flatMap_finish, flatMap_finish]
  unfold add
  split
  · next heq => simp [heq, flatten, heldBackwards]
  · next top below heq =>
    simp only [heq, heldBackwards_flatten_cons hs, heldBackwards_cons, List.append_assoc]

theorem flatMap_finish_foldl_add (hs : Inline.SeesThroughSpans held) (parts : List Inline)
    (state : Pairing) :
    (parts.foldl add state).finish.flatMap held = state.finish.flatMap held ++ parts.flatMap held := by
  induction parts generalizing state with
  | nil => simp
  | cons part more ih =>
      rw [List.foldl_cons, ih, flatMap_finish_add hs, List.flatMap_cons, List.append_assoc]

/-- Ending a span moves parts into it, and none away. -/
theorem flatMap_finish_enclose (hs : Inline.SeesThroughSpans held) {state : Pairing}
    (run : DelimiterRun) {inside : List OpenSpan} {opener : OpenSpan}
    (h : state.stack = inside ++ opener :: state.stack.drop (inside.length + 1)) :
    (state.enclose run inside opener).finish.flatMap held = state.finish.flatMap held := by
  -- the open runs are split at the opener: what is around, then what is inside
  have hwhole : state.finish.flatMap held =
      heldBackwards held state.before ++
        heldBackwards held (flatten (state.stack.drop (inside.length + 1))) ++
        heldBackwards held (flatten inside ++ opener.after) := by
    rw [flatMap_finish]
    conv => lhs; rw [h]
    simp only [flatten_append, heldBackwards_append, heldBackwards_flatten_cons hs, List.append_assoc]
  have hwrapped := flatMap_wrapSpan hs run.char (min run.count opener.run.count)
    (flatten inside ++ opener.after).reverse
  rw [hwhole, ← heldBackwards_append]
  unfold enclose
  simp only
  split
  · rw [flatMap_finish_foldl_add hs, hwrapped, flatMap_finish, heldBackwards_append]
    rfl
  · rw [flatMap_finish, heldBackwards_flatten_cons hs]
    simp only [heldBackwards, List.reverse_reverse, hwrapped]
    simp

theorem flatMap_finish_close (hs : Inline.SeesThroughSpans held) (bound : Nat) (state : Pairing)
    (run : DelimiterRun) :
    (close bound state run).1.finish.flatMap held = state.finish.flatMap held := by
  induction bound generalizing state run with
  | zero => rfl
  | succ bound ih =>
      rw [close_succ]
      split
      · rfl
      · split
        · next inside opener around hfound =>
          rw [ih, flatMap_finish_enclose hs run (stack_of_reachable hfound)]
        · split
          · rfl
          · rfl

/-- Each piece adds what it holds, also when it ends a span. -/
theorem flatMap_finish_take (hs : Inline.SeesThroughSpans held) (state : Pairing) (piece : Piece) :
    (state.take piece).finish.flatMap held = state.finish.flatMap held ++ piece.held held := by
  cases piece with
  | text backwards => rw [take, flatMap_finish_add hs, hs.text, Piece.held]
  | inline part => exact flatMap_finish_add hs state part
  | run delimiters =>
      have hopen (state : Pairing) (left : DelimiterRun) :
          (if left.count = 0 then state
            else if left.opens then { state with stack := ⟨left, []⟩ :: state.stack }
            else state.add left.asText).finish.flatMap held = state.finish.flatMap held := by
        split
        · rfl
        · split
          · rw [flatMap_finish, flatMap_finish, heldBackwards_flatten_cons hs]
            exact congrArg _ (List.append_nil _)
          · rw [flatMap_finish_add hs, DelimiterRun.asText, hs.text, List.append_nil]
      rw [Piece.held, List.append_nil]
      unfold take
      simp only
      split
      · rw [hopen, flatMap_finish_close hs]
      · exact hopen _ _

end Pairing

/-- The pairing of delimiter runs keeps the order of all that the parts hold. -/
theorem Inline.flatMap_ofPieces (hs : Inline.SeesThroughSpans held) (pieces : List Piece) :
    (Inline.ofPieces pieces).flatMap held = pieces.flatMap (Piece.held held) := by
  have hfold (state : Pairing) : (pieces.foldl Pairing.take state).finish.flatMap held =
      state.finish.flatMap held ++ pieces.flatMap (Piece.held held) := by
    induction pieces generalizing state with
    | nil => simp
    | cons piece more ih =>
        rw [List.foldl_cons, ih, Pairing.flatMap_finish_take hs, List.flatMap_cons, List.append_assoc]
  rw [Inline.ofPieces, hfold]
  rfl

end Held

end DefinitionLists.Markdown
