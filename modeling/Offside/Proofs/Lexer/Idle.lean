import Offside.Proofs.Lexer.Tokens
import Offside.Proofs.Lexer.Turns

/-!
Texts without code. Where a text holds nothing but blanks, line breaks and comments, and any line
break ends a comment, a lexer hands out pragmas, and then the end marker.
-/

namespace Offside

open Text

/-- Whether a text holds anything but blanks, line breaks and comments. `inComment` tells whether
the text starts inside a comment, which any line break ends. -/
def showsCode (inComment : Bool) : List Char → Bool
  | [] => false
  | c :: rest =>
    if isBreak c then showsCode false rest
    else if inComment then showsCode true rest
    else if c = '#' then showsCode true rest
    else if isLayout c then showsCode false rest
    else true

theorem showsCode_break {c : Char} (h : isBreak c = true) (inComment : Bool) (rest : List Char) :
    showsCode inComment (c :: rest) = showsCode false rest := by
  rw [showsCode, if_pos h]

theorem not_isBreak_of_isLayout {c : Char} (h : isLayout c = true) : isBreak c = false := by
  simp only [isLayout, Bool.or_eq_true, beq_iff_eq] at h
  rcases h with (rfl | rfl) | rfl <;> decide

theorem showsCode_blank {c : Char} (h : isLayout c = true) (rest : List Char) :
    showsCode false (c :: rest) = showsCode false rest := by
  have hhash : c ≠ '#' := by
    rintro rfl
    cases h
  rw [showsCode, not_isBreak_of_isLayout h, if_neg Bool.false_ne_true, if_neg Bool.false_ne_true,
    if_neg hhash, if_pos h]

theorem showsCode_dropBlanks (text : List Char) :
    showsCode false (text.dropWhile isLayout) = showsCode false text := by
  induction text with
  | nil => rfl
  | cons c text ih =>
    rw [List.dropWhile_cons]
    split
    · next hc => rw [ih, showsCode_blank hc]
    · rfl

/-- A comment goes on to the end of its line. -/
theorem showsCode_comment (text : List Char) :
    showsCode true text = showsCode false (text.dropWhile fun c => !isBreak c) := by
  induction text with
  | nil => rfl
  | cons c text ih =>
    rw [List.dropWhile_cons]
    cases hc : isBreak c with
    | true => rw [showsCode_break hc, Bool.not_true, if_neg Bool.false_ne_true, showsCode_break hc]
    | false =>
      rw [showsCode, hc, if_neg Bool.false_ne_true, if_pos rfl, ih, Bool.not_false, if_pos rfl]

theorem showsCode_lineBreak {text br rest : List Char} (h : lineBreak? text = some (br, rest)) :
    showsCode false text = showsCode false rest := by
  obtain ⟨rfl, _, hbr⟩ := lineBreak?_eq_some h
  rcases hbr with rfl | rfl | rfl
  · exact (showsCode_break (by decide) _ _).trans (showsCode_break (by decide) _ _)
  · exact showsCode_break (by decide) _ _
  · exact showsCode_break (by decide) _ _

/-- Behind its blanks a text without code goes on with a comment or a line break. -/
theorem head_of_codeless {text rest : List Char} {c : Char} (h : showsCode false text = false)
    (hrest : text.dropWhile isLayout = c :: rest) : c = '#' ∨ isBreak c = true := by
  have hlayout : isLayout c = false := by
    have hhead := List.head?_dropWhile_not isLayout text
    rw [hrest] at hhead
    exact hhead
  rw [← showsCode_dropBlanks, hrest, showsCode, if_neg Bool.false_ne_true, hlayout,
    if_neg Bool.false_ne_true] at h
  by_contra hne
  obtain ⟨hhash, hbreak⟩ := not_or.1 hne
  rw [if_neg hbreak, if_neg hhash] at h
  cases h

theorem showsCode_of_breaks {text : List Char} (h : ∀ c ∈ text, isBreak c = true) :
    showsCode false text = false := by
  induction text with
  | nil => rfl
  | cons c text ih =>
    rw [showsCode_break (h c List.mem_cons_self)]
    exact ih fun d hd => h d (List.mem_cons_of_mem _ hd)

namespace Lexer

variable {lx ly : Lexer} {x : Lexeme}

/-- A lexer that has no code before it, on a line that starts there or has held none. -/
structure Idle (lx : Lexer) : Prop where
  codeless : showsCode false lx.cursor.rest = false
  line : lx.atLineStart = true ∨ lx.blankLine = true
  owesNothing : lx.OwesNothing
  noBlocks : lx.indents = Indents.empty
  sameLine : lx.lineEnded = false
  live : ∀ e, lx.stop ≠ .failed e

/-- What comes of the text before such a lexer. -/
inductive Idles : Outcome × Lexer → Prop
  | ended {x : Lexeme} {ly : Lexer} (hx : x.kind = .endMarker) : Idles (.lexeme x, ly)
  | pragma {x : Lexeme} {ly : Lexer} (hx : x.kind = .typeIgnore) (h : Idle ly) :
      Idles (.lexeme x, ly)
  | nothing {ly : Lexer} (h : Idle ly) : Idles (.nothing, ly)

theorem Idle.advance {read : List Char} (h : lx.Idle) (hblank : lx.blankLine = true)
    (hcodeless : showsCode false (lx.advance read).cursor.rest = false) :
    (lx.advance read).Idle :=
  ⟨hcodeless, Or.inr hblank, h.owesNothing, h.noBlocks, h.sameLine, h.live⟩

theorem Idle.readBreak {br rest : List Char} (h : lx.Idle)
    (hbreak : lineBreak? lx.cursor.rest = some (br, rest)) : (lx.readBreak br).Idle := by
  have hrest : (lx.readBreak br).cursor.rest = rest := by
    show (lx.advance br).cursor.rest = rest
    rw [rest_advance, (lineBreak?_eq_some hbreak).1, List.drop_left]
  refine ⟨?_, Or.inl rfl, h.owesNothing, h.noBlocks, h.sameLine, h.live⟩
  rw [hrest, ← showsCode_lineBreak hbreak]
  exact h.codeless

theorem Idle.afterPragma (h : lx.Idle) : lx.afterPragma.Idle := by
  unfold Lexer.afterPragma
  split
  · next hbreak =>
    split
    · exact h.readBreak hbreak
    · exact h
  · exact h

theorem Idle.comment {rest : List Char} (h : lx.Idle) (hblank : lx.blankLine = true)
    (hhash : lx.cursor.rest = '#' :: rest) : Idles lx.comment := by
  have hafter : (lx.advance (lx.cursor.rest.takeWhile fun c => !isBreak c)).Idle := by
    refine h.advance hblank ?_
    have hsplit := List.takeWhile_append_dropWhile (p := fun c => !isBreak c) (l := lx.cursor.rest)
    have hdrop : (lx.advance (lx.cursor.rest.takeWhile fun c => !isBreak c)).cursor.rest =
        lx.cursor.rest.dropWhile fun c => !isBreak c := by
      rw [rest_advance]
      conv_lhs => rw [← hsplit]
      rw [List.drop_left' (by rw [hsplit])]
    have hcodeless := h.codeless
    rw [hdrop, hhash]
    rw [hhash] at hcodeless
    exact (showsCode_comment rest).symm.trans hcodeless
  rw [comment_eq]
  cases Pragma.tag? (lx.cursor.rest.takeWhile fun c => !isBreak c) with
  | none => exact .nothing hafter
  | some tag => exact .pragma (Cursor.kind_lexeme _ _ _) hafter.afterPragma

theorem Idle.skipLayout (h : lx.Idle) (hblank : lx.blankLine = true) : lx.skipLayout.Idle := by
  refine h.advance hblank ?_
  have hrest := rest_skipLayout lx
  rw [Lexer.skipLayout] at hrest
  rw [hrest, showsCode_dropBlanks]
  exact h.codeless

theorem Idle.body (h : lx.Idle) (hblank : lx.blankLine = true) : Idles lx.body := by
  have hskip := h.skipLayout hblank
  cases hrest : lx.skipLayout.cursor.rest with
  | nil =>
    rw [body_of_spent (by rw [Spent, ← rest_skipLayout, hrest])]
    exact .ended rfl
  | cons c rest =>
    by_cases hhash : c = '#'
    · subst hhash
      rw [body_of_comment hrest]
      exact hskip.comment hblank hrest
    · have hbreak := (head_of_codeless h.codeless (rest_skipLayout lx ▸ hrest)).resolve_left hhash
      obtain ⟨br, left, hline⟩ := exists_lineBreak? hbreak rest
      have hescape : c ≠ '\\' := by
        rintro rfl
        cases hbreak
      have hblank' : lx.skipLayout.blankLine = true := hblank
      rw [← hrest] at hline
      rw [body_of_code hrest hhash hescape, hline]
      dsimp only
      rw [lineBreak_eq, hblank', Bool.true_or, if_pos rfl]
      exact .nothing (hskip.readBreak hline)

/-- The end of a text closes no block where none is open. -/
theorem applyIndent_zero (h : lx.indents = Indents.empty) :
    lx.applyIndent Measure.zero = (none, lx.leaveAsyncScope) := by
  have happly : lx.indents.apply Measure.zero = (.ok .same, lx.indents) := by
    rw [h]
    rfl
  unfold applyIndent
  rw [happly]

/-- Nor is anything due there. -/
theorem Idle.measureLine_of_spent (h : lx.Idle) (hspent : lx.Spent) :
    ∃ ly, lx.measureLine = (none, ly) ∧ ly.OwesNothing ∧ ly.Spent := by
  have hstart : (lx.startLine false).Spent := spent_of_rest hspent.rest_skipLayout
  rw [Lexer.measureLine_of_spent hspent]
  split
  · exact ⟨_, rfl, h.owesNothing, hstart⟩
  · have hempty : (lx.startLine false).indents = Indents.empty := h.noBlocks
    rw [applyIndent_zero hempty, leaveAsyncScope_frame]
    exact ⟨_, rfl, h.owesNothing, hstart⟩

theorem Idle.startLine (h : lx.Idle) : (lx.startLine true).Idle := by
  have hrest : (lx.startLine true).cursor.rest = lx.cursor.rest.dropWhile isLayout :=
    rest_skipLayout lx
  refine ⟨?_, Or.inr rfl, h.owesNothing, h.noBlocks, h.sameLine, h.live⟩
  rw [hrest, showsCode_dropBlanks]
  exact h.codeless

theorem Idle.turn (h : lx.Idle) : Idles lx.turn := by
  cases hstart : lx.atLineStart with
  | false =>
    rw [turn_of_body h.owesNothing hstart]
    exact h.body (h.line.resolve_left (by rw [hstart]; decide))
  | true =>
    rw [turn_of_measure h.owesNothing hstart]
    cases hrest : lx.skipLayout.cursor.rest with
    | nil =>
      have hspent : lx.Spent := by rw [Spent, ← rest_skipLayout, hrest]
      obtain ⟨ly, hmeasure, hdue, hspent'⟩ := h.measureLine_of_spent hspent
      rw [hmeasure]
      dsimp only
      rw [takeDue?_eq_none_iff.2 hdue]
      dsimp only
      rw [body_of_spent hspent']
      exact .ended rfl
    | cons c rest =>
      have hblank : (c == '#' || isBreak c) = true := by
        rw [Bool.or_eq_true, beq_iff_eq]
        exact head_of_codeless h.codeless (rest_skipLayout lx ▸ hrest)
      rw [measureLine_of_code hrest, hblank, Bool.true_or, if_pos rfl]
      dsimp only
      rw [takeDue?_eq_none_iff.2 h.startLine.owesNothing]
      exact h.startLine.body rfl

theorem Idle.scan (h : lx.Idle) :
    ∃ x ly, lx.scan = (.ok x, ly) ∧ (x.kind = .endMarker ∨ x.kind = .typeIgnore ∧ ly.Idle) := by
  fun_induction Lexer.scan lx with
  | case1 lx x ly hturn =>
    have hidles := h.turn
    rw [hturn] at hidles
    refine ⟨x, ly, rfl, ?_⟩
    cases hidles with
    | ended hx => exact Or.inl hx
    | pragma hx hidle => exact Or.inr ⟨hx, hidle⟩
  | case2 lx e ly hturn =>
    have hidles := h.turn
    rw [hturn] at hidles
    cases hidles
  | case3 lx ly hturn _ ih =>
    have hidles := h.turn
    rw [hturn] at hidles
    cases hidles with
    | nothing hidle => exact ih hidle

theorem Idle.next (h : lx.Idle) :
    ∃ x ly, lx.next = (.ok x, ly) ∧ (x.kind = .endMarker ∨ x.kind = .typeIgnore ∧ ly.Idle) := by
  have hleave : lx.leaveLine = lx := by rw [leaveLine, h.sameLine, if_neg Bool.false_ne_true]
  rw [next_of_not_failed h.live, hleave]
  exact h.scan

theorem Idle.yields {lx : Lexer} (h : lx.Idle) :
    ∃ xs e ly, Yields lx (xs ++ [e]) ly ∧ e.kind = .endMarker ∧ ∀ x ∈ xs, x.kind = .typeIgnore := by
  obtain ⟨x, ly, hnext, hx | ⟨hx, hidle⟩⟩ := h.next
  · exact ⟨[], x, ly, .cons hnext (.nil ly), hx, fun y hy => absurd hy List.not_mem_nil⟩
  · have hlt := next_weight_lt hnext (by rw [hx]; decide)
    obtain ⟨xs, e, lz, hyields, he, hxs⟩ := hidle.yields
    refine ⟨x :: xs, e, lz, .cons hnext hyields, he, fun y hy => ?_⟩
    rcases List.mem_cons.1 hy with rfl | hy
    · exact hx
    · exact hxs y hy
termination_by lx.weight

theorem idle_ofSource (asyncAlways : Bool) {s : Source} (h : showsCode false s.text = false) :
    (ofSource asyncAlways s).Idle :=
  ⟨h, Or.inl rfl, ⟨rfl, rfl⟩, rfl, rfl, fun _ => StopReason.noConfusion⟩

/-- A text without code has no tokens but pragmas and the end marker. -/
theorem tokens_of_codeless (asyncAlways : Bool) {s : Source} (h : showsCode false s.text = false) :
    ∃ ts lx, (ofSource asyncAlways s).tokens = (.ok ts, lx) ∧
      ∀ t ∈ ts, t.kind = .typeIgnore ∨ t.kind = .endMarker := by
  obtain ⟨xs, e, ly, hyields, he, hxs⟩ := (idle_ofSource asyncAlways h).yields
  have hne : ∀ x ∈ xs, x.kind ≠ .endMarker := fun x hx => by
    rw [hxs x hx]
    decide
  refine ⟨_, ly, tokens_of_yields hyields he hne, fun t ht => ?_⟩
  obtain ⟨x, hx, rfl⟩ := List.mem_map.1 ht
  rcases List.mem_append.1 hx with hx | hx
  · exact Or.inl (hxs x hx)
  · rw [List.mem_singleton.1 hx]
    exact Or.inr he

end Lexer
end Offside
