import Offside.Proofs.Lexer.Margins

/-!
The discipline of layout tokens. Among the lexemes that a lexer hands out, blocks are closed no
more often than they were opened, newlines, indents and dedents stand outside brackets, and indents
and dedents stand where a line starts. At the end of the text the blocks that are left open are
those the lexer counts, and there are none if the text ends with a line break outside brackets.
-/

namespace Offside

open Text

theorem rise_eq_count (ts : List Token) :
    rise ts = (ts.map Token.kind).count .indent - (ts.map Token.kind).count .dedent := by
  induction ts with
  | nil => rfl
  | cons t ts ih =>
    rw [rise_cons, ih, List.map_cons, List.count_cons, List.count_cons]
    by_cases hindent : t.kind = .indent
    · rw [hindent]
      simp [Kind.rise]
      omega
    · by_cases hdedent : t.kind = .dedent
      · rw [hdedent]
        simp [Kind.rise]
        omega
      · have hflat : t.kind.rise = 0 := by cases h : t.kind <;> simp_all [Kind.rise]
        simp [hflat, hindent, hdedent]

/-- A line at the first column leaves no block open. -/
theorem Indents.Positive.depth_apply_zero {s : Indents} (h : s.Positive) :
    (s.apply Measure.zero).2.depth = 0 := by
  by_cases hdepth : 0 < s.depth
  · rw [Indents.apply_zero h hdepth]
    rfl
  · have hnil : s.levels = [] := List.length_eq_zero_iff.1 (Nat.eq_zero_of_not_pos hdepth)
    obtain ⟨levels⟩ := s
    obtain rfl : levels = [] := hnil
    rfl

namespace Lexer

variable {lx ly : Lexer} {x : Lexeme} {xs : List Lexeme}

theorem isBreak_of_suffix {read rest : List Char}
    (h : ∀ c ∈ (read ++ rest).getLast?, isBreak c = true) :
    ∀ c ∈ rest.getLast?, isBreak c = true := by
  intro c hc
  apply h c
  rw [List.getLast?_append, Option.mem_def.1 hc]
  rfl

/-- Text that ends with a line break is not read to its end but by a line break. -/
theorem rest_ne_nil_of_last {read rest : List Char} {q : Char}
    (h : ∀ c ∈ (read ++ rest).getLast?, isBreak c = true) (hq : read.getLast? = some q)
    (hplain : isBreak q = false) : rest ≠ [] := by
  rintro rfl
  rw [List.append_nil] at h
  have hbreak := h q hq
  rw [hplain] at hbreak
  cases hbreak

theorem exists_last_of_unbroken {read : List Char} (h : Unbroken read) (hne : read ≠ []) :
    ∃ q, read.getLast? = some q ∧ isBreak q = false :=
  ⟨_, List.getLast?_eq_some_getLast hne, h _ (List.getLast_mem hne)⟩

/-- The text of a lexer ends with a line break. Where it is read to the end, either a line starts,
which closes all blocks, or brackets are open, or no block is. -/
structure Closes (lx : Lexer) : Prop where
  last : ∀ c ∈ lx.cursor.rest.getLast?, isBreak c = true
  closed : lx.cursor.rest = [] → lx.atLineStart = true ∨ 0 < lx.nesting ∨ lx.indents.depth = 0
  positive : lx.indents.Positive

theorem Closes.of_suffix {read : List Char} (h : Closes lx)
    (hrest : lx.cursor.rest = read ++ ly.cursor.rest) (hindents : ly.indents = lx.indents)
    (hclosed : ly.cursor.rest = [] →
      ly.atLineStart = true ∨ 0 < ly.nesting ∨ ly.indents.depth = 0) : Closes ly := by
  have hlast := h.last
  have hpositive := h.positive
  rw [hrest] at hlast
  rw [← hindents] at hpositive
  exact ⟨isBreak_of_suffix hlast, hclosed, hpositive⟩

theorem Closes.takeDue? (h : Closes lx) (hdue : lx.takeDue? = some (x, ly)) : Closes ly := by
  unfold Lexer.takeDue? at hdue
  split at hdue
  · obtain ⟨_, rfl⟩ := Prod.mk.inj (Option.some.inj hdue)
    exact ⟨h.last, h.closed, h.positive⟩
  · split at hdue
    · obtain ⟨_, rfl⟩ := Prod.mk.inj (Option.some.inj hdue)
      exact ⟨h.last, h.closed, h.positive⟩
    · cases hdue

theorem rest_eq_append_skipLayout (lx : Lexer) :
    lx.cursor.rest = lx.cursor.rest.takeWhile isLayout ++ lx.skipLayout.cursor.rest := by
  rw [rest_skipLayout, List.takeWhile_append_dropWhile]

theorem unbroken_layout (text : List Char) : Unbroken (text.takeWhile isLayout) :=
  unbroken_takeWhile (by decide) (by decide) text

theorem Closes.skipLayout (h : Closes lx) : Closes lx.skipLayout := by
  refine h.of_suffix (rest_eq_append_skipLayout lx) rfl fun hnone => ?_
  apply h.closed
  by_contra hne
  have hlast := h.last
  rw [rest_eq_append_skipLayout lx, hnone] at hlast hne
  rw [List.append_nil] at hne
  obtain ⟨q, hq, hplain⟩ := exists_last_of_unbroken (unbroken_layout _) hne
  exact rest_ne_nil_of_last hlast hq hplain rfl

/-- The end of the text closes all blocks, unless brackets are open. -/
theorem Closes.measureLine (h : Closes lx) (hmeasure : lx.measureLine = (none, ly)) :
    Closes ly := by
  have hframe := measureLine_frame lx
  have hpositive := positive_measureLine h.positive
  rw [hmeasure] at hframe hpositive
  dsimp only at hframe hpositive
  have hrest : ly.cursor.rest = lx.skipLayout.cursor.rest := by
    rw [hframe]
  refine ⟨?_, fun hnone => Or.inr ?_, hpositive⟩
  · rw [hrest]
    exact h.skipLayout.last
  · have hspent : lx.Spent := by rw [Spent, ← rest_skipLayout, ← hrest, hnone]
    rw [measureLine_of_spent hspent] at hmeasure
    split at hmeasure
    · next hopen =>
      obtain ⟨_, rfl⟩ := Prod.mk.inj hmeasure
      exact Or.inl hopen
    · have hindents := indents_applyIndent Measure.zero (lx.startLine false)
      rw [hmeasure] at hindents
      right
      rw [hindents]
      exact Indents.Positive.depth_apply_zero h.positive

theorem Closes.settles (h : Closes lx) (hsettles : lx.Settles ly) : Closes ly := by
  rcases hsettles with ⟨_, hmeasure⟩ | ⟨_, rfl⟩
  · exact h.measureLine hmeasure
  · exact h

theorem Closes.readBreak {br rest : List Char} (h : Closes lx)
    (hbreak : lineBreak? lx.cursor.rest = some (br, rest)) : Closes (lx.readBreak br) := by
  have hrest : lx.cursor.rest = br ++ (lx.readBreak br).cursor.rest := by
    have happend := (lineBreak?_eq_some hbreak).1
    have hadvance : (lx.readBreak br).cursor.rest = rest := rest_advance_of_append happend
    rw [hadvance]
    exact happend
  exact h.of_suffix hrest rfl fun _ => Or.inl rfl

theorem Closes.afterPragma (h : Closes lx) : Closes lx.afterPragma := by
  unfold Lexer.afterPragma
  split
  · next hbreak =>
    split
    · exact h.readBreak hbreak
    · exact h
  · exact h

/-- Text without a line break at its end is not the last. -/
theorem Closes.advance {read rest : List Char} {q : Char} (h : Closes lx)
    (hrest : lx.cursor.rest = read ++ rest) (hq : read.getLast? = some q)
    (hplain : isBreak q = false) (hcursor : ly.cursor.rest = rest)
    (hindents : ly.indents = lx.indents) : Closes ly := by
  have hlast := h.last
  rw [hrest] at hlast
  refine h.of_suffix (hcursor.symm ▸ hrest) hindents fun hnone => ?_
  exact absurd (hcursor.symm.trans hnone) (rest_ne_nil_of_last hlast hq hplain)

/-- What a turn comes to leaves such a lexer, unless it is an error. -/
def EndsClosed (r : Outcome × Lexer) : Prop := (∃ e, r.1 = .failed e) ∨ Closes r.2

theorem IsComment.exists_last {body rest : List Char} (h : IsComment body rest) :
    ∃ q, body.getLast? = some q ∧ isBreak q = false := by
  apply exists_last_of_unbroken h.unbroken
  intro hnil
  have hhash := h.hash
  rw [hnil] at hhash
  cases hhash

theorem Piece.closes (h : Closes lx) {r : Outcome × Lexer} (hpiece : Piece lx r) :
    EndsClosed r := by
  cases hpiece with
  | ended => exact Or.inr ⟨h.last, h.closed, h.positive⟩
  | @comment body rest hrest hbody _ =>
    obtain ⟨q, hq, hplain⟩ := hbody.exists_last
    exact Or.inr (h.advance hrest hq hplain (rest_advance_of_append hrest) rfl)
  | @pragma front tag rest hrest hbody _ =>
    obtain ⟨q, hq, hplain⟩ := hbody.exists_last
    have hafter : Closes (lx.advance (front ++ tag)) :=
      h.advance hrest hq hplain (rest_advance_of_append hrest) rfl
    exact Or.inr hafter.afterPragma
  | blankBreak hbreak _ => exact Or.inr (h.readBreak hbreak)
  | @newline br rest hbreak _ _ =>
    have happend := (lineBreak?_eq_some hbreak).1
    have hrest : (lx.endCode br).cursor.rest = rest := by
      show (lx.cursor.skip br).rest = rest
      rw [Cursor.rest_skip, happend, List.drop_left]
    exact Or.inr (h.of_suffix (hrest.symm ▸ happend) rfl fun _ => Or.inl rfl)
  | @joined br rest c hrest hbreak =>
    have hrest' : lx.cursor.rest = ['\\'] ++ (br ++ c :: rest) := hrest
    have hleft : ((lx.advance ['\\']).advance br).cursor.rest = c :: rest :=
      rest_advance_of_append (rest_advance_of_append hrest')
    refine Or.inr (h.of_suffix (hleft.symm ▸ hrest) rfl fun hnone => ?_)
    rw [hleft] at hnone
    cases hnone
  | brokenOff => exact Or.inl ⟨_, rfl⟩
  | stray => exact Or.inl ⟨_, rfl⟩
  | @literal read rest hrest hscan =>
    obtain ⟨q, hq, hquote⟩ := Literal.getLast?_of_stretch? hscan rfl
    have hplain : isBreak q = false := by
      rw [Literal.isQuote, Bool.or_eq_true, beq_iff_eq, beq_iff_eq] at hquote
      rcases hquote with rfl | rfl <;> rfl
    exact Or.inr (h.advance hrest hq hplain (rest_advance_of_append hrest) rfl)
  | unended => exact Or.inl ⟨_, rfl⟩
  | @plain kind kind' read rest lz hrest hscan hclassify =>
    obtain ⟨c, tail, htext, _⟩ := Plain.exists_head_of_scan? hscan
    have hne : read ≠ [] :=
      Plain.scan?_read_ne_nil (by rw [htext]; exact List.cons_ne_nil _ _) hscan
    obtain ⟨q, hq, hplain⟩ := exists_last_of_unbroken (Plain.plain_of_scan? hscan).2 hne
    have hframe := plain_frame hclassify
    refine Or.inr (h.advance hrest hq hplain ?_ ?_)
    · rw [hframe]
      exact rest_advance_of_append hrest
    · rw [hframe]
      rfl
  | bad => exact Or.inl ⟨_, rfl⟩

theorem turn_closes (h : Closes lx) : EndsClosed lx.turn := by
  have hturned := turned lx
  generalize lx.turn = r at hturned
  cases hturned with
  | due hdue => exact Or.inr (h.takeDue? hdue)
  | misplaced => exact Or.inl ⟨_, rfl⟩
  | indented _ hsettles hdue => exact Or.inr ((h.settles hsettles).takeDue? hdue)
  | read _ hsettles _ hpiece => exact hpiece.closes (h.settles hsettles).skipLayout

theorem next_closes (h : Closes lx) (hnext : lx.next = (.ok x, ly)) : Closes ly := by
  have hleave : Closes lx.leaveLine := by
    unfold Lexer.leaveLine
    split
    · exact ⟨h.last, h.closed, h.positive⟩
    · exact h
  have hturns : ∀ {lx ly : Lexer} {o : Outcome}, Closes lx → lx.turn = (o, ly) →
      (∀ e, o ≠ .failed e) → Closes ly := by
    intro lx ly o hcloses hturn hgoes
    have hclosed := turn_closes hcloses
    rw [hturn] at hclosed
    exact hclosed.resolve_left fun ⟨e, he⟩ => hgoes e he
  obtain ⟨lz, hcloses, hturn⟩ := exists_turn_of_next hnext hleave fun hcloses hturn =>
    hturns hcloses hturn fun _ => Outcome.noConfusion
  exact hturns hcloses hturn fun _ => Outcome.noConfusion

theorem Yields.closes (h : Yields lx xs ly) (hcloses : Closes lx) : Closes ly := by
  induction h with
  | nil => exact hcloses
  | cons hnext _ ih => exact ih (next_closes hcloses hnext)

theorem Yields.weight_le (h : Yields lx xs ly) : ly.weight ≤ lx.weight := by
  induction h with
  | nil => exact Nat.le_refl _
  | cons hnext _ ih => exact Nat.le_trans ih (next_weight_le hnext)

theorem Yields.atEnd_of_last (h : Yields lx xs ly) (hx : xs.getLast? = some x)
    (hend : x.kind = .endMarker) : ly.AtEnd ∧ ly.pendingDedents = 0 := by
  obtain ⟨before, rfl⟩ := List.getLast?_eq_some_iff.1 hx
  obtain ⟨lz, _, hlast⟩ := h.append_inv
  cases hlast with
  | cons hnext hnil =>
    cases hnil
    obtain ⟨hatEnd, hdedents, _⟩ := atEnd_of_next hnext hend
    exact ⟨hatEnd, hdedents⟩

/-- How often a kind occurs. -/
def occurrences (kind : Kind) (xs : List Lexeme) : Nat := (xs.map Lexeme.kind).count kind

/-- The layout tokens among lexemes, each of them held against those before it. -/
structure Disciplined (xs : List Lexeme) : Prop where
  dedents_le : occurrences .dedent xs ≤ occurrences .indent xs
  indents_le : occurrences .indent xs ≤ occurrences .dedent xs + 99
  unbracketed : ∀ before x after, xs = before ++ x :: after →
    x.kind = .newline ∨ x.kind = .indent ∨ x.kind = .dedent → openBrackets before = 0
  startsLine : ∀ before x after, xs = before ++ x :: after →
    x.kind = .indent ∨ x.kind = .dedent → StartsLine before

theorem Yields.level_eq_occurrences {asyncAlways : Bool} {s : Source}
    (h : Yields (ofSource asyncAlways s) xs ly) :
    ly.level = occurrences .indent xs - occurrences .dedent xs := by
  have hstart : (ofSource asyncAlways s).level = 0 := rfl
  have hkinds : (xs.map Lexeme.token).map Token.kind = xs.map Lexeme.kind := by
    rw [List.map_map]
    rfl
  rw [h.level, hstart, rise_eq_count, hkinds, Int.zero_add]
  rfl

/-- Layout tokens are disciplined in all that a lexer hands out. At an end marker it counts the
blocks that its tokens left open, and a text that is empty, or ends with a line break outside
brackets, leaves none. -/
theorem disciplined_of_yields {asyncAlways : Bool} {s : Source}
    (h : Yields (ofSource asyncAlways s) xs ly) :
    Disciplined xs ∧
    ∀ e ∈ xs.getLast?, e.kind = .endMarker →
      occurrences .indent xs = occurrences .dedent xs + ly.indents.depth ∧
      (s.text = [] ∨ (∃ c ∈ s.text.getLast?, isBreak c = true) ∧ openBrackets xs = 0 →
        ly.indents.depth = 0) := by
  have hstart := inStep_ofSource asyncAlways s
  have hstep : InStep xs ly := h.inStep hstart
  have hlevel := h.level_eq_occurrences
  have hrange := hstep.level
  rw [Indents.maxLevels] at hrange
  refine ⟨⟨?_, ?_, ?_, ?_⟩, fun e he hend => ⟨?_, ?_⟩⟩
  · omega
  · omega
  · rintro before x after rfl hx
    exact (h.obeys hstart).unbracketed hx
  · rintro before x after rfl hx
    exact (h.obeys hstart).startsLine hx
  · obtain ⟨hatEnd, hdedents⟩ := h.atEnd_of_last he hend
    have hdepth := hatEnd.level hdedents
    omega
  · rintro (hempty | ⟨⟨c, hc, hbreak⟩, hbrackets⟩)
    · have hweight := h.weight_le
      rw [weight, weight] at hweight
      have hzero : (ofSource asyncAlways s).cursor.rest = [] := hempty
      rw [hzero] at hweight
      have hnone : 3 * ([] : List Char).length + (ofSource asyncAlways s).pendingDedents +
        (ofSource asyncAlways s).indents.depth +
        (ofSource asyncAlways s).pendingIndent.toNat = 0 := rfl
      omega
    · have hcloses : Closes (ofSource asyncAlways s) := by
        refine ⟨fun d hd => ?_, fun _ => Or.inl rfl, Indents.positive_empty⟩
        obtain rfl : c = d := Option.some.inj (hc.symm.trans hd)
        exact hbreak
      obtain ⟨hatEnd, _⟩ := h.atEnd_of_last he hend
      rcases (h.closes hcloses).closed hatEnd.rest with hline | hopen | hdepth
      · rw [hatEnd.measured] at hline
        cases hline
      · rw [hstep.nesting, hbrackets] at hopen
        cases hopen
      · exact hdepth

/-- A block behind a line that brackets make longer. -/
theorem disciplined_of_yields_block :
    ∃ xs ly, Yields (ofSource false ⟨"f(\n):\n x\n".toList, none⟩) xs ly ∧
      xs.map Lexeme.kind = [.word, .lpar, .rpar, .colon, .newline, .indent, .word, .newline,
        .dedent, .endMarker] ∧
      Disciplined xs ∧ occurrences .indent xs = occurrences .dedent xs + ly.indents.depth ∧
      ly.indents.depth = 0 := by
  let lx := ofSource false ⟨"f(\n):\n x\n".toList, none⟩
  have htokens : lx.tokens.1 = .ok [⟨.word, "f", 1, some 0⟩, ⟨.lpar, "(", 1, some 1⟩,
      ⟨.rpar, ")", 2, some 0⟩, ⟨.colon, ":", 2, some 1⟩, ⟨.newline, "", 2, some 2⟩,
      ⟨.indent, "", 3, none⟩, ⟨.word, "x", 3, some 1⟩, ⟨.newline, "", 3, some 2⟩,
      ⟨.dedent, "", 4, none⟩, ⟨.endMarker, "", 4, none⟩] := by decide +kernel
  obtain ⟨xs, e, hyields, he, _, hts⟩ := exists_yields_of_tokens (Prod.ext htokens rfl)
  have hkinds : (xs ++ [e]).map Lexeme.kind = [.word, .lpar, .rpar, .colon, .newline, .indent,
      .word, .newline, .dedent, .endMarker] := by
    have hmap := congrArg (List.map Token.kind) hts
    rw [List.map_map] at hmap
    exact hmap.symm
  obtain ⟨hdisciplined, hend⟩ := disciplined_of_yields hyields
  obtain ⟨hcount, hclosed⟩ := hend e List.getLast?_concat he
  have hbrackets : openBrackets (xs ++ [e]) = 0 := by
    rw [openBrackets, hkinds]
    rfl
  exact ⟨_, _, hyields, hkinds, hdisciplined, hcount,
    hclosed (Or.inr ⟨⟨'\n', rfl, rfl⟩, hbrackets⟩)⟩

end Lexer
end Offside
