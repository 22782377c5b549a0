import Offside.Proofs.Lexer.Turns

/-!
Lexers at the ends of their texts. Where nothing but blanks is left, the tokens that are still to
come follow from a few things that the lexer keeps account of, its debt. Two such lexers with one
debt give the same tokens, wherever they stand.
-/

namespace Offside

open Text

/-- What a lexer at the end of its text has yet to settle. -/
structure Debt where
  dedents : Nat
  indent : Bool
  nesting : Nat
  indents : Indents
  /-- whether the end is the start of a line that closes blocks -/
  closes : Bool
  deriving DecidableEq

namespace Debt

/-- The kind of the next token, and what is left to settle after it. -/
def settle (d : Debt) : Except LexError (Kind × Debt) :=
  if 0 < d.dedents then .ok (.dedent, { d with dedents := d.dedents - 1 })
  else if d.indent then .ok (.indent, { d with indent := false })
  else if d.closes then
    match d.indents.apply Measure.zero with
    | (.error e, _) => .error e
    | (.ok (.shallower (n + 1)), indents) =>
      .ok (.dedent, { d with dedents := n, indents, closes := false })
    | (.ok _, indents) => .ok (.endMarker, { d with indents, closes := false })
  else .ok (.endMarker, d)

/-- The debt of a lexer that has nothing to settle. -/
def clear : Debt := ⟨0, false, 0, Indents.empty, false⟩

theorem settle_clear : clear.settle = .ok (.endMarker, clear) := rfl

/-- The end of the input settles nothing but layout. -/
theorem kind_of_settle {d d' : Debt} {k : Kind} (h : d.settle = .ok (k, d')) :
    k = .dedent ∨ k = .indent ∨ k = .endMarker := by
  unfold settle at h
  split at h
  · cases h
    exact Or.inl rfl
  · split at h
    · cases h
      exact Or.inr (Or.inl rfl)
    · split at h
      · split at h
        · cases h
        · cases h
          exact Or.inl rfl
        · cases h
          exact Or.inr (Or.inr rfl)
      · cases h
        exact Or.inr (Or.inr rfl)

end Debt

namespace Lexer

variable {lx ly : Lexer}

/-- What a lexer has yet to settle if it is at the end of its text. -/
def debt (lx : Lexer) : Debt where
  dedents := lx.pendingDedents
  indent := lx.pendingIndent
  nesting := lx.nesting
  indents := lx.indents
  closes := lx.atLineStart && lx.nesting == 0 && decide (0 < lx.indents.depth)

/-- No error has stopped the lexer for good. -/
def Live (lx : Lexer) : Prop := ∀ e, lx.stop ≠ .failed e

/-- After a turn at the end of a text: nothing but blanks is left, and what does not belong to the
debt is as it was. -/
structure Settled (lx ly : Lexer) (k : Kind) (d : Debt) : Prop where
  spent : ly.Spent
  debt : ly.debt = d
  encoding : ly.encoding? = lx.encoding?
  stop : k ≠ .endMarker → ly.stop = lx.stop
  ended : k = .endMarker → ly.Live

/-- The end marker is given where nothing else is due. -/
theorem body_settles (hspent : ly.Spent) (hencoding : ly.encoding? = lx.encoding?) :
    ∃ x lz, ly.body = (.lexeme x, lz) ∧ x.kind = .endMarker ∧ x.text = "" ∧
      Settled lx lz .endMarker ly.debt := by
  refine ⟨_, _, body_of_spent hspent, rfl, rfl, ?_⟩
  refine { spent := spent_of_rest hspent.rest_skipLayout, debt := rfl, encoding := hencoding,
           stop := fun hne => absurd rfl hne, ended := fun _ e he => ?_ }
  simp only at he
  split at he <;> cases he

theorem debt_startLine (blank : Bool) (lx : Lexer) :
    (lx.startLine blank).debt = { lx.debt with closes := false } := rfl

/-- Leaves the start of a line that closes blocks. -/
def closeLine (indents : Indents) (n : Nat) (lx : Lexer) : Lexer :=
  leaveAsyncScope { lx.startLine false with indents, pendingDedents := n }

theorem closeLine_frame (indents : Indents) (n : Nat) (lx : Lexer) :
    lx.closeLine indents n =
      { lx.startLine false with
        indents, pendingDedents := n, asyncScope? := (lx.closeLine indents n).asyncScope? } := by
  rw [closeLine, leaveAsyncScope_frame]

theorem spent_closeLine (h : lx.Spent) (indents : Indents) (n : Nat) :
    (lx.closeLine indents n).Spent := by
  rw [closeLine_frame]
  exact spent_of_rest h.rest_skipLayout

theorem debt_closeLine (indents : Indents) (n : Nat) (lx : Lexer) :
    (lx.closeLine indents n).debt = { lx.debt with indents, dedents := n, closes := false } := by
  rw [closeLine_frame]
  rfl

theorem encoding_closeLine (indents : Indents) (n : Nat) (lx : Lexer) :
    (lx.closeLine indents n).encoding? = lx.encoding? := by
  rw [closeLine_frame]
  rfl

theorem stop_closeLine (indents : Indents) (n : Nat) (lx : Lexer) :
    (lx.closeLine indents n).stop = lx.stop := by
  rw [closeLine_frame]
  rfl

theorem owesNothing_closeLine (h : lx.pendingIndent = false) (indents : Indents) :
    (lx.closeLine indents 0).OwesNothing := by
  rw [closeLine_frame]
  exact ⟨rfl, h⟩

theorem depth_eq_zero_iff (s : Indents) : s.depth = 0 ↔ s = Indents.empty := by
  obtain ⟨levels⟩ := s
  simp [Indents.depth, Indents.empty, List.length_eq_zero_iff]

/-- A turn at the end of a text that closes blocks, if the text ends at the start of a line. -/
theorem turn_of_closing (h : lx.Spent) (hdue : lx.OwesNothing) (hstart : lx.atLineStart = true)
    (hnesting : lx.nesting = 0) :
    lx.turn =
      match lx.indents.apply Measure.zero with
      | (.error e, indents) => (.failed e, { lx.startLine false with indents })
      | (.ok (.shallower (n + 1)), indents) =>
        (.lexeme ((lx.closeLine indents (n + 1)).cursor.bare .dedent),
          { lx.closeLine indents (n + 1) with pendingDedents := n })
      | (.ok _, indents) => (lx.closeLine indents 0).body := by
  rw [turn_of_measure hdue hstart, measureLine_of_spent h, if_neg (by omega), applyIndent]
  have hindents : (lx.startLine false).indents = lx.indents := rfl
  rw [hindents]
  cases happly : lx.indents.apply Measure.zero with
  | mk change indents =>
    cases change with
    | error e => rfl
    | ok change =>
      cases change with
      | same =>
        have hline : leaveAsyncScope { lx.startLine false with indents } =
            lx.closeLine indents 0 := by
          rw [closeLine, ← hdue.1]
          rfl
        have hnone := takeDue?_eq_none_iff.2 (owesNothing_closeLine hdue.2 indents)
        simp only [hline, hnone]
      | deeper => exact absurd (Indents.apply_deeper happly).2 (Nat.lt_irrefl _)
      | shallower n =>
        have hline : leaveAsyncScope { lx.startLine false with indents, pendingDedents := n } =
            lx.closeLine indents n := rfl
        cases n with
        | zero =>
          have hnone := takeDue?_eq_none_iff.2 (owesNothing_closeLine hdue.2 indents)
          simp only [hline, hnone]
        | succ n =>
          have hdedents : (lx.closeLine indents (n + 1)).pendingDedents = n + 1 := by
            rw [closeLine_frame]
          have hdue' : 0 < (lx.closeLine indents (n + 1)).pendingDedents := by omega
          have hdedent := takeDue?_eq_dedent hdue'
          rw [hdedents] at hdedent
          simp only [hline, hdedent, Nat.add_sub_cancel]

/-- Where no dedent comes of the end of the text, the end marker comes. -/
theorem closeLine_settles (h : lx.Spent) (hdue : lx.OwesNothing) (indents : Indents) :
    ∃ x lz, (lx.closeLine indents 0).body = (.lexeme x, lz) ∧ x.kind = .endMarker ∧ x.text = "" ∧
      Settled lx lz .endMarker { lx.debt with indents, closes := false } := by
  have hdebt : (lx.closeLine indents 0).debt = { lx.debt with indents, closes := false } := by
    rw [debt_closeLine, ← hdue.1]
    rfl
  rw [← hdebt]
  exact body_settles (spent_closeLine h indents 0) (encoding_closeLine indents 0 lx)

/-- Where the line start makes no difference, the end marker comes. -/
theorem turn_of_not_closes (h : lx.Spent) (hdue : lx.OwesNothing)
    (hcloses : lx.debt.closes = false) :
    ∃ x ly, lx.turn = (.lexeme x, ly) ∧ x.kind = .endMarker ∧ x.text = "" ∧
      Settled lx ly .endMarker lx.debt := by
  by_cases hstart : lx.atLineStart = true
  · by_cases hnesting : lx.nesting = 0
    · have hdepth : lx.indents.depth = 0 := by
        simpa [debt, hstart, hnesting] using hcloses
      have hempty := (depth_eq_zero_iff _).1 hdepth
      have happly : lx.indents.apply Measure.zero = (.ok .same, Indents.empty) := by
        rw [hempty]
        rfl
      have hend := closeLine_settles h hdue lx.indents
      have hdebt : { lx.debt with indents := lx.indents, closes := false } = lx.debt := by
        rw [← hcloses]
        rfl
      rw [turn_of_closing h hdue hstart hnesting, happly, ← hempty]
      rwa [hdebt] at hend
    · have hline : (lx.startLine false).debt = lx.debt := by rw [debt_startLine, ← hcloses]
      have hnone := takeDue?_eq_none_iff.2 (show (lx.startLine false).OwesNothing from hdue)
      rw [turn_of_measure hdue hstart, measureLine_of_spent h, if_pos (by omega)]
      simp only [hnone]
      rw [← hline]
      exact body_settles (spent_of_rest h.rest_skipLayout) rfl
  · rw [turn_of_body hdue (by simpa using hstart)]
    exact body_settles h rfl

/-- A turn at the end of a text does what the debt tells. -/
theorem turn_of_spent (h : lx.Spent) :
    match lx.debt.settle with
    | .error e => ∃ ly, lx.turn = (.failed e, ly)
    | .ok (k, d) =>
      ∃ x ly, lx.turn = (.lexeme x, ly) ∧ x.kind = k ∧ x.text = "" ∧ Settled lx ly k d := by
  by_cases hdedents : 0 < lx.debt.dedents
  · rw [Debt.settle, if_pos hdedents]
    exact ⟨_, _, turn_of_due (takeDue?_eq_dedent hdedents), rfl, rfl, h, rfl, rfl, fun _ => rfl,
      fun hend => by cases hend⟩
  · by_cases hindent : lx.debt.indent = true
    · rw [Debt.settle, if_neg hdedents, if_pos hindent]
      exact ⟨_, _, turn_of_due (takeDue?_eq_indent hdedents hindent), rfl, rfl, h, rfl, rfl,
        fun _ => rfl, fun hend => by cases hend⟩
    · have hdue : lx.OwesNothing :=
        ⟨Nat.eq_zero_of_not_pos hdedents, eq_false_of_ne_true hindent⟩
      rw [Debt.settle, if_neg hdedents, if_neg hindent]
      by_cases hcloses : lx.debt.closes = true
      · obtain ⟨⟨hstart, hnesting⟩, _⟩ : (lx.atLineStart = true ∧ lx.nesting = 0) ∧ _ := by
          simpa [debt] using hcloses
        rw [if_pos hcloses, turn_of_closing h hdue hstart hnesting]
        have hindents : lx.debt.indents = lx.indents := rfl
        have hend := closeLine_settles h hdue
        rw [hindents]
        cases happly : lx.indents.apply Measure.zero with
        | mk change indents =>
          cases change with
          | error e => exact ⟨_, rfl⟩
          | ok change =>
            cases change with
            | same => exact hend indents
            | deeper => exact hend indents
            | shallower n =>
              cases n with
              | zero => exact hend indents
              | succ n =>
                refine ⟨_, _, rfl, rfl, rfl, ?_, ?_, ?_, ?_, fun hend => by cases hend⟩
                · exact spent_closeLine h indents (n + 1)
                · rw [closeLine_frame]
                  rfl
                · exact encoding_closeLine indents (n + 1) lx
                · exact fun _ => stop_closeLine indents (n + 1) lx
      · rw [if_neg hcloses]
        exact turn_of_not_closes h hdue (by simpa using hcloses)

end Lexer
end Offside
