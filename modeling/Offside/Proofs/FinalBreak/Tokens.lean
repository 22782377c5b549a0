import Offside.Proofs.FinalBreak.Turn
import Offside.Proofs.Lexer.Tokens

/-!
The next token of two lexers, whose texts differ in a final line feed. It is the same until one of
them is at its end; from then on the tokens are alike, and they differ by one newline if the text
ends in the middle of a line of code.
-/

namespace Offside.Lexer

variable {lx ly : Lexer}

theorem spent_leaveLine (h : lx.Spent) : lx.leaveLine.Spent := by
  unfold leaveLine
  split <;> exact h

theorem debt_leaveLine (lx : Lexer) : lx.leaveLine.debt = lx.debt := by
  unfold leaveLine
  split <;> rfl

theorem encoding_leaveLine (lx : Lexer) : lx.leaveLine.encoding? = lx.encoding? := by
  unfold leaveLine
  split <;> rfl

theorem Alike.leaveLine (h : Alike lx ly) : Alike lx.leaveLine ly.leaveLine where
  spent := spent_leaveLine h.spent
  spent' := spent_leaveLine h.spent'
  debt := by rw [debt_leaveLine, debt_leaveLine, h.debt]
  encoding := by rw [encoding_leaveLine, encoding_leaveLine, h.encoding]
  stop := by
    rw [stop_leaveLine, stop_leaveLine]
    exact h.stop

theorem stop_of_live (h : ¬lx.Live) : ∃ e, lx.stop = .failed e := by
  simpa only [Live, not_forall, not_not] using h

/-- The next token at the end of a text is told by the debt. -/
theorem next_of_spent (h : lx.Spent) (hlive : lx.Live) :
    match lx.debt.settle with
    | .error e => ∃ ly, lx.next = (.error e, ly)
    | .ok (k, d) =>
      ∃ x ly, lx.next = (.ok x, ly) ∧ x.kind = k ∧ x.text = "" ∧ Settled lx ly k d := by
  have hturn := turn_of_spent (spent_leaveLine h)
  rw [debt_leaveLine] at hturn
  rw [next_of_not_failed hlive]
  cases hsettle : lx.debt.settle with
  | error e =>
    rw [hsettle] at hturn
    obtain ⟨ly, hturn⟩ := hturn
    exact ⟨ly.fail e, scan_of_failed hturn⟩
  | ok result =>
    obtain ⟨k, d⟩ := result
    rw [hsettle] at hturn
    obtain ⟨x, ly, hturn, hkind, htext, hsettled⟩ := hturn
    refine ⟨x, ly, scan_of_lexeme hturn, hkind, htext, hsettled.spent, hsettled.debt, ?_, ?_,
      hsettled.ended⟩
    · rw [hsettled.encoding, encoding_leaveLine]
    · intro hk
      rw [hsettled.stop hk, stop_leaveLine]

/-- Where there is nothing to settle the end marker comes, again and again. -/
theorem next_of_clear (h : lx.Spent) (hdebt : lx.debt = Debt.clear) (hlive : lx.Live) :
    ∃ x ly, lx.next = (.ok x, ly) ∧ x.kind = .endMarker ∧ x.text = "" ∧ ly.Spent ∧
      ly.debt = Debt.clear ∧ ly.encoding? = lx.encoding? := by
  have hnext := next_of_spent h hlive
  rw [hdebt, Debt.settle_clear] at hnext
  obtain ⟨x, ly, hnext, hkind, htext, hsettled⟩ := hnext
  exact ⟨x, ly, hnext, hkind, htext, hsettled.spent, hsettled.debt, hsettled.encoding⟩

/-- Two lexers at their ends give tokens that differ in their places alone. -/
inductive GivesAlike : Except LexError Lexeme × Lexer → Except LexError Lexeme × Lexer → Prop
  | intro {x y : Lexeme} {lx ly : Lexer}
      (hlayout : x.kind = .dedent ∨ x.kind = .indent ∨ x.kind = .endMarker)
      (hkind : x.kind = y.kind) (hx : x.text = "") (hy : y.text = "") (halike : Alike lx ly) :
      GivesAlike (.ok x, lx) (.ok y, ly)

theorem Alike.scan (h : Alike lx ly) :
    (∃ e lz, ly.scan = (.error e, lz)) ∨ GivesAlike lx.scan ly.scan := by
  have hx := turn_of_spent h.spent
  have hy := turn_of_spent h.spent'
  rw [← h.debt] at hy
  cases hsettle : lx.debt.settle with
  | error e =>
    rw [hsettle] at hy
    obtain ⟨lz, hturn⟩ := hy
    exact Or.inl ⟨e, lz.fail e, scan_of_failed hturn⟩
  | ok result =>
    obtain ⟨k, d⟩ := result
    rw [hsettle] at hx hy
    obtain ⟨x, lx', hxturn, rfl, hxtext, hxsettled⟩ := hx
    obtain ⟨y, ly', hyturn, hykind, hytext, hysettled⟩ := hy
    refine Or.inr ?_
    rw [scan_of_lexeme hxturn, scan_of_lexeme hyturn]
    refine .intro (Debt.kind_of_settle hsettle) hykind.symm hxtext hytext
      { spent := hxsettled.spent
        spent' := hysettled.spent
        debt := by rw [hxsettled.debt, hysettled.debt]
        encoding := by rw [hxsettled.encoding, hysettled.encoding, h.encoding]
        stop := fun e he => ?_ }
    by_cases hend : x.kind = .endMarker
    · exact absurd he (hxsettled.ended hend e)
    · rw [hysettled.stop hend]
      rw [hxsettled.stop hend] at he
      exact h.stop e he

theorem Alike.next (h : Alike lx ly) :
    (∃ e lz, ly.next = (.error e, lz)) ∨ GivesAlike lx.next ly.next := by
  by_cases hlive : ly.Live
  · have hlive' : lx.Live := fun e he => hlive e (h.stop e he)
    rw [next_of_not_failed hlive, next_of_not_failed hlive']
    exact h.leaveLine.scan
  · obtain ⟨e, he⟩ := stop_of_live hlive
    exact Or.inl ⟨e, ly, next_of_failed he⟩

/-- How the next token compares with that before a final line feed, if so many blocks are open. -/
inductive ComparesNext (depth : Nat) :
    Except LexError Lexeme × Lexer → Except LexError Lexeme × Lexer → Prop
  | fails {r : Except LexError Lexeme × Lexer} {e : LexError} {ly' : Lexer} :
      ComparesNext depth r (.error e, ly')
  | breaksOff {r' : Except LexError Lexeme × Lexer} {ly : Lexer} :
      ComparesNext depth (.error .endOfFile, ly) r'
  | same {x : Lexeme} {ly : Lexer} (hx : x.kind ≠ .endMarker) :
      ComparesNext depth (.ok x, ly) (.ok x, ly.endLine)
  | together {x : Lexeme} {ly ly' : Lexer} (hx : x.kind ≠ .endMarker) (halike : Alike ly ly') :
      ComparesNext depth (.ok x, ly) (.ok x, ly')
  | alike {r r' : Except LexError Lexeme × Lexer} (h : GivesAlike r r') : ComparesNext depth r r'
  | line {x y : Lexeme} {ly ly' : Lexer} (hx : x.kind = .endMarker ∧ x.text = "")
      (hy : y.kind = .newline ∧ y.text = "") (hends : EndsLine ly ly')
      (hdepth : ly.indents.depth = depth) (hlive : ly.Live) :
      ComparesNext depth (.ok x, ly) (.ok y, ly')
  | leftOpen {x : Lexeme} {ly : Lexer} {r' : Except LexError Lexeme × Lexer}
      (hx : x.kind = .endMarker) (hblank : ly.blankLine = true) (hdepth : 0 < ly.indents.depth) :
      ComparesNext depth (.ok x, ly) r'
  | opens {x : Lexeme} {ly : Lexer} {r' : Except LexError Lexeme × Lexer}
      (hx : x.kind ≠ .endMarker) (hopen : ly.LeftOpen) : ComparesNext depth (.ok x, ly) r'

theorem LeftOpen.scan (h : lx.LeftOpen) :
    ∃ x ly, lx.scan = (.ok x, ly) ∧ x.kind = .endMarker ∧ ly.blankLine = true ∧
      0 < ly.indents.depth := by
  have hturn : lx.turn = lx.skipLayout.endOfInput := by
    rw [turn_of_body h.due h.lineStart, body_of_spent h.spent]
  exact ⟨_, _, scan_of_lexeme hturn, rfl, h.blankLine, h.depth⟩

theorem EndsLine.scan (h : EndsLine lx ly) :
    ∃ x lz, lx.scan = (.ok x, lz) ∧ x.kind = .endMarker ∧ x.text = "" ∧ EndsLine lz ly ∧
      lz.indents.depth = lx.indents.depth ∧ lz.Live := by
  have hturn := turn_of_spent h.spent
  rw [h.debt] at hturn
  obtain ⟨x, lz, hturn, hkind, htext, hsettled⟩ := hturn
  have hindents : lz.indents = lx.indents := congrArg Debt.indents hsettled.debt
  refine ⟨x, lz, scan_of_lexeme hturn, hkind, htext, ?_, by rw [hindents], hsettled.ended rfl⟩
  exact
    { spent := hsettled.spent
      spent' := h.spent'
      debt := by rw [hsettled.debt, hindents]
      debt' := by rw [h.debt', hindents]
      encoding := by rw [hsettled.encoding, h.encoding] }

theorem compares_of_alike (h : Alike lx ly) (depth : Nat) :
    ComparesNext depth lx.scan ly.scan := by
  rcases h.scan with ⟨e, lz, hfails⟩ | halike
  · rw [hfails]
    exact .fails
  · exact .alike halike

theorem scan_compares (lx : Lexer) : ComparesNext lx.indents.depth lx.scan lx.endLine.scan := by
  cases compared lx with
  | compares h =>
    generalize hx : lx.turn = r at h
    generalize hy : lx.endLine.turn = r' at h
    cases h with
    | fails =>
      rw [scan_of_failed hy]
      exact .fails
    | breaksOff =>
      rw [scan_of_failed hx]
      exact .breaksOff
    | @same o ly ho =>
      cases o with
      | lexeme x =>
        rw [scan_of_lexeme hx, scan_of_lexeme hy]
        exact .same ho
      | nothing =>
        have hlt := turn_weight_lt hx trivial
        rw [scan_of_nothing hx, scan_of_nothing hy, ← depth_turn_of_nothing hx]
        exact scan_compares ly
      | failed e => exact ho.elim
    | @together o ly ly' ho halike =>
      cases o with
      | lexeme x =>
        rw [scan_of_lexeme hx, scan_of_lexeme hy]
        exact .together ho halike
      | nothing =>
        rw [scan_of_nothing hx, scan_of_nothing hy]
        exact compares_of_alike halike _
      | failed e => exact ho.elim
    | opens hkind hopen =>
      rw [scan_of_lexeme hx]
      exact .opens hkind hopen
  | alone hturn halike =>
    rw [scan_of_nothing hturn]
    exact compares_of_alike halike _
  | line hturn hkind htext hends =>
    obtain ⟨x, lz, hscan, hxkind, hxtext, hends', hdepth, hlive⟩ := hends.scan
    rw [hscan, scan_of_lexeme hturn]
    exact .line ⟨hxkind, hxtext⟩ ⟨hkind, htext⟩ hends' hdepth hlive
  | leftOpen h =>
    obtain ⟨x, ly, hscan, hkind, hblank, hdepth⟩ := h.scan
    rw [hscan]
    exact .leftOpen hkind hblank hdepth
termination_by lx.weight

/-- The next token, compared with that before a final line feed. -/
theorem next_compares (lx : Lexer) : ComparesNext lx.indents.depth lx.next lx.endLine.next := by
  by_cases hlive : lx.Live
  · have hscan := scan_compares lx.leaveLine
    rw [indents_leaveLine] at hscan
    have hlive' : lx.endLine.Live := hlive
    rwa [next_of_not_failed hlive, next_of_not_failed hlive', leaveLine_endLine]
  · obtain ⟨e, he⟩ := stop_of_live hlive
    have he' : lx.endLine.stop = .failed e := he
    rw [next_of_failed he']
    exact .fails

theorem LeftOpen.leaveLine (h : lx.LeftOpen) : lx.leaveLine.LeftOpen := by
  unfold Lexer.leaveLine
  split
  · exact ⟨h.spent, h.due, h.lineStart, h.blankLine, h.nesting, h.depth⟩
  · exact h

/-- A block that a comment leaves open stays open. -/
theorem LeftOpen.drain (h : lx.LeftOpen) :
    lx.drain.2.2.blankLine = true ∧ 0 < lx.drain.2.2.indents.depth := by
  by_cases hlive : lx.Live
  · obtain ⟨x, ly, hscan, hkind, hblank, hdepth⟩ := h.leaveLine.scan
    rw [Lexer.drain, drainFrom_of_end (next_of_not_failed hlive ▸ hscan) hkind]
    exact ⟨hblank, hdepth⟩
  · obtain ⟨e, he⟩ := stop_of_live hlive
    rw [Lexer.drain, drainFrom_of_error (next_of_failed he)]
    exact ⟨h.blankLine, h.depth⟩

theorem debt_queueDedents (n : Nat) (lx : Lexer) :
    (lx.queueDedents n).debt = ⟨n, false, lx.nesting, Indents.empty, false⟩ := by
  have hdepth : Indents.empty.depth = 0 := rfl
  simp only [debt, queueDedents, hdepth, Nat.lt_irrefl, decide_false, Bool.and_false]

theorem Alike.queueDedents (h : Alike lx ly) (n : Nat) :
    Alike (lx.queueDedents n) (ly.queueDedents n) where
  spent := h.spent
  spent' := h.spent'
  debt := by
    have hnesting : lx.nesting = ly.nesting := congrArg Debt.nesting h.debt
    rw [debt_queueDedents, debt_queueDedents, hnesting]
  encoding := h.encoding
  stop := h.stop

/-- The dedents that are asked for at the end of a line are those that its line feed gives. -/
theorem EndsLine.dedents (h : EndsLine lx ly) (hpositive : lx.indents.Positive)
    (hdepth : 0 < lx.indents.depth) (hlive : lx.Live) (hlive' : ly.Live) :
    ∃ x lx' y ly', (lx.queueDedents lx.indents.depth).next = (.ok x, lx') ∧
      ly.next = (.ok y, ly') ∧ x.kind = .dedent ∧ y.kind = .dedent ∧ x.text = "" ∧
      y.text = "" ∧ Alike lx' ly' := by
  obtain ⟨n, hn⟩ : ∃ n, lx.indents.depth = n + 1 := ⟨lx.indents.depth - 1, by omega⟩
  have hnesting : lx.nesting = 0 := congrArg Debt.nesting h.debt
  have hspent : (lx.queueDedents (n + 1)).Spent := h.spent
  have hx := next_of_spent hspent hlive
  have hy := next_of_spent h.spent' hlive'
  have hsettle : (Debt.mk (n + 1) false 0 Indents.empty false).settle =
    .ok (.dedent, ⟨n, false, 0, Indents.empty, false⟩) := rfl
  have hsettle' : (Debt.mk 0 false 0 lx.indents true).settle =
      .ok (.dedent, ⟨n, false, 0, Indents.empty, false⟩) := by
    have happly := Indents.apply_zero hpositive hdepth
    rw [hn] at happly
    simp only [Debt.settle, happly, Nat.lt_irrefl, if_false, Bool.false_eq_true, if_true]
  rw [debt_queueDedents, hnesting, hsettle] at hx
  rw [h.debt', decide_eq_true hdepth, hsettle'] at hy
  obtain ⟨x, lx', hxnext, hxkind, hxtext, hxsettled⟩ := hx
  obtain ⟨y, ly', hynext, hykind, hytext, hysettled⟩ := hy
  rw [hn]
  refine ⟨x, lx', y, ly', hxnext, hynext, hxkind, hykind, hxtext, hytext, ?_⟩
  exact
    { spent := hxsettled.spent
      spent' := hysettled.spent
      debt := by rw [hxsettled.debt, hysettled.debt]
      encoding := hxsettled.encoding.trans (h.encoding.trans hysettled.encoding.symm)
      stop := fun e he => absurd (hxsettled.stop (by decide) ▸ he) (hlive e) }

end Offside.Lexer
