import Offside.Proofs.Grammar.Blocks
import Offside.Proofs.Lexer.Gaps

/-!
Indents and dedents in balance. The blocks of a lexer are those whose indents it has handed out and
whose dedents it has not; one that has come to the end of its text leaves the others to whoever
asks for their dedents, and hands these out before the end marker comes again.
-/

namespace Offside.Lexer

open Text

variable {lx ly : Lexer} {x : Lexeme}

/-- Blocks whose indents were handed out, and whose dedents were not. -/
def level (lx : Lexer) : Int := lx.indents.depth - lx.pendingIndent.toNat + lx.pendingDedents

theorem takeDue?_level (h : lx.takeDue? = some (x, ly)) : ly.level = lx.level + x.kind.rise := by
  unfold takeDue? at h
  split at h
  · obtain ⟨rfl, rfl⟩ := Prod.mk.inj (Option.some.inj h)
    show (lx.indents.depth : Int) - lx.pendingIndent.toNat + ((lx.pendingDedents - 1 : Nat) : Int) =
      lx.level + -1
    rw [level]
    omega
  · split at h
    · next hindent =>
      obtain ⟨rfl, rfl⟩ := Prod.mk.inj (Option.some.inj h)
      show (lx.indents.depth : Int) - 0 + lx.pendingDedents = lx.level + 1
      rw [level, hindent, Bool.toNat_true]
      omega
    · cases h

theorem level_leaveAsyncScope (lx : Lexer) : lx.leaveAsyncScope.level = lx.level := by
  rw [leaveAsyncScope_frame]
  rfl

/-- Blocks that are opened or closed are owed a token. -/
theorem applyIndent_level {m : Measure} (hdue : lx.OwesNothing)
    (h : lx.applyIndent m = (none, ly)) : ly.level = lx.level := by
  obtain ⟨hdedents, hindent⟩ := hdue
  have hlevel : lx.level = lx.indents.depth := by
    rw [level, hdedents, hindent, Bool.toNat_false]
    omega
  unfold applyIndent at h
  split at h
  · cases h
  · next change indents heq =>
    obtain ⟨_, rfl⟩ := Prod.mk.inj h
    rw [level_leaveAsyncScope, hlevel]
    cases change with
    | same =>
      obtain rfl := Indents.apply_same heq
      exact hlevel
    | deeper =>
      have hdepth := (Indents.apply_deeper heq).1
      show (indents.depth : Int) - 1 + lx.pendingDedents = _
      omega
    | shallower n =>
      have hdepth := Indents.apply_shallower heq
      show (indents.depth : Int) - lx.pendingIndent.toNat + n = _
      rw [hindent, Bool.toNat_false]
      omega

theorem measureLine_level (hdue : lx.OwesNothing) (h : lx.measureLine = (none, ly)) :
    ly.level = lx.level := by
  have hstart : ∀ blank, (lx.startLine blank).level = lx.level := fun _ => rfl
  have howes : ∀ blank, (lx.startLine blank).OwesNothing := fun _ => hdue
  cases hrest : lx.skipLayout.cursor.rest with
  | nil =>
    have hspent : lx.Spent := by rw [Spent, ← rest_skipLayout, hrest]
    rw [measureLine_of_spent hspent] at h
    split at h
    · obtain ⟨_, rfl⟩ := Prod.mk.inj h
      exact hstart _
    · exact (applyIndent_level (howes _) h).trans (hstart _)
  | cons c rest =>
    rw [measureLine_of_code hrest] at h
    split at h
    · obtain ⟨_, rfl⟩ := Prod.mk.inj h
      exact hstart _
    · exact (applyIndent_level (howes _) h).trans (hstart _)

theorem Settles.level (hdue : lx.OwesNothing) (h : lx.Settles ly) : ly.level = lx.level := by
  rcases h with ⟨_, hmeasure⟩ | ⟨_, rfl⟩
  · exact measureLine_level hdue hmeasure
  · rfl

/-- What a lexer makes of the text opens and closes as many blocks as its lexeme tells. -/
inductive Rises (level : Int) : Outcome × Lexer → Prop
  | lexeme {x : Lexeme} {ly : Lexer} (h : ly.level = level + x.kind.rise) :
      Rises level (.lexeme x, ly)
  | nothing {ly : Lexer} (h : ly.level = level) : Rises level (.nothing, ly)
  | failed {e : LexError} {ly : Lexer} : Rises level (.failed e, ly)

/-- A lexeme that neither opens nor closes a block. -/
theorem rises_of_flat (hkind : x.kind.rise = 0) (h : ly.level = lx.level) :
    Rises lx.level (.lexeme x, ly) := .lexeme (by rw [hkind, h, Int.add_zero])

theorem rise_of_isPlain {k : Kind} (h : k.isPlain = true) : k.rise = 0 := by
  cases k <;> first | rfl | cases h

theorem level_afterPragma (lx : Lexer) : lx.afterPragma.level = lx.level := by
  unfold afterPragma
  split
  · split <;> rfl
  · rfl

theorem Piece.rises {r : Outcome × Lexer} (h : Piece lx r) : Rises lx.level r := by
  cases h with
  | ended => exact rises_of_flat rfl rfl
  | comment => exact .nothing rfl
  | pragma =>
    refine rises_of_flat ?_ ((level_afterPragma _).trans rfl)
    rw [Cursor.kind_lexeme]
    rfl
  | blankBreak => exact .nothing rfl
  | newline =>
    refine rises_of_flat ?_ rfl
    rw [Cursor.kind_lexeme]
    rfl
  | joined => exact .nothing rfl
  | brokenOff => exact .failed
  | stray => exact .failed
  | literal =>
    refine rises_of_flat ?_ rfl
    rw [Cursor.kind_lexeme]
    rfl
  | unended => exact .failed
  | @plain kind kind' read rest ly hrest hscan hclassify =>
    have hplain := isPlain_classify (Plain.plain_of_scan? hscan).1 read rest
      ((lx.advance read).nest kind)
    rw [hclassify] at hplain
    refine rises_of_flat ?_ ?_
    · rw [Cursor.kind_lexeme]
      exact rise_of_isPlain hplain
    · rw [plain_frame hclassify]
      rfl
  | bad => exact .failed

theorem turn_rises (lx : Lexer) : Rises lx.level lx.turn := by
  have hturned := turned lx
  generalize lx.turn = r at hturned
  cases hturned with
  | due h => exact .lexeme (takeDue?_level h)
  | misplaced => exact .failed
  | indented hdue hsettles h =>
    rw [← hsettles.level hdue]
    exact .lexeme (takeDue?_level h)
  | @read ly _ hdue hsettles _ h =>
    have hlevel := hsettles.level hdue
    have hskip : ly.skipLayout.level = ly.level := rfl
    rw [← hlevel, ← hskip]
    exact h.rises

theorem level_leaveLine (lx : Lexer) : lx.leaveLine.level = lx.level := by
  unfold leaveLine
  split <;> rfl

theorem next_level (h : lx.next = (.ok x, ly)) : ly.level = lx.level + x.kind.rise := by
  have hkeeps : ∀ {ly lz : Lexer}, ly.level = lx.level → ly.turn = (.nothing, lz) →
      lz.level = lx.level := by
    intro ly lz hlevel hturn
    have hrises := turn_rises ly
    rw [hturn] at hrises
    cases hrises with
    | nothing hsame => exact hsame.trans hlevel
  obtain ⟨lz, hlevel, hturn⟩ := exists_turn_of_next h (level_leaveLine lx) hkeeps
  have hrises := turn_rises lz
  rw [hturn, hlevel] at hrises
  cases hrises with
  | lexeme hrise => exact hrise

/-- A lexer's level is what its tokens have opened and not closed. -/
theorem Yields.level {xs : List Lexeme} (h : Yields lx xs ly) :
    ly.level = lx.level + rise (xs.map Lexeme.token) := by
  induction h with
  | nil => rw [List.map_nil, rise_nil, Int.add_zero]
  | cons hnext _ ih =>
    rw [ih, next_level hnext, List.map_cons, rise_cons, Int.add_assoc]
    rfl

/-- The text is at its end, and nothing is left to hand out but dedents that are queued. -/
structure AtEnd (lx : Lexer) : Prop where
  rest : lx.cursor.rest = []
  sameLine : lx.lineEnded = false
  measured : lx.atLineStart = false
  noIndent : lx.pendingIndent = false
  live : ∀ e, lx.stop ≠ .failed e

theorem Piece.endOfInput {r : Outcome × Lexer} (h : Piece lx r) (hr : r = (.lexeme x, ly))
    (hx : x.kind = .endMarker) : r = lx.endOfInput := by
  have hlexeme : ∀ {kind : Kind} {read : List Char} {cur : Cursor} {lz : Lexer},
      (Outcome.lexeme (cur.lexeme kind read), lz) = (.lexeme x, ly) → kind = .endMarker := by
    intro kind read cur lz heq
    obtain ⟨hlexeme, _⟩ := Prod.mk.inj heq
    rw [← Outcome.lexeme.inj hlexeme, Cursor.kind_lexeme] at hx
    exact hx
  cases h with
  | ended => rfl
  | pragma => cases hlexeme hr
  | newline => cases hlexeme hr
  | literal => cases hlexeme hr
  | @plain kind kind' read rest ly hrest hscan hclassify =>
    have hplain := isPlain_classify (Plain.plain_of_scan? hscan).1 read rest
      ((lx.advance read).nest kind)
    rw [hclassify, hlexeme hr] at hplain
    cases hplain
  | comment => cases hr
  | blankBreak => cases hr
  | joined => cases hr
  | brokenOff => cases hr
  | stray => cases hr
  | unended => cases hr
  | bad => cases hr

theorem Settles.measured (h : lx.Settles ly) : ly.atLineStart = false := by
  rcases h with ⟨_, hmeasure⟩ | ⟨hstart, rfl⟩
  · have hframe := measureLine_frame lx
    rw [hmeasure] at hframe
    dsimp only at hframe
    rw [hframe]
  · exact hstart

theorem live_endOfInput (lx : Lexer) (e : LexError) : lx.endOfInput.2.stop ≠ .failed e := by
  unfold endOfInput
  dsimp only
  split <;> exact fun h => by cases h

theorem turn_of_endMarker (h : lx.turn = (.lexeme x, ly)) (hx : x.kind = .endMarker) :
    ly.atLineStart = false ∧ ly.OwesNothing ∧ ∀ e, ly.stop ≠ .failed e := by
  have hturned := turned lx
  rw [h] at hturned
  generalize hr : (Outcome.lexeme x, ly) = r at hturned
  cases hturned with
  | due hdue =>
    obtain ⟨hlexeme, _⟩ := Prod.mk.inj hr
    rw [Outcome.lexeme.inj hlexeme] at hx
    exact absurd hx (kind_of_takeDue? hdue)
  | misplaced => cases hr
  | indented _ _ hdue =>
    obtain ⟨hlexeme, _⟩ := Prod.mk.inj hr
    rw [Outcome.lexeme.inj hlexeme] at hx
    exact absurd hx (kind_of_takeDue? hdue)
  | @read lz _ _ hsettles hdue hpiece =>
    have hend := hpiece.endOfInput hr.symm hx
    obtain ⟨_, rfl⟩ := Prod.mk.inj (hr.trans hend)
    exact ⟨hsettles.measured, hdue, live_endOfInput _⟩

/-- The end marker comes where the text ends and nothing is owed. -/
theorem atEnd_of_next (h : lx.next = (.ok x, ly)) (hx : x.kind = .endMarker) :
    ly.AtEnd ∧ ly.pendingDedents = 0 ∧ x = ly.cursor.bare .endMarker := by
  obtain ⟨lz, _, hturn⟩ :=
    exists_turn_of_next (motive := fun _ => True) h trivial fun _ _ => trivial
  obtain ⟨hmeasured, ⟨hdedents, hindent⟩, hlive⟩ := turn_of_endMarker hturn hx
  cases next_hands h with
  | bare _ _ _ hline hend =>
    obtain rfl : _ = Kind.endMarker := hx
    exact ⟨⟨hend rfl, hline, hmeasured, hindent, hlive⟩, hdedents, rfl⟩
  | token hkind =>
    rw [Cursor.kind_lexeme] at hx
    exact absurd (Or.inr (Or.inr hx)) hkind

namespace AtEnd

theorem level (h : lx.AtEnd) (hn : lx.pendingDedents = 0) : lx.level = lx.indents.depth := by
  rw [Lexer.level, h.noIndent, hn, Bool.toNat_false]
  omega

theorem scan (h : lx.AtEnd) : lx.next = lx.scan := by
  rw [next_of_not_failed h.live, leaveLine_of_same_line h.sameLine]

/-- Dedents that are queued come first. -/
theorem next_dedent (h : lx.AtEnd) {n : Nat} (hn : lx.pendingDedents = n + 1) :
    lx.next = (.ok (lx.cursor.bare .dedent), { lx with pendingDedents := n }) := by
  have hpos : 0 < lx.pendingDedents := hn ▸ Nat.succ_pos n
  have hdue := takeDue?_eq_dedent hpos
  rw [hn, Nat.add_sub_cancel] at hdue
  rw [h.scan, scan_of_lexeme (turn_of_due hdue)]

theorem queued (h : lx.AtEnd) (n : Nat) : AtEnd { lx with pendingDedents := n } :=
  ⟨h.rest, h.sameLine, h.measured, h.noIndent, h.live⟩

theorem queueDedents (h : lx.AtEnd) (n : Nat) : (lx.queueDedents n).AtEnd :=
  ⟨h.rest, h.sameLine, h.measured, rfl, h.live⟩

/-- Then the end marker comes. -/
theorem next_of_drained (h : lx.AtEnd) (hn : lx.pendingDedents = 0) :
    lx.next = (.ok (lx.cursor.bare .endMarker), lx.endOfInput.2) := by
  have hskip : lx.skipLayout = lx := by
    rw [skipLayout, h.rest, List.takeWhile_nil, advance, Cursor.advance]
  have hturn : lx.turn = lx.endOfInput := by
    rw [turn_of_body ⟨hn, h.noIndent⟩ h.measured, body_of_spent (spent_of_rest h.rest), hskip]
  exact h.scan.trans (scan_of_lexeme hturn)

/-- It leaves the lexer where it stands. -/
theorem next_endMarker (h : lx.AtEnd) (hn : lx.pendingDedents = 0) :
    ∃ ly, lx.next = (.ok (lx.cursor.bare .endMarker), ly) ∧ ly.AtEnd ∧ ly.pendingDedents = 0 ∧
      ly.cursor = lx.cursor ∧ ly.indents = lx.indents := by
  refine ⟨lx.endOfInput.2, h.next_of_drained hn, ?_, hn, rfl, rfl⟩
  exact ⟨h.rest, h.sameLine, h.measured, h.noIndent, live_endOfInput lx⟩

end AtEnd

end Offside.Lexer
