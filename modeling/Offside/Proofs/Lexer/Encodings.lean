import Offside.Proofs.Lexer.Tokens
import Offside.Proofs.Lexer.Turns

/-!
What a lexer reports as the encoding of its text has no part in what it does: a lexer that reports
another one hands out the same, and it is in the same state otherwise.
-/

namespace Offside.Lexer

open Text

variable {lx ly : Lexer}

/-- A lexer that reports another encoding. -/
def under (encoding? : Option String) (lx : Lexer) : Lexer := { lx with encoding? }

variable (encoding? : Option String)

theorem takeDue?_under (lx : Lexer) :
    (lx.under encoding?).takeDue? = lx.takeDue?.map fun due => (due.1, due.2.under encoding?) := by
  have hdedents : (lx.under encoding?).pendingDedents = lx.pendingDedents := rfl
  have hindent : (lx.under encoding?).pendingIndent = lx.pendingIndent := rfl
  unfold takeDue?
  rw [hdedents, hindent]
  split
  · rfl
  · split <;> rfl

theorem leaveLine_under (lx : Lexer) :
    (lx.under encoding?).leaveLine = lx.leaveLine.under encoding? := by
  have hended : (lx.under encoding?).lineEnded = lx.lineEnded := rfl
  unfold leaveLine
  rw [hended]
  split <;> rfl

theorem leaveAsyncScope_under (lx : Lexer) :
    (lx.under encoding?).leaveAsyncScope = lx.leaveAsyncScope.under encoding? := by
  have hscope : (lx.under encoding?).asyncScope? = lx.asyncScope? := rfl
  have hindents : (lx.under encoding?).indents = lx.indents := rfl
  unfold leaveAsyncScope
  rw [hscope, hindents]
  split
  · split <;> rfl
  · rfl

theorem applyIndent_under (m : Measure) (lx : Lexer) :
    (lx.under encoding?).applyIndent m =
      ((lx.applyIndent m).1, (lx.applyIndent m).2.under encoding?) := by
  have hindents : (lx.under encoding?).indents = lx.indents := rfl
  unfold applyIndent
  rw [hindents]
  split
  · rfl
  · next change indents _ =>
    cases change
    all_goals
      rw [← leaveAsyncScope_under]
      rfl

theorem measureLine_under (lx : Lexer) :
    (lx.under encoding?).measureLine = (lx.measureLine.1, lx.measureLine.2.under encoding?) :=
  measureLine_comm (fun _ => rfl) (applyIndent_under encoding?) rfl rfl rfl

theorem comment_under (lx : Lexer) :
    (lx.under encoding?).comment = (lx.comment.1, lx.comment.2.under encoding?) := by
  have hafter : ∀ ly : Lexer,
      (ly.under encoding?).afterPragma = ly.afterPragma.under encoding? := by
    intro ly
    have hcursor : (ly.under encoding?).cursor = ly.cursor := rfl
    have hblank : (ly.under encoding?).blankLine = ly.blankLine := rfl
    unfold afterPragma
    rw [hcursor, hblank]
    split
    · split <;> rfl
    · rfl
  have hcursor : (lx.under encoding?).cursor = lx.cursor := rfl
  rw [comment_eq, comment_eq, hcursor]
  cases Pragma.tag? (lx.cursor.rest.takeWhile fun c => !isBreak c) with
  | none => rfl
  | some tag => exact congrArg (Prod.mk _) (hafter (lx.advance _))

theorem lineBreak_under (br : List Char) (lx : Lexer) :
    (lx.under encoding?).lineBreak br =
      ((lx.lineBreak br).1, (lx.lineBreak br).2.under encoding?) := by
  have hblank : (lx.under encoding?).blankLine = lx.blankLine := rfl
  have hnesting : (lx.under encoding?).nesting = lx.nesting := rfl
  rw [lineBreak_eq, lineBreak_eq, hblank, hnesting]
  split <;> rfl

theorem continuation_under (lx : Lexer) :
    (lx.under encoding?).continuation = (lx.continuation.1, lx.continuation.2.under encoding?) := by
  have hcursor : ((lx.under encoding?).advance ['\\']).cursor = (lx.advance ['\\']).cursor := rfl
  unfold continuation
  dsimp only
  rw [hcursor]
  split <;> rfl

theorem readLiteral_under (stretch : Literal.Stretch) (lx : Lexer) :
    (lx.under encoding?).readLiteral stretch =
      ((lx.readLiteral stretch).1, (lx.readLiteral stretch).2.under encoding?) := by
  unfold readLiteral
  split <;> rfl

theorem nest_under (kind : Kind) (lx : Lexer) :
    (lx.under encoding?).nest kind = (lx.nest kind).under encoding? := by
  unfold nest
  split
  · rfl
  · split <;> rfl

theorem classifyAsync_under (keyword : Kind) (rest : List Char) (lx : Lexer) :
    (lx.under encoding?).classifyAsync keyword rest =
      ((lx.classifyAsync keyword rest).1, (lx.classifyAsync keyword rest).2.under encoding?) := by
  have halways : (lx.under encoding?).asyncAlways = lx.asyncAlways := rfl
  have hscope : (lx.under encoding?).asyncScope? = lx.asyncScope? := rfl
  unfold classifyAsync
  rw [halways, hscope]
  split
  · rfl
  · split <;> rfl

theorem classify_under (kind : Kind) (read rest : List Char) (lx : Lexer) :
    (lx.under encoding?).classify kind read rest =
      ((lx.classify kind read rest).1, (lx.classify kind read rest).2.under encoding?) := by
  unfold classify
  rw [classifyAsync_under, classifyAsync_under]
  split
  · rfl
  · split <;> rfl

theorem plain_under (c : Char) (text : List Char) (lx : Lexer) :
    (lx.under encoding?).plain c text =
      ((lx.plain c text).1, (lx.plain c text).2.under encoding?) := by
  unfold plain
  cases Plain.scan? text with
  | none => rfl
  | some found =>
    obtain ⟨kind, read, rest⟩ := found
    have hadvance : (lx.under encoding?).advance read = (lx.advance read).under encoding? := rfl
    dsimp only
    rw [hadvance, nest_under, classify_under]
    rfl

theorem body_under (lx : Lexer) :
    (lx.under encoding?).body = (lx.body.1, lx.body.2.under encoding?) := by
  have hskip : (lx.under encoding?).skipLayout = lx.skipLayout.under encoding? := rfl
  cases hrest : lx.skipLayout.cursor.rest with
  | nil =>
    have hspent : lx.Spent := by rw [Spent, ← rest_skipLayout, hrest]
    have hspent' : (lx.under encoding?).Spent := hspent
    rw [body_of_spent hspent, body_of_spent hspent', hskip]
    rfl
  | cons c rest =>
    have hrest' : (lx.under encoding?).skipLayout.cursor.rest = c :: rest := hrest
    by_cases hcomment : c = '#'
    · subst hcomment
      rw [body_of_comment hrest, body_of_comment hrest', hskip, comment_under]
    · by_cases hescape : c = '\\'
      · subst hescape
        rw [body_of_continuation hrest, body_of_continuation hrest', hskip, continuation_under]
      · rw [body_of_code hrest hcomment hescape, body_of_code hrest' hcomment hescape, hrest,
          hrest', hskip]
        split
        · exact lineBreak_under _ _ _
        · split
          · exact readLiteral_under _ _ _
          · exact plain_under _ _ _ _

/-- A turn is the same whatever encoding is reported. -/
theorem turn_under (lx : Lexer) :
    (lx.under encoding?).turn = (lx.turn.1, lx.turn.2.under encoding?) := by
  unfold turn
  rw [takeDue?_under]
  cases lx.takeDue? with
  | some due => rfl
  | none =>
    have hmeasure :
        (if (lx.under encoding?).atLineStart then (lx.under encoding?).measureLine
          else (none, lx.under encoding?)) =
        ((if lx.atLineStart then lx.measureLine else (none, lx)).1,
          (if lx.atLineStart then lx.measureLine else (none, lx)).2.under encoding?) := by
      have hstart : (lx.under encoding?).atLineStart = lx.atLineStart := rfl
      rw [hstart, measureLine_under]
      split <;> rfl
    dsimp only [Option.map_none]
    rw [hmeasure]
    generalize (if lx.atLineStart then lx.measureLine else (none, lx)) = measured
    obtain ⟨e?, ly⟩ := measured
    cases e? with
    | some e => rfl
    | none =>
      dsimp only
      rw [takeDue?_under]
      cases ly.takeDue? with
      | some due => rfl
      | none => exact body_under _ ly

theorem scan_under (lx : Lexer) :
    (lx.under encoding?).scan = (lx.scan.1, lx.scan.2.under encoding?) := by
  fun_induction scan lx with
  | case1 lx x ly hturn =>
    have hturn' := turn_under encoding? lx
    rw [hturn] at hturn'
    exact scan_of_lexeme hturn'
  | case2 lx e ly hturn =>
    have hturn' := turn_under encoding? lx
    rw [hturn] at hturn'
    exact scan_of_failed hturn'
  | case3 lx ly hturn _ ih =>
    have hturn' := turn_under encoding? lx
    rw [hturn] at hturn'
    rw [scan_of_nothing hturn', ih]

/-- The next token is the same whatever encoding is reported. -/
theorem next_under (lx : Lexer) :
    (lx.under encoding?).next = (lx.next.1, lx.next.2.under encoding?) := by
  have hstop : (lx.under encoding?).stop = lx.stop := rfl
  unfold next
  rw [hstop]
  split
  · rfl
  · rw [leaveLine_under, scan_under]

end Offside.Lexer
