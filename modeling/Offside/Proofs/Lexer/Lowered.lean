import Mathlib.Data.List.Forall2
import Offside.Proofs.Lexer.Conventions
import Offside.Proofs.Lexer.View

/-!
Lexers one line further down. What a lexer does is told by its layout, its brackets and the text
that it has not read. Where it stands goes into lexemes and nowhere else: with more text before it,
a lexer takes the same turns, and hands out the same tokens further down.
-/

namespace Offside

open Text

variable {text below read rest : List Char} {bytes : Nat}

/-- A token, and the same token one line further down. The lines are numbered in 32 bits, and behind
the last number comes 0. Only where a text is too long for positions to be stored may a token have
lost its column and its text. -/
structure Token.Lowered (fits : Prop) (t u : Token) : Prop where
  kind : u.kind = t.kind
  line : u.line = (t.line + 1) % 2 ^ 32
  told : u.column? = t.column? ∧ u.text = t.text ∨ ¬fits ∧ u.column? = none ∧ u.text = ""

namespace Cursor

variable {cur : Cursor} {opened read' : List Char}

/-- A cursor one line and so many bytes further down. -/
def lowered (bytes : Nat) (cur : Cursor) : Cursor :=
  { cur with
    offset := cur.offset + bytes
    line := cur.line + 1
    lineStart := cur.lineStart + bytes }

theorem skipChar_lowered (c : Char) (cur : Cursor) :
    (cur.lowered bytes).skipChar c = (cur.skipChar c).lowered bytes := by
  simp only [lowered, skipChar, Nat.add_right_comm]

theorem openLine_lowered (cur : Cursor) :
    (cur.lowered bytes).openLine = cur.openLine.lowered bytes := rfl

theorem skip_lowered (read : List Char) (cur : Cursor) :
    (cur.lowered bytes).skip read = (cur.skip read).lowered bytes := by
  induction read generalizing cur with
  | nil => rfl
  | cons c read ih => rw [skip_cons, skip_cons, skipChar_lowered, ih]

theorem advance_lowered (read : List Char) (cur : Cursor) :
    (cur.lowered bytes).advance read = (cur.advance read).lowered bytes := by
  induction read, cur using advance_induction with
  | nil => rfl
  | joined read cur ih =>
    rw [advance_joined, advance_joined, skipChar_lowered, skipChar_lowered, openLine_lowered, ih]
  | lineBreak c read cur hjoined hbreak hstep ih =>
    rw [hstep, advance_cons (not_splits_of_not_joined hjoined), if_pos hbreak, skipChar_lowered,
      openLine_lowered, ih]
  | other c read cur hjoined hbreak hstep ih =>
    rw [hstep, advance_cons (not_splits_of_not_joined hjoined), hbreak, if_neg Bool.false_ne_true,
      skipChar_lowered, ih]

/-- A lexeme starts in the same column, one line further down. -/
theorem OnLine.lexeme_lowered (h : OnLine text opened read' cur) (hrest : cur.rest = read ++ rest)
    (kind : Kind) :
    Token.Lowered (byteLength text + bytes ≤ maxPosition) (cur.lexeme kind read).token
      ((cur.lowered bytes).lexeme kind read).token := by
  have hstart : cur.lineStart ≤ cur.offset := by
    rw [h.lineStart, h.offset]
    exact Nat.le_add_right _ _
  have hend : cur.offset + byteLength read ≤ byteLength text := by
    rw [h.text_eq, hrest, h.offset]
    simp only [byteLength_append]
    omega
  have hstart' : (cur.lowered bytes).lineStart ≤ (cur.lowered bytes).offset :=
    Nat.add_le_add_right hstart bytes
  have hplace : (cur.lowered bytes).offset - (cur.lowered bytes).lineStart =
      cur.offset - cur.lineStart := Nat.add_sub_add_right _ _ _
  refine ⟨?_, ?_, ?_⟩
  · show ((cur.lowered bytes).lexeme kind read).kind = (cur.lexeme kind read).kind
    rw [kind_lexeme, kind_lexeme]
  · show ((cur.lowered bytes).lexeme kind read).line = ((cur.lexeme kind read).line + 1) % 2 ^ 32
    rw [line_lexeme, line_lexeme]
    exact UInt32.toNat_add cur.line 1
  · have hoffset : (cur.lowered bytes).offset = cur.offset + bytes := rfl
    by_cases hfits : cur.offset + bytes + byteLength read ≤ maxPosition
    · rw [token_lexeme hstart (by omega), token_lexeme hstart' (by omega), hplace]
      exact Or.inl ⟨rfl, rfl⟩
    · rw [token_lexeme_of_lt (by omega)]
      exact Or.inr ⟨by omega, rfl, rfl⟩

theorem bare_lowered (fits : Prop) (kind : Kind) (cur : Cursor) :
    Token.Lowered fits (cur.bare kind).token ((cur.lowered bytes).bare kind).token :=
  ⟨rfl, UInt32.toNat_add cur.line 1, Or.inl ⟨rfl, rfl⟩⟩

end Cursor

namespace Lexer

variable {lx : Lexer} {fits : Prop}

/-- A lexer one line and so many bytes further down, in another text. -/
def lowered (below : List Char) (bytes : Nat) (lx : Lexer) : Lexer :=
  lx.onto below (lx.cursor.lowered bytes)

theorem advance_lowered (read : List Char) (lx : Lexer) :
    (lx.lowered below bytes).advance read = (lx.advance read).lowered below bytes :=
  congrArg (lx.onto below) (Cursor.advance_lowered read lx.cursor)

theorem skipLayout_lowered (lx : Lexer) :
    (lx.lowered below bytes).skipLayout = lx.skipLayout.lowered below bytes :=
  advance_lowered _ lx

theorem startLine_lowered (blank : Bool) (lx : Lexer) :
    (lx.lowered below bytes).startLine blank = (lx.startLine blank).lowered below bytes := by
  unfold startLine
  rw [skipLayout_lowered]
  rfl

theorem readBreak_lowered (br : List Char) (lx : Lexer) :
    (lx.lowered below bytes).readBreak br = (lx.readBreak br).lowered below bytes := by
  unfold readBreak
  rw [advance_lowered]
  rfl

theorem endCode_lowered (br : List Char) (lx : Lexer) :
    (lx.lowered below bytes).endCode br = (lx.endCode br).lowered below bytes := by
  have hcursor : (lx.lowered below bytes).cursor = lx.cursor.lowered bytes := rfl
  unfold endCode
  rw [hcursor, Cursor.skip_lowered]
  rfl

theorem leaveLine_lowered (lx : Lexer) :
    (lx.lowered below bytes).leaveLine = lx.leaveLine.lowered below bytes := by
  have hended : (lx.lowered below bytes).lineEnded = lx.lineEnded := rfl
  unfold leaveLine
  rw [hended]
  split <;> rfl

theorem afterPragma_lowered (lx : Lexer) :
    (lx.lowered below bytes).afterPragma = lx.afterPragma.lowered below bytes := by
  have hrest : (lx.lowered below bytes).cursor.rest = lx.cursor.rest := rfl
  have hblank : (lx.lowered below bytes).blankLine = lx.blankLine := rfl
  unfold afterPragma
  rw [hrest, hblank]
  split
  · split
    · exact readBreak_lowered _ lx
    · rfl
  · rfl

theorem applyIndent_lowered (m : Measure) (lx : Lexer) :
    (lx.lowered below bytes).applyIndent m =
      ((lx.applyIndent m).1, (lx.applyIndent m).2.lowered below bytes) := by
  rw [lowered, applyIndent_onto, lowered, (applyIndent_stays m lx).1]

theorem nest_lowered (kind : Kind) (lx : Lexer) :
    (lx.lowered below bytes).nest kind = (lx.nest kind).lowered below bytes := by
  rw [lowered, nest_onto, lowered, (nest_rest kind lx).1]

theorem classify_lowered (kind : Kind) (read rest : List Char) (lx : Lexer) :
    (lx.lowered below bytes).classify kind read rest =
      ((lx.classify kind read rest).1, (lx.classify kind read rest).2.lowered below bytes) := by
  rw [lowered, classify_onto kind read rfl, lowered, (classify_rest kind read rest lx).1]

/-- Lines are measured alike. -/
theorem measureLine_lowered (lx : Lexer) :
    (lx.lowered below bytes).measureLine =
      (lx.measureLine.1, lx.measureLine.2.lowered below bytes) := by
  refine measureLine_comm (fun blank => startLine_lowered blank lx) applyIndent_lowered rfl rfl ?_
  rw [skipLayout_lowered]
  rfl

theorem takeDue?_lowered (below : List Char) (bytes : Nat) (lx : Lexer) :
    (lx.OwesNothing ∧ (lx.lowered below bytes).OwesNothing) ∨
      ∃ kind ly, lx.takeDue? = some (lx.cursor.bare kind, ly) ∧
        (lx.lowered below bytes).takeDue? =
          some ((lx.cursor.lowered bytes).bare kind, ly.lowered below bytes) := by
  by_cases hdedents : 0 < lx.pendingDedents
  · exact Or.inr ⟨_, _, takeDue?_eq_dedent hdedents, takeDue?_eq_dedent hdedents⟩
  · by_cases hindent : lx.pendingIndent = true
    · exact Or.inr ⟨_, _, takeDue?_eq_indent hdedents hindent,
        takeDue?_eq_indent hdedents hindent⟩
    · have hnothing : lx.OwesNothing :=
        ⟨Nat.eq_zero_of_not_pos hdedents, eq_false_of_ne_true hindent⟩
      exact Or.inl ⟨hnothing, hnothing⟩

/-- What comes of a turn, and of the same turn one line further down. -/
inductive Outcome.Lowered (fits : Prop) : Outcome → Outcome → Prop
  | lexeme {x y : Lexeme} (h : Token.Lowered fits x.token y.token) :
      Lowered fits (.lexeme x) (.lexeme y)
  | nothing : Lowered fits .nothing .nothing
  | failed (e : LexError) : Lowered fits (.failed e) (.failed e)

/-- What a turn comes to, and what it comes to one line further down. -/
structure Lowers (below : List Char) (bytes : Nat) (fits : Prop) (r r' : Outcome × Lexer) :
    Prop where
  outcome : Outcome.Lowered fits r.1 r'.1
  after : r'.2 = r.2.lowered below bytes

theorem comment_lowers (h : Within text lx) :
    Lowers below bytes (byteLength text + bytes ≤ maxPosition) lx.comment
      (lx.lowered below bytes).comment := by
  have hrest : (lx.lowered below bytes).cursor.rest = lx.cursor.rest := rfl
  obtain ⟨rest, hsplit⟩ : ∃ rest, lx.cursor.rest =
      (lx.cursor.rest.takeWhile fun c => !isBreak c) ++ rest :=
    ⟨_, List.takeWhile_append_dropWhile.symm⟩
  rw [comment_eq, comment_eq, hrest]
  generalize lx.cursor.rest.takeWhile (fun c => !isBreak c) = body at hsplit
  cases htag : Pragma.tag? body with
  | none => exact ⟨.nothing, advance_lowered body lx⟩
  | some tag =>
    obtain ⟨front, _, rfl⟩ := Pragma.exists_front_of_tag? htag
    obtain ⟨opened, read, honLine, _⟩ := h.onLine
    rw [List.append_assoc] at hsplit
    have htail : (lx.cursor.skip front).rest = tag ++ rest := by
      rw [Cursor.rest_skip, hsplit, List.drop_left]
    have hskip : (lx.lowered below bytes).cursor.skip front =
        (lx.cursor.skip front).lowered bytes := Cursor.skip_lowered front lx.cursor
    dsimp only
    rw [List.length_append, Nat.add_sub_cancel_right, List.take_left, hskip, advance_lowered]
    exact ⟨.lexeme ((honLine.skip hsplit).lexeme_lowered htail .typeIgnore), afterPragma_lowered _⟩

theorem lineBreak_lowers (h : Within text lx) (br : List Char) :
    Lowers below bytes (byteLength text + bytes ≤ maxPosition) (lx.lineBreak br)
      ((lx.lowered below bytes).lineBreak br) := by
  obtain ⟨opened, read, honLine, _⟩ := h.onLine
  have hblank : (lx.lowered below bytes).blankLine = lx.blankLine := rfl
  have hnesting : (lx.lowered below bytes).nesting = lx.nesting := rfl
  rw [lineBreak_eq, lineBreak_eq, hblank, hnesting]
  split
  · exact ⟨.nothing, readBreak_lowered br lx⟩
  · have hnothing : lx.cursor.rest = [] ++ lx.cursor.rest := rfl
    exact ⟨.lexeme (honLine.lexeme_lowered hnothing .newline), endCode_lowered br lx⟩

theorem continuation_lowers (lx : Lexer) :
    Lowers below bytes fits lx.continuation (lx.lowered below bytes).continuation := by
  have hrest : ((lx.advance ['\\']).lowered below bytes).cursor.rest =
      (lx.advance ['\\']).cursor.rest := rfl
  unfold continuation
  dsimp only
  rw [advance_lowered, hrest]
  split
  · exact ⟨.failed _, rfl⟩
  · exact ⟨.failed _, advance_lowered _ _⟩
  · exact ⟨.nothing, advance_lowered _ _⟩

theorem readLiteral_lowers (h : Within text lx) {x : Literal.Stretch}
    (hscan : Literal.stretch? lx.cursor.rest = some x) :
    Lowers below bytes (byteLength text + bytes ≤ maxPosition) (lx.readLiteral x)
      ((lx.lowered below bytes).readLiteral x) := by
  obtain ⟨opened, read, honLine, _⟩ := h.onLine
  obtain ⟨rest, hrest⟩ := Literal.append_of_stretch? hscan
  unfold readLiteral
  rw [advance_lowered]
  split
  · exact ⟨.failed _, rfl⟩
  · exact ⟨.lexeme (honLine.lexeme_lowered hrest .literal), rfl⟩

theorem plain_lowers (h : Within text lx) (c : Char) :
    Lowers below bytes (byteLength text + bytes ≤ maxPosition) (lx.plain c lx.cursor.rest)
      ((lx.lowered below bytes).plain c lx.cursor.rest) := by
  obtain ⟨opened, read', honLine, _⟩ := h.onLine
  unfold plain
  cases hscan : Plain.scan? lx.cursor.rest with
  | none => exact ⟨.failed _, advance_lowered _ lx⟩
  | some found =>
    obtain ⟨kind, read, rest⟩ := found
    have hrest := (Plain.append_of_scan? hscan).symm
    dsimp only
    rw [advance_lowered, nest_lowered, classify_lowered]
    exact ⟨.lexeme (honLine.lexeme_lowered hrest _), rfl⟩

/-- Two lexers, one further down than the other, read alike where no indentation is due. -/
theorem body_lowers (h : Within text lx) :
    Lowers below bytes (byteLength text + bytes ≤ maxPosition) lx.body
      (lx.lowered below bytes).body := by
  have hskip := h.skipLayout
  have hlowered : (lx.lowered below bytes).skipLayout = lx.skipLayout.lowered below bytes :=
    skipLayout_lowered lx
  have hrest' : (lx.lowered below bytes).skipLayout.cursor.rest = lx.skipLayout.cursor.rest := by
    rw [hlowered]
    rfl
  cases hrest : lx.skipLayout.cursor.rest with
  | nil =>
    have hspent : lx.Spent := by rw [Spent, ← rest_skipLayout, hrest]
    have hspent' : (lx.lowered below bytes).Spent := hspent
    rw [body_of_spent hspent, body_of_spent hspent', hlowered]
    exact ⟨.lexeme (Cursor.bare_lowered _ _ _), rfl⟩
  | cons c rest =>
    rw [hrest] at hrest'
    by_cases hcomment : c = '#'
    · subst hcomment
      rw [body_of_comment hrest, body_of_comment hrest', hlowered]
      exact comment_lowers hskip
    · by_cases hescape : c = '\\'
      · subst hescape
        rw [body_of_continuation hrest, body_of_continuation hrest', hlowered]
        exact continuation_lowers _
      · have hsame : (lx.skipLayout.lowered below bytes).cursor.rest =
            lx.skipLayout.cursor.rest := rfl
        rw [body_of_code hrest hcomment hescape, body_of_code hrest' hcomment hescape, hlowered,
          hsame]
        split
        · exact lineBreak_lowers hskip _
        · split
          · next hscan => exact readLiteral_lowers hskip hscan
          · exact plain_lowers hskip c

/-- The lexers take the same turn. -/
theorem turn_lowers (h : Within text lx) (below : List Char) (bytes : Nat) :
    Lowers below bytes (byteLength text + bytes ≤ maxPosition) lx.turn
      (lx.lowered below bytes).turn := by
  rcases takeDue?_lowered below bytes lx with ⟨hdue, hdue'⟩ | ⟨kind, ly, hdue, hdue'⟩
  · have hline : (lx.lowered below bytes).atLineStart = lx.atLineStart := rfl
    cases hstart : lx.atLineStart with
    | false =>
      rw [turn_of_body hdue hstart, turn_of_body hdue' (hline.trans hstart)]
      exact body_lowers h
    | true =>
      have hwithin := h.measureLine
      rw [turn_of_measure hdue hstart, turn_of_measure hdue' (hline.trans hstart),
        measureLine_lowered]
      generalize lx.measureLine = measured at hwithin
      obtain ⟨e?, lz⟩ := measured
      cases e? with
      | some e => exact ⟨.failed e, rfl⟩
      | none =>
        dsimp only at hwithin ⊢
        rcases takeDue?_lowered below bytes lz with ⟨hnone, hnone'⟩ | ⟨kind, lw, hx, hy⟩
        · rw [takeDue?_eq_none_iff.2 hnone, takeDue?_eq_none_iff.2 hnone']
          exact body_lowers hwithin
        · rw [hx, hy]
          exact ⟨.lexeme (Cursor.bare_lowered _ _ _), rfl⟩
  · rw [turn_of_due hdue, turn_of_due hdue']
    exact ⟨.lexeme (Cursor.bare_lowered _ _ _), rfl⟩

/-- What comes of asking a lexer for a lexeme, and of asking the same one line further down. -/
inductive Answered (below : List Char) (bytes : Nat) (fits : Prop) :
    Except LexError Lexeme × Lexer → Except LexError Lexeme × Lexer → Prop
  | lexeme {x y : Lexeme} (lx : Lexer) (h : Token.Lowered fits x.token y.token) :
      Answered below bytes fits (.ok x, lx) (.ok y, lx.lowered below bytes)
  | failed (e : LexError) (lx : Lexer) :
      Answered below bytes fits (.error e, lx) (.error e, lx.lowered below bytes)

theorem scan_answered (h : Within text lx) :
    Answered below bytes (byteLength text + bytes ≤ maxPosition) lx.scan
      (lx.lowered below bytes).scan := by
  have hlowers := turn_lowers h below bytes
  have hleaves := turn_leaves h
  fun_induction Lexer.scan lx with
  | case1 lx x ly hturn =>
    rw [hturn] at hlowers
    cases hturn' : (lx.lowered below bytes).turn with
    | mk o lz =>
      rw [hturn'] at hlowers
      obtain ⟨houtcome, rfl⟩ := hlowers
      cases houtcome with
      | lexeme hxy =>
        rw [scan_of_lexeme hturn']
        exact .lexeme ly hxy
  | case2 lx e ly hturn =>
    rw [hturn] at hlowers
    cases hturn' : (lx.lowered below bytes).turn with
    | mk o lz =>
      rw [hturn'] at hlowers
      obtain ⟨houtcome, rfl⟩ := hlowers
      cases houtcome with
      | failed =>
        rw [scan_of_failed hturn']
        exact .failed e (ly.fail e)
  | case3 lx ly hturn _ ih =>
    rw [hturn] at hlowers hleaves
    cases hturn' : (lx.lowered below bytes).turn with
    | mk o lz =>
      rw [hturn'] at hlowers
      obtain ⟨houtcome, rfl⟩ := hlowers
      cases houtcome with
      | nothing =>
        cases hleaves with
        | within hly =>
          rw [scan_of_nothing hturn']
          exact ih hly (turn_lowers hly below bytes) (turn_leaves hly)

theorem next_answered (h : Viewed text lx) (below : List Char) (bytes : Nat) :
    Answered below bytes (byteLength text + bytes ≤ maxPosition) lx.next
      (lx.lowered below bytes).next := by
  have hstop : (lx.lowered below bytes).stop = lx.stop := rfl
  unfold next
  rw [hstop]
  split
  · exact .failed _ lx
  · rw [leaveLine_lowered]
    exact scan_answered h.leaveLine

/-- Up to its end or an error, a text gives the same tokens further down. -/
theorem drainFrom_lowered {lx : Lexer} (h : Viewed text lx) {ts us : List Token}
    (hread : List.Forall₂ (Token.Lowered (byteLength text + bytes ≤ maxPosition)) ts us) :
    List.Forall₂ (Token.Lowered (byteLength text + bytes ≤ maxPosition)) (drainFrom ts lx).1
        (drainFrom us (lx.lowered below bytes)).1 ∧
      (drainFrom us (lx.lowered below bytes)).2.1 = (drainFrom ts lx).2.1 := by
  have hanswered := next_answered h below bytes
  have hafter := h.next
  cases hnext : lx.next with
  | mk r ly =>
    cases hnext' : (lx.lowered below bytes).next with
    | mk r' lz =>
      rw [hnext] at hafter
      rw [hnext, hnext'] at hanswered
      cases hanswered with
      | failed e =>
        rw [drainFrom_of_error hnext, drainFrom_of_error hnext']
        exact ⟨List.forall₂_reverse_iff.2 hread, rfl⟩
      | @lexeme x y _ hxy =>
        have hkind : y.kind = x.kind := hxy.kind
        have hmore := List.Forall₂.cons hxy hread
        by_cases hend : x.kind = .endMarker
        · rw [drainFrom_of_end hnext hend, drainFrom_of_end hnext' (hkind.trans hend)]
          exact ⟨List.forall₂_reverse_iff.2 hmore, rfl⟩
        · have hlt := next_weight_lt hnext hend
          rw [drainFrom_of_token hnext hend, drainFrom_of_token hnext' (hkind ▸ hend)]
          exact drainFrom_lowered hafter hmore
termination_by lx.weight

end Lexer
end Offside
