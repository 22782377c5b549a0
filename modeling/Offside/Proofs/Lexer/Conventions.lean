import Mathlib.Data.List.Forall2
import Offside.Proofs.Lexer.Cursors
import Offside.Proofs.Lexer.LongComments
import Offside.Proofs.Lexer.RecodedScans
import Offside.Proofs.Lexer.Tokens
import Offside.Proofs.Lexer.Turns

/-!
Line breaks of one kind and of another. A lexer on a text whose lines end with line feeds, and one
on the same text with other line breaks, take the same turns, line by line and column by column.
They fail alike or hand out the same tokens, but for the line breaks within literals.
-/

namespace Offside

open Text

variable {br text : List Char} {size : Nat}

/-- A token, and the same token of the text with other line breaks. Only where a text is too long
for positions to be stored may a token have lost its column and its text. -/
structure Token.Recoded (br : List Char) (fits : Prop) (t u : Token) : Prop where
  kind : u.kind = t.kind
  line : u.line = t.line
  told : u.column? = t.column? ∧ u.text.toList = recode br t.text.toList ∨
    ¬fits ∧ u.column? = none ∧ u.text = ""

namespace Cursor

variable {cur cur' : Cursor} {read rest : List Char} {kind : Kind}

/-- Behind a line break a line starts. -/
theorem advance_lineBreak (h : lineBreak? cur.rest = some (read, rest)) :
    (cur.advance read).rest = rest ∧ (cur.advance read).line = cur.line + 1 ∧
      (cur.advance read).lineStart = (cur.advance read).offset := by
  refine ⟨?_, ?_, ?_⟩
  · rw [rest_advance, (lineBreak?_eq_some h).1, List.drop_left]
  · rw [← openLine_skip h]
    rcases (lineBreak?_eq_some h).2.2 with rfl | rfl | rfl <;> rfl
  · rw [← openLine_skip h]
    rfl

/-- Cursors at the same place of the same line, in a text and in the text with other line breaks,
which is no shorter up to there. Neither text has more than `size` bytes. -/
structure Recoded (br : List Char) (size : Nat) (cur cur' : Cursor) : Prop where
  clean : '\r' ∉ cur.rest
  rest : cur'.rest = recode br cur.rest
  line : cur'.line = cur.line
  place : ∃ n, cur.offset = cur.lineStart + n ∧ cur'.offset = cur'.lineStart + n
  offset_le : cur.offset ≤ cur'.offset
  fits : cur.offset + byteLength cur.rest ≤ size
  fits' : cur'.offset + byteLength cur'.rest ≤ size

namespace Recoded

theorem openLine (h : Recoded br size cur cur') : Recoded br size cur.openLine cur'.openLine where
  clean := h.clean
  rest := h.rest
  line := congrArg (· + 1) h.line
  place := ⟨0, rfl, rfl⟩
  offset_le := h.offset_le
  fits := h.fits
  fits' := h.fits'

theorem skipChar (h : Recoded br size cur cur') {c : Char} (hrest : cur.rest = c :: rest)
    (hc : c ≠ '\n') : Recoded br size (cur.skipChar c) (cur'.skipChar c) := by
  obtain ⟨hclean, hrest', hline, ⟨n, hplace, hplace'⟩, hoffset, hfits, hfits'⟩ := h
  rw [hrest, recode_cons hc] at hrest'
  rw [hrest] at hclean
  rw [hrest, byteLength_cons] at hfits
  rw [hrest', byteLength_cons] at hfits'
  have hdrop : (cur.skipChar c).rest = rest := by rw [Cursor.skipChar, hrest, List.drop_one]; rfl
  have hdrop' : (cur'.skipChar c).rest = recode br rest := by
    rw [Cursor.skipChar, hrest', List.drop_one]; rfl
  refine ⟨?_, ?_, hline, ⟨n + c.utf8Size, ?_, ?_⟩, ?_, ?_, ?_⟩
  · rw [hdrop]
    exact List.not_mem_of_not_mem_cons hclean
  · rw [hdrop, hdrop']
  · show cur.offset + c.utf8Size = cur.lineStart + (n + c.utf8Size)
    omega
  · show cur'.offset + c.utf8Size = cur'.lineStart + (n + c.utf8Size)
    omega
  · exact Nat.add_le_add_right hoffset _
  · rw [hdrop]
    show cur.offset + c.utf8Size + byteLength rest ≤ size
    omega
  · rw [hdrop']
    show cur'.offset + c.utf8Size + byteLength (recode br rest) ≤ size
    omega

theorem lineBreak? (hbr : IsReturn br) (h : Recoded br size cur cur') :
    Text.lineBreak? cur'.rest = (Text.lineBreak? cur.rest).map fun x => (br, recode br x.2) := by
  rw [h.rest, hbr.lineBreak?_recode h.clean]

/-- Over a line feed, and over the break in its place. -/
theorem nextLine (hbr : IsReturn br) (h : Recoded br size cur cur')
    (hrest : cur.rest = '\n' :: rest) :
    Recoded br size (cur.advance ['\n']) (cur'.advance br) := by
  have hbreak : Text.lineBreak? cur.rest = some (['\n'], rest) := by rw [hrest]; rfl
  have hbreak' : Text.lineBreak? cur'.rest = some (br, recode br rest) := by
    rw [h.lineBreak? hbr, hbreak]
    rfl
  obtain ⟨hdrop, hline, hstart⟩ := advance_lineBreak hbreak
  obtain ⟨hdrop', hline', hstart'⟩ := advance_lineBreak hbreak'
  have hfits := h.fits
  have hfits' := h.fits'
  rw [(lineBreak?_eq_some hbreak).1, byteLength_append] at hfits
  rw [(lineBreak?_eq_some hbreak').1, byteLength_append] at hfits'
  have hclean := h.clean
  rw [hrest] at hclean
  refine ⟨?_, ?_, ?_, ⟨0, hstart.symm, hstart'.symm⟩, ?_, ?_, ?_⟩
  · rw [hdrop]
    exact List.not_mem_of_not_mem_cons hclean
  · rw [hdrop, hdrop']
  · rw [hline, hline', h.line]
  · rw [offset_advance, offset_advance]
    have hlonger := hbr.byteLength_le ['\n']
    rw [recode_feed, recode_nil, List.append_nil] at hlonger
    exact Nat.add_le_add h.offset_le hlonger
  · rw [hdrop, offset_advance]
    omega
  · rw [hdrop', offset_advance]
    omega

/-- Cursors that move over the same lines stay at the same place. -/
theorem advance (hbr : IsReturn br) (h : Recoded br size cur cur')
    (hrest : cur.rest = read ++ rest) :
    Recoded br size (cur.advance read) (cur'.advance (recode br read)) := by
  induction read generalizing cur cur' with
  | nil =>
    rw [recode_nil, Cursor.advance, Cursor.advance]
    exact h
  | cons c read ih =>
    by_cases hc : c = '\n'
    · -- the line feed is a break of its own on either side, and no break is cut behind it
      subst hc
      have hbreak : Text.lineBreak? cur.rest = some (['\n'], read ++ rest) := by rw [hrest]; rfl
      have hwhole : ¬Splits ['\n'] read := by
        rintro ⟨hlast, _⟩
        cases hlast
      have hnext := ih (h.nextLine hbr hrest) (advance_lineBreak hbreak).1
      rw [← advance_append hwhole, ← advance_append (hbr.not_splits_recode br read)] at hnext
      exact hnext
    · have hreturn : c ≠ '\r' := by
        rintro rfl
        exact h.clean (hrest ▸ List.mem_cons_self)
      have hplain : isBreak c = false := by simp [isBreak, hc, hreturn]
      have hwhole : ∀ text, ¬Splits [c] text :=
        not_splits_of_unbroken (unbroken_cons.2 ⟨hplain, unbroken_nil⟩)
      have hnext := ih (h.skipChar hrest hc) (by rw [Cursor.skipChar, hrest]; rfl)
      rw [recode_cons hc, advance_cons (hwhole _), advance_cons (hwhole _), hplain,
        if_neg Bool.false_ne_true, if_neg Bool.false_ne_true]
      exact hnext

theorem advance_unbroken (hbr : IsReturn br) (h : Recoded br size cur cur') (hread : Unbroken read)
    (hrest : cur.rest = read ++ rest) :
    Recoded br size (cur.advance read) (cur'.advance read) := by
  have hadvance := h.advance hbr hrest
  rwa [recode_of_unbroken hread] at hadvance

/-- Lexemes that take up the same text, but for its line breaks. -/
theorem lexeme (hbr : IsReturn br) (h : Recoded br size cur cur')
    (hrest : cur.rest = read ++ rest) (kind : Kind) :
    Token.Recoded br (size ≤ maxPosition) (cur.lexeme kind read).token
      (cur'.lexeme kind (recode br read)).token := by
  obtain ⟨_, hrest', hline, ⟨n, hplace, hplace'⟩, hoffset, hfits, hfits'⟩ := h
  rw [hrest', hrest, recode_append, byteLength_append] at hfits'
  refine ⟨?_, ?_, ?_⟩
  · show (cur'.lexeme kind (recode br read)).kind = (cur.lexeme kind read).kind
    rw [kind_lexeme, kind_lexeme]
  · show (cur'.lexeme kind (recode br read)).line = (cur.lexeme kind read).line
    rw [line_lexeme, line_lexeme, hline]
  · by_cases hend' : cur'.offset + byteLength (recode br read) ≤ maxPosition
    · -- what is stored of the longer text is stored of the other
      have hend : cur.offset + byteLength read ≤ maxPosition :=
        Nat.le_trans (Nat.add_le_add hoffset (hbr.byteLength_le read)) hend'
      rw [token_lexeme (by omega) hend, token_lexeme (by omega) hend', hplace, hplace',
        Nat.add_sub_cancel_left, Nat.add_sub_cancel_left]
      refine Or.inl ⟨rfl, ?_⟩
      rw [String.toList_ofList, String.toList_ofList]
    · rw [token_lexeme_of_lt (Nat.not_le.1 hend')]
      exact Or.inr ⟨by omega, rfl, rfl⟩

theorem lexeme_unbroken (hbr : IsReturn br) (h : Recoded br size cur cur') (hread : Unbroken read)
    (hrest : cur.rest = read ++ rest) (kind : Kind) :
    Token.Recoded br (size ≤ maxPosition) (cur.lexeme kind read).token
      (cur'.lexeme kind read).token := by
  have hlexeme := h.lexeme hbr hrest kind
  rwa [recode_of_unbroken hread] at hlexeme

theorem bare (h : Recoded br size cur cur') (kind : Kind) :
    Token.Recoded br (size ≤ maxPosition) (cur.bare kind).token (cur'.bare kind).token :=
  ⟨rfl, congrArg UInt32.toNat h.line, Or.inl ⟨rfl, rfl⟩⟩

end Recoded

end Cursor

namespace Lexer

/-- Lexers at the same place of the same line, in a text and in the text with other line breaks. -/
inductive Recoded (br : List Char) (size : Nat) (lx : Lexer) : Lexer → Prop
  | mk (text : List Char) {cur : Cursor} (h : lx.cursor.Recoded br size cur) :
    Recoded br size lx (lx.onto text cur)

variable {lx ly : Lexer} {read rest : List Char}

namespace Recoded

theorem leaveLine (h : Recoded br size lx ly) : Recoded br size lx.leaveLine ly.leaveLine := by
  obtain ⟨text, h⟩ := h
  have hended : ∀ cur, (lx.onto text cur).lineEnded = lx.lineEnded := fun _ => rfl
  unfold Lexer.leaveLine
  rw [hended]
  split
  · exact .mk text h.openLine
  · exact .mk text h

theorem rest_eq (h : Recoded br size lx ly) : ly.cursor.rest = recode br lx.cursor.rest := by
  obtain ⟨text, h⟩ := h
  exact h.rest

theorem clean (h : Recoded br size lx ly) : '\r' ∉ lx.cursor.rest := by
  obtain ⟨text, h⟩ := h
  exact h.clean

theorem advance (hbr : IsReturn br) (h : Recoded br size lx ly)
    (hrest : lx.cursor.rest = read ++ rest) :
    Recoded br size (lx.advance read) (ly.advance (recode br read)) := by
  obtain ⟨text, h⟩ := h
  exact .mk text (h.advance hbr hrest)

theorem advance_unbroken (hbr : IsReturn br) (h : Recoded br size lx ly) (hread : Unbroken read)
    (hrest : lx.cursor.rest = read ++ rest) :
    Recoded br size (lx.advance read) (ly.advance read) := by
  obtain ⟨text, h⟩ := h
  exact .mk text (h.advance_unbroken hbr hread hrest)

theorem nextLine (hbr : IsReturn br) (h : Recoded br size lx ly)
    (hrest : lx.cursor.rest = '\n' :: rest) :
    Recoded br size (lx.advance ['\n']) (ly.advance br) := by
  obtain ⟨text, h⟩ := h
  exact .mk text (h.nextLine hbr hrest)

theorem lineBreak? (hbr : IsReturn br) (h : Recoded br size lx ly) :
    Text.lineBreak? ly.cursor.rest =
      (Text.lineBreak? lx.cursor.rest).map fun x => (br, recode br x.2) := by
  rw [h.rest_eq, hbr.lineBreak?_recode h.clean]

theorem readBreak (hbr : IsReturn br) (h : Recoded br size lx ly)
    (hrest : lx.cursor.rest = '\n' :: rest) :
    Recoded br size (lx.readBreak ['\n']) (ly.readBreak br) := by
  obtain ⟨text, h⟩ := h
  exact .mk text (h.nextLine hbr hrest)

/-- A line of code is left when the lexer goes on. -/
theorem endCode (hbr : IsReturn br) (h : Recoded br size lx ly)
    (hrest : lx.cursor.rest = '\n' :: rest) :
    Recoded br size (lx.endCode ['\n']).leaveLine (ly.endCode br).leaveLine := by
  obtain ⟨text, h⟩ := h
  have hbreak : Text.lineBreak? lx.cursor.rest = some (['\n'], rest) := by rw [hrest]; rfl
  have hbreak' := h.lineBreak? hbr
  rw [hbreak, Option.map_some] at hbreak'
  have hnext := h.nextLine hbr hrest
  rw [← Cursor.openLine_skip hbreak, ← Cursor.openLine_skip hbreak'] at hnext
  exact .mk text hnext

theorem blanks_eq (hbr : IsReturn br) (h : Recoded br size lx ly) :
    ly.cursor.rest.takeWhile isLayout = lx.cursor.rest.takeWhile isLayout := by
  rw [h.rest_eq, hbr.takeWhile_recode (by decide) (by decide)]

theorem skipLayout (hbr : IsReturn br) (h : Recoded br size lx ly) :
    Recoded br size lx.skipLayout ly.skipLayout := by
  rw [Lexer.skipLayout, Lexer.skipLayout, h.blanks_eq hbr]
  exact h.advance_unbroken hbr (unbroken_takeWhile (by decide) (by decide) _)
    List.takeWhile_append_dropWhile.symm

theorem startLine (hbr : IsReturn br) (h : Recoded br size lx ly) (blank : Bool) :
    Recoded br size (lx.startLine blank) (ly.startLine blank) := by
  have hskip := h.skipLayout hbr
  unfold Lexer.startLine
  generalize lx.skipLayout = lz at hskip
  generalize ly.skipLayout = lw at hskip
  obtain ⟨text, h⟩ := hskip
  exact .mk text h

theorem applyIndent (h : Recoded br size lx ly) (m : Measure) :
    (ly.applyIndent m).1 = (lx.applyIndent m).1 ∧
      Recoded br size (lx.applyIndent m).2 (ly.applyIndent m).2 := by
  obtain ⟨text, h⟩ := h
  rw [applyIndent_onto]
  refine ⟨rfl, .mk text ?_⟩
  rw [(applyIndent_stays m lx).1]
  exact h

end Recoded

/-- What a turn comes to on either text. -/
inductive Matches (br : List Char) (size : Nat) : Outcome × Lexer → Outcome × Lexer → Prop
  | lexeme {x y : Lexeme} {lx ly : Lexer}
      (hxy : Token.Recoded br (size ≤ maxPosition) x.token y.token)
      (h : Recoded br size lx.leaveLine ly.leaveLine) :
      Matches br size (.lexeme x, lx) (.lexeme y, ly)
  | nothing {lx ly : Lexer} (h : Recoded br size lx ly) :
      Matches br size (.nothing, lx) (.nothing, ly)
  | failed (e : LexError) (lx ly : Lexer) : Matches br size (.failed e, lx) (.failed e, ly)

theorem afterPragma_recoded (hbr : IsReturn br) (h : Recoded br size lx ly) :
    Recoded br size lx.afterPragma ly.afterPragma := by
  have hblank : ly.blankLine = lx.blankLine := by
    obtain ⟨text, _⟩ := h
    rfl
  unfold afterPragma
  rw [h.lineBreak? hbr, hblank]
  cases hfound : lineBreak? lx.cursor.rest with
  | none => exact h
  | some found =>
    obtain ⟨br', rest⟩ := found
    obtain ⟨rfl, hrest⟩ := eq_feed_of_lineBreak? h.clean hfound
    dsimp only [Option.map_some]
    split
    · exact h.readBreak hbr hrest
    · exact h

theorem comment_matches (hbr : IsReturn br) (h : Recoded br size lx ly) :
    Matches br size lx.comment ly.comment := by
  have hbody : (ly.cursor.rest.takeWhile fun c => !isBreak c) =
      lx.cursor.rest.takeWhile fun c => !isBreak c := by
    rw [h.rest_eq, hbr.takeWhile_recode (by decide) (by decide)]
  have hunbroken : Unbroken (lx.cursor.rest.takeWhile fun c => !isBreak c) :=
    unbroken_takeWhile (by decide) (by decide) _
  obtain ⟨rest, hrest⟩ : ∃ rest, lx.cursor.rest =
      (lx.cursor.rest.takeWhile fun c => !isBreak c) ++ rest :=
    ⟨_, List.takeWhile_append_dropWhile.symm⟩
  rw [comment_eq, comment_eq, hbody]
  generalize lx.cursor.rest.takeWhile (fun c => !isBreak c) = body at hunbroken hrest
  have hafter := h.advance_unbroken hbr hunbroken hrest
  cases htag : Pragma.tag? body with
  | none => exact .nothing hafter
  | some tag =>
    obtain ⟨front, _, rfl⟩ := Pragma.exists_front_of_tag? htag
    obtain ⟨hfront, htag'⟩ := unbroken_append.1 hunbroken
    rw [List.append_assoc] at hrest
    dsimp only
    rw [List.length_append, Nat.add_sub_cancel_right, List.take_left]
    refine .lexeme ?_ (afterPragma_recoded hbr hafter).leaveLine
    obtain ⟨text, h⟩ := h
    have hskip := h.advance_unbroken hbr hfront hrest
    have htail : (lx.cursor.skip front).rest = tag ++ rest := by
      rw [Cursor.rest_skip, hrest, List.drop_left]
    rw [Cursor.advance_of_unbroken hfront, Cursor.advance_of_unbroken hfront] at hskip
    exact hskip.lexeme_unbroken hbr htag' htail .typeIgnore

theorem lineBreak_matches (hbr : IsReturn br) (h : Recoded br size lx ly)
    (hrest : lx.cursor.rest = '\n' :: rest) :
    Matches br size (lx.lineBreak ['\n']) (ly.lineBreak br) := by
  have hbreak := h.readBreak hbr hrest
  have hcode := h.endCode hbr hrest
  obtain ⟨text, h⟩ := h
  have hblank : ∀ cur, (lx.onto text cur).blankLine = lx.blankLine := fun _ => rfl
  have hnesting : ∀ cur, (lx.onto text cur).nesting = lx.nesting := fun _ => rfl
  rw [lineBreak_eq, lineBreak_eq, hblank, hnesting]
  split
  · exact .nothing hbreak
  · exact .lexeme (h.lexeme_unbroken hbr unbroken_nil rfl .newline) hcode

theorem continuation_matches (hbr : IsReturn br) (h : Recoded br size lx ly)
    (hrest : lx.cursor.rest = '\\' :: rest) :
    Matches br size lx.continuation ly.continuation := by
  have hafter : Recoded br size (lx.advance ['\\']) (ly.advance ['\\']) :=
    h.advance_unbroken hbr (by decide) hrest
  unfold continuation
  dsimp only
  rw [hafter.lineBreak? hbr]
  cases hfound : lineBreak? (lx.advance ['\\']).cursor.rest with
  | none => exact .failed _ _ _
  | some found =>
    obtain ⟨br', left⟩ := found
    obtain ⟨rfl, hleft⟩ := eq_feed_of_lineBreak? hafter.clean hfound
    have hnext := hafter.nextLine hbr hleft
    cases left with
    | nil => exact .failed _ _ _
    | cons c left =>
      obtain ⟨d, left', hhead, _⟩ := hbr.exists_cons_recode c left
      rw [Option.map_some, hhead]
      exact .nothing hnext

theorem readLiteral_matches (hbr : IsReturn br) (h : Recoded br size lx ly) {x : Literal.Stretch}
    (hscan : Literal.stretch? lx.cursor.rest = some x) :
    Matches br size (lx.readLiteral x) (ly.readLiteral (x.recode br)) := by
  obtain ⟨read, error?⟩ := x
  obtain ⟨rest, hrest⟩ := Literal.append_of_stretch? hscan
  cases error? with
  | some e => exact .failed e _ _
  | none =>
    have hafter := (h.advance hbr hrest).leaveLine
    obtain ⟨text, h⟩ := h
    exact .lexeme (h.lexeme hbr hrest .literal) hafter

theorem plain_matches (hbr : IsReturn br) (h : Recoded br size lx ly) (c d : Char) :
    Matches br size (lx.plain c lx.cursor.rest) (ly.plain d ly.cursor.rest) := by
  have hclean := h.clean
  unfold plain
  rw [h.rest_eq, Plain.scan?_recode hbr hclean]
  cases hscan : Plain.scan? lx.cursor.rest with
  | none => exact .failed _ _ _
  | some found =>
    obtain ⟨kind, read, rest⟩ := found
    have hrest := (Plain.append_of_scan? hscan).symm
    have hread := (Plain.plain_of_scan? hscan).2
    rw [hrest, List.mem_append, not_or] at hclean
    obtain ⟨text, h⟩ := h
    have hafter := h.advance_unbroken hbr hread hrest
    have hclassify : ∀ cur, (((lx.onto text cur).advance read).nest kind).classify kind read
        (recode br rest) =
          ((((lx.advance read).nest kind).classify kind read rest).1,
            (((lx.advance read).nest kind).classify kind read rest).2.onto text
              (cur.advance read)) := by
      intro cur
      rw [← classify_onto kind read (definitionFollows_recode hbr hclean.2), ← nest_onto]
      rfl
    have hcursor : (((lx.advance read).nest kind).classify kind read rest).2.cursor =
        lx.cursor.advance read :=
      (classify_rest kind read rest _).1.trans (nest_rest kind _).1
    dsimp only [Option.map_some]
    rw [hclassify]
    refine .lexeme (h.lexeme_unbroken hbr hread hrest _) (Recoded.leaveLine (.mk text ?_))
    rw [hcursor]
    exact hafter

theorem endOfInput_matches (h : Recoded br size lx ly) :
    Matches br size lx.endOfInput ly.endOfInput := by
  obtain ⟨text, h⟩ := h
  exact .lexeme (h.bare .endMarker) (Recoded.leaveLine (.mk text h))

/-- Two lexers read alike where no indentation is due. -/
theorem body_matches (hbr : IsReturn br) (h : Recoded br size lx ly) :
    Matches br size lx.body ly.body := by
  have hskip := h.skipLayout hbr
  cases hrest : lx.skipLayout.cursor.rest with
  | nil =>
    have hrest' : ly.skipLayout.cursor.rest = [] := by rw [hskip.rest_eq, hrest, recode_nil]
    have hspent : lx.Spent := by rw [Spent, ← rest_skipLayout, hrest]
    have hspent' : ly.Spent := by rw [Spent, ← rest_skipLayout, hrest']
    rw [body_of_spent hspent, body_of_spent hspent']
    exact endOfInput_matches hskip
  | cons c rest =>
    have hrest' : ly.skipLayout.cursor.rest = recode br (c :: rest) := by rw [hskip.rest_eq, hrest]
    by_cases hcomment : c = '#'
    · subst hcomment
      rw [recode_cons (by decide)] at hrest'
      rw [body_of_comment hrest, body_of_comment hrest']
      exact comment_matches hbr hskip
    · by_cases hescape : c = '\\'
      · subst hescape
        rw [recode_cons (by decide)] at hrest'
        rw [body_of_continuation hrest, body_of_continuation hrest']
        exact continuation_matches hbr hskip hrest
      · obtain ⟨d, rest', hhead, hfirst⟩ := hbr.exists_cons_recode c rest
        rw [hhead] at hrest'
        have hplain : d ≠ '#' ∧ d ≠ '\\' := by
          rcases hfirst with ⟨_, rfl⟩ | rfl
          · decide
          · exact ⟨hcomment, hescape⟩
        rw [body_of_code hrest hcomment hescape, body_of_code hrest' hplain.1 hplain.2,
          hskip.lineBreak? hbr]
        cases hfound : lineBreak? lx.skipLayout.cursor.rest with
        | some found =>
          obtain ⟨br', left⟩ := found
          obtain ⟨rfl, hleft⟩ := eq_feed_of_lineBreak? hskip.clean hfound
          exact lineBreak_matches hbr hskip hleft
        | none =>
          dsimp only [Option.map_none]
          rw [hskip.rest_eq, Literal.stretch?_recode hbr hskip.clean]
          cases hscan : Literal.stretch? lx.skipLayout.cursor.rest with
          | some x => exact readLiteral_matches hbr hskip hscan
          | none =>
            have hmatches := plain_matches hbr hskip c d
            rw [hskip.rest_eq] at hmatches
            exact hmatches

/-- Lines are measured alike. -/
theorem measureLine_recoded (hbr : IsReturn br) (h : Recoded br size lx ly) :
    ly.measureLine.1 = lx.measureLine.1 ∧ Recoded br size lx.measureLine.2 ly.measureLine.2 := by
  have hblanks := h.blanks_eq hbr
  have hskip := h.skipLayout hbr
  have hstart := h.startLine hbr
  have hnesting : ly.nesting = lx.nesting := by
    obtain ⟨text, _⟩ := h
    rfl
  cases hrest : lx.skipLayout.cursor.rest with
  | nil =>
    have hrest' : ly.skipLayout.cursor.rest = [] := by rw [hskip.rest_eq, hrest, recode_nil]
    have hspent : lx.Spent := by rw [Spent, ← rest_skipLayout, hrest]
    have hspent' : ly.Spent := by rw [Spent, ← rest_skipLayout, hrest']
    rw [measureLine_of_spent hspent, measureLine_of_spent hspent', hnesting]
    split
    · exact ⟨rfl, hstart false⟩
    · exact (hstart false).applyIndent _
  | cons c rest =>
    obtain ⟨d, rest', hhead, hfirst⟩ := hbr.exists_cons_recode c rest
    have hrest' : ly.skipLayout.cursor.rest = d :: rest' := by rw [hskip.rest_eq, hrest, hhead]
    have hcode : (d == '#' || isBreak d) = (c == '#' || isBreak c) := by
      rcases hfirst with ⟨rfl, rfl⟩ | rfl <;> rfl
    rw [measureLine_of_code hrest, measureLine_of_code hrest', hcode, hnesting, hblanks]
    split
    · exact ⟨rfl, hstart _⟩
    · exact (hstart _).applyIndent _

/-- Either lexer owes the same indent or dedent, or none. -/
theorem due_matches (h : Recoded br size lx ly) :
    (lx.OwesNothing ∧ ly.OwesNothing) ∨ ∃ x lz y lw, lx.takeDue? = some (x, lz) ∧
      ly.takeDue? = some (y, lw) ∧ Matches br size (.lexeme x, lz) (.lexeme y, lw) := by
  obtain ⟨text, h⟩ := h
  by_cases hdedents : 0 < lx.pendingDedents
  · exact Or.inr ⟨_, _, _, _, takeDue?_eq_dedent hdedents, takeDue?_eq_dedent hdedents,
      .lexeme (h.bare .dedent) (Recoded.leaveLine (.mk text h))⟩
  · by_cases hindent : lx.pendingIndent = true
    · exact Or.inr ⟨_, _, _, _, takeDue?_eq_indent hdedents hindent,
        takeDue?_eq_indent hdedents hindent,
        .lexeme (h.bare .indent) (Recoded.leaveLine (.mk text h))⟩
    · have hnothing : lx.OwesNothing :=
        ⟨Nat.eq_zero_of_not_pos hdedents, eq_false_of_ne_true hindent⟩
      exact Or.inl ⟨hnothing, hnothing⟩

/-- The lexers take the same turn. -/
theorem turn_matches (hbr : IsReturn br) (h : Recoded br size lx ly) :
    Matches br size lx.turn ly.turn := by
  rcases due_matches h with ⟨hdue, hdue'⟩ | ⟨x, lz, y, lw, hx, hy, hmatches⟩
  · have hline : ly.atLineStart = lx.atLineStart := by
      obtain ⟨text, _⟩ := h
      rfl
    cases hstart : lx.atLineStart with
    | false =>
      rw [turn_of_body hdue hstart, turn_of_body hdue' (hline.trans hstart)]
      exact body_matches hbr h
    | true =>
      obtain ⟨herror, hmeasured⟩ := measureLine_recoded hbr h
      rw [turn_of_measure hdue hstart, turn_of_measure hdue' (hline.trans hstart)]
      generalize lx.measureLine = measured at herror hmeasured
      generalize ly.measureLine = measured' at herror hmeasured
      obtain ⟨e?, lz⟩ := measured
      obtain ⟨e?', lw⟩ := measured'
      obtain rfl : e?' = e? := herror
      cases e?' with
      | some e => exact .failed e _ _
      | none =>
        rcases due_matches hmeasured with ⟨hnone, hnone'⟩ | ⟨x, lz', y, lw', hx, hy, hmatches⟩
        · dsimp only
          rw [takeDue?_eq_none_iff.2 hnone, takeDue?_eq_none_iff.2 hnone']
          exact body_matches hbr hmeasured
        · dsimp only
          rw [hx, hy]
          exact hmatches
  · rw [turn_of_due hx, turn_of_due hy]
    exact hmatches

/-- What comes of asking either lexer for a lexeme. -/
inductive Agrees (br : List Char) (size : Nat) :
    Except LexError Lexeme × Lexer → Except LexError Lexeme × Lexer → Prop
  | lexeme {x y : Lexeme} {lx ly : Lexer}
      (hxy : Token.Recoded br (size ≤ maxPosition) x.token y.token)
      (h : Recoded br size lx.leaveLine ly.leaveLine) : Agrees br size (.ok x, lx) (.ok y, ly)
  | failed (e : LexError) (lx ly : Lexer) : Agrees br size (.error e, lx) (.error e, ly)

theorem scan_agrees {lx ly : Lexer} (hbr : IsReturn br) (h : Recoded br size lx ly) :
    Agrees br size lx.scan ly.scan := by
  have hmatches := turn_matches hbr h
  cases hturn : lx.turn with
  | mk o lz =>
    cases hturn' : ly.turn with
    | mk o' lw =>
      rw [hturn, hturn'] at hmatches
      cases hmatches with
      | lexeme hxy hafter =>
        rw [scan_of_lexeme hturn, scan_of_lexeme hturn']
        exact .lexeme hxy hafter
      | nothing hafter =>
        have hlt := turn_weight_lt hturn trivial
        rw [scan_of_nothing hturn, scan_of_nothing hturn']
        exact scan_agrees hbr hafter
      | failed e =>
        rw [scan_of_failed hturn, scan_of_failed hturn']
        exact .failed e _ _
termination_by lx.weight

theorem next_agrees (hbr : IsReturn br) (h : Recoded br size lx.leaveLine ly.leaveLine) :
    Agrees br size lx.next ly.next := by
  have hstop : ly.stop = lx.stop := by
    rw [← stop_leaveLine lx, ← stop_leaveLine ly]
    generalize lx.leaveLine = lz at h
    generalize ly.leaveLine = lw at h
    obtain ⟨text, _⟩ := h
    rfl
  unfold next
  rw [hstop]
  split
  · exact .failed _ _ _
  · exact scan_agrees hbr h

/-- Up to its end or an error, either text gives the same tokens but for line breaks. -/
theorem drainFrom_recoded {lx ly : Lexer} (hbr : IsReturn br)
    (h : Recoded br size lx.leaveLine ly.leaveLine) {ts us : List Token}
    (hread : List.Forall₂ (Token.Recoded br (size ≤ maxPosition)) ts us) :
    List.Forall₂ (Token.Recoded br (size ≤ maxPosition)) (drainFrom ts lx).1 (drainFrom us ly).1 ∧
      (drainFrom us ly).2.1 = (drainFrom ts lx).2.1 := by
  have hagrees := next_agrees hbr h
  cases hnext : lx.next with
  | mk r lz =>
    cases hnext' : ly.next with
    | mk r' lw =>
      rw [hnext, hnext'] at hagrees
      cases hagrees with
      | failed e =>
        rw [drainFrom_of_error hnext, drainFrom_of_error hnext']
        exact ⟨List.forall₂_reverse_iff.2 hread, rfl⟩
      | @lexeme x y _ _ hxy hafter =>
        have hkind : y.kind = x.kind := hxy.kind
        have hmore := List.Forall₂.cons hxy hread
        by_cases hend : x.kind = .endMarker
        · rw [drainFrom_of_end hnext hend, drainFrom_of_end hnext' (hkind.trans hend)]
          exact ⟨List.forall₂_reverse_iff.2 hmore, rfl⟩
        · have hlt := next_weight_lt hnext hend
          rw [drainFrom_of_token hnext hend, drainFrom_of_token hnext' (hkind ▸ hend)]
          exact drainFrom_recoded hbr hafter hmore
termination_by lx.weight

theorem recoded_start (asyncAlways : Bool) (encoding? : Option String) (hbr : IsReturn br)
    (hclean : '\r' ∉ text) :
    Recoded br (byteLength (recode br text)) (ofSource asyncAlways ⟨text, encoding?⟩)
      (ofSource asyncAlways ⟨recode br text, encoding?⟩) := by
  have hstart : Cursor.Recoded br (byteLength (recode br text)) (Cursor.start text)
      (Cursor.start (recode br text)) := by
    refine ⟨hclean, rfl, rfl, ⟨0, rfl, rfl⟩, Nat.le_refl _, ?_, ?_⟩
    · exact Nat.le_trans (Nat.le_of_eq (Nat.zero_add _)) (hbr.byteLength_le text)
    · exact Nat.le_of_eq (Nat.zero_add _)
  exact .mk (recode br text) hstart

/-- What the line breaks of a text are makes no difference. With another line break in the place of
every line feed, a text is tokenized to the same error, or to as many tokens, each of the same kind,
on the same line, in the same column, and with the same text but for its line breaks. Only in a text
that with the other line breaks is past 4 GiB may a token stand behind the largest position, and
have lost its column and its text. -/
theorem tokens_recode (asyncAlways : Bool) (encoding? : Option String) (hbr : IsReturn br)
    (hclean : '\r' ∉ text) :
    (∃ e, (ofSource asyncAlways ⟨text, encoding?⟩).tokens.1 = .error e ∧
        (ofSource asyncAlways ⟨recode br text, encoding?⟩).tokens.1 = .error e) ∨
      ∃ ts us, (ofSource asyncAlways ⟨text, encoding?⟩).tokens.1 = .ok ts ∧
        (ofSource asyncAlways ⟨recode br text, encoding?⟩).tokens.1 = .ok us ∧
        List.Forall₂ (Token.Recoded br (byteLength (recode br text) ≤ maxPosition)) ts us := by
  have hstart := (recoded_start asyncAlways encoding? hbr hclean).leaveLine
  obtain ⟨htokens, herror⟩ := drainFrom_recoded hbr hstart .nil
  unfold tokens drain
  generalize drainFrom [] (ofSource asyncAlways ⟨text, encoding?⟩) = r at htokens herror
  generalize drainFrom [] (ofSource asyncAlways ⟨recode br text, encoding?⟩) = r' at htokens herror
  obtain ⟨ts, e?, lx⟩ := r
  obtain ⟨us, e?', ly⟩ := r'
  obtain rfl : e?' = e? := herror
  cases e?' with
  | some e => exact Or.inl ⟨e, rfl, rfl⟩
  | none => exact Or.inr ⟨ts, us, rfl, rfl, htokens⟩

/-- A literal over two lines in a block. -/
theorem tokens_recode_block :
    ∃ us, (ofSource false ⟨recode ['\r', '\n'] "x\n '''\n'''\n".toList, none⟩).tokens.1 = .ok us ∧
      List.Forall₂ (Token.Recoded ['\r', '\n'] True)
        [⟨.word, "x", 1, some 0⟩, ⟨.newline, "", 1, some 1⟩, ⟨.indent, "", 2, none⟩,
          ⟨.literal, "'''\n'''", 2, some 1⟩, ⟨.newline, "", 3, some 3⟩, ⟨.dedent, "", 4, none⟩,
          ⟨.endMarker, "", 4, none⟩] us := by
  have h : (ofSource false ⟨"x\n '''\n'''\n".toList, none⟩).tokens.1 =
      .ok [⟨.word, "x", 1, some 0⟩, ⟨.newline, "", 1, some 1⟩, ⟨.indent, "", 2, none⟩,
        ⟨.literal, "'''\n'''", 2, some 1⟩, ⟨.newline, "", 3, some 3⟩, ⟨.dedent, "", 4, none⟩,
        ⟨.endMarker, "", 4, none⟩] := by decide +kernel
  have hfits : (byteLength (recode ['\r', '\n'] "x\n '''\n'''\n".toList) ≤ maxPosition) = True :=
    eq_true (by decide)
  have hsame := tokens_recode false none (show IsReturn ['\r', '\n'] by decide)
    (show '\r' ∉ "x\n '''\n'''\n".toList by decide)
  rw [h, hfits] at hsame
  rcases hsame with ⟨e, herror, _⟩ | ⟨ts, us, hts, hus, hall⟩
  · cases herror
  · cases hts
    exact ⟨us, hus, hall⟩

/-- A word that ends at the largest position is told. With two bytes for each line break it ends one
byte further on, and has lost its column and its text. -/
theorem tokens_recode_past_positions :
    '\r' ∉ longComment 2147483646 ++ ['\n', 'x', '\n'] ∧
      Source.decode .cookie (some "latin-1")
        (0x23 :: (List.replicate 2147483646 0xE9 ++ [13, 10, 0x78, 13, 10])) =
          .ok ⟨recode ['\r', '\n'] (longComment 2147483646 ++ ['\n', 'x', '\n']),
            some "iso-8859-1"⟩ ∧
      (ofSource false ⟨longComment 2147483646 ++ ['\n', 'x', '\n'],
        some "iso-8859-1"⟩).tokens.1 =
          .ok [⟨.word, "x", 2, some 0⟩, ⟨.newline, "", 2, some 1⟩, ⟨.endMarker, "", 3, none⟩] ∧
      (ofSource false ⟨recode ['\r', '\n'] (longComment 2147483646 ++ ['\n', 'x', '\n']),
        some "iso-8859-1"⟩).tokens.1 =
          .ok [⟨.word, "", 2, none⟩, ⟨.newline, "", 2, none⟩, ⟨.endMarker, "", 3, none⟩] := by
  have hrecode : recode ['\r', '\n'] (longComment 2147483646 ++ ['\n', 'x', '\n']) =
      longComment 2147483646 ++ (['\r', '\n'] ++ (['x'] ++ ['\r', '\n'])) := by
    rw [recode_append, recode_of_unbroken (unbroken_longComment _), recode_feed]
    rfl
  have hclean : ∀ n, '\r' ∉ longComment n ++ ['\n', 'x', '\n'] := by
    intro n hmem
    rcases List.mem_append.1 hmem with hmem | hmem
    · exact absurd (unbroken_longComment n _ hmem) (by decide)
    · exact absurd hmem (by decide)
  rw [hrecode]
  refine ⟨hclean _, Source.decode_longComment (by decide) (by decide), ?_, ?_⟩
  · have hword : (ofSource false ⟨longComment 2147483646 ++ (['\n'] ++ (['x'] ++ ['\n'])),
        some "iso-8859-1"⟩).tokens.1 = .ok _ :=
      tokens_longComment rfl (Or.inl rfl) rfl (by decide) rfl
    refine hword.trans ?_
    rw [Cursor.token_lexeme (by decide) (by decide), Cursor.token_lexeme (by decide) (by decide)]
    rfl
  · exact tokens_longComment_of_le rfl (Or.inr rfl) rfl (by decide) (by decide) (by decide) rfl

end Lexer
end Offside
