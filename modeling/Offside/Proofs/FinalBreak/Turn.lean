import Offside.Proofs.FinalBreak.Debt
import Offside.Proofs.FinalBreak.Scanners

/-!
One turn of two lexers, whose texts differ in a final line feed. Until the end is in sight they
do the same. There the line feed can end a line of code, which is the one difference in the
tokens, or give nothing, unless a comment that stands alone on its line comes last in a block.
-/

namespace Offside

open Text

namespace Text

theorem lineBreak?_concat {text : List Char} (hne : text ≠ []) (hreturn : text ≠ ['\r']) :
    lineBreak? (text ++ ['\n']) = (lineBreak? text).map (Plain.thenMore ['\n']) := by
  match text with
  | [] => exact absurd rfl hne
  | [c] =>
    by_cases hr : c = '\r'
    · exact absurd (by rw [hr]) hreturn
    · by_cases hn : c = '\n'
      · subst hn; rfl
      · simp [lineBreak?, hr, hn]
  | c :: d :: rest =>
    by_cases hr : c = '\r'
    · subst hr
      by_cases hn : d = '\n'
      · subst hn; rfl
      · simp [lineBreak?, hn, Plain.thenMore]
    · by_cases hn : c = '\n'
      · subst hn; rfl
      · simp [lineBreak?, hr, hn]

end Text

namespace Cursor

/-- The cursor at the same place of a text with one more line feed. -/
def endLine (cur : Cursor) : Cursor :=
  { cur with rest := cur.rest ++ ['\n'], lineText := cur.lineText ++ ['\n'] }

@[simp] theorem rest_endLine (cur : Cursor) : cur.endLine.rest = cur.rest ++ ['\n'] := rfl

@[simp] theorem lexeme_endLine (kind : Kind) (read : List Char) (cur : Cursor) :
    cur.endLine.lexeme kind read = cur.lexeme kind read := rfl

@[simp] theorem bare_endLine (kind : Kind) (cur : Cursor) :
    cur.endLine.bare kind = cur.bare kind := rfl

@[simp] theorem openLine_endLine (cur : Cursor) : cur.endLine.openLine = cur.openLine.endLine := rfl

theorem skipChar_endLine (c : Char) {cur : Cursor} (h : cur.rest ≠ []) :
    cur.endLine.skipChar c = (cur.skipChar c).endLine := by
  obtain ⟨d, rest, hrest⟩ := List.exists_cons_of_ne_nil h
  simp [skipChar, endLine, hrest]

theorem skip_endLine {read : List Char} {cur : Cursor} (h : read.length ≤ cur.rest.length) :
    cur.endLine.skip read = (cur.skip read).endLine := by
  induction read generalizing cur with
  | nil => rfl
  | cons c read ih =>
    rw [List.length_cons] at h
    have hne : cur.rest ≠ [] := by
      rw [← List.length_pos_iff]
      omega
    rw [skip_cons, skip_cons, skipChar_endLine c hne]
    refine ih ?_
    simp only [skipChar, List.length_drop]
    omega

theorem advance_endLine {read : List Char} {cur : Cursor} (h : read.length ≤ cur.rest.length) :
    cur.endLine.advance read = (cur.advance read).endLine := by
  have hne : ∀ {n : Nat} {cur : Cursor}, n + 1 ≤ cur.rest.length → cur.rest ≠ [] := by
    intro n cur hlength
    rw [← List.length_pos_iff]
    omega
  induction read, cur using advance_induction with
  | nil => rfl
  | joined read cur ih =>
    rw [List.length_cons] at h
    have hne' : (cur.skipChar '\r').rest ≠ [] := by
      apply hne (n := read.length)
      rw [List.length_cons] at h
      rw [skipChar, List.length_drop]
      omega
    show (((cur.endLine.skipChar '\r').skipChar '\n').openLine).advance read = _
    rw [skipChar_endLine _ (hne h), skipChar_endLine _ hne', openLine_endLine]
    refine ih ?_
    rw [List.length_cons] at h
    simp only [skipChar, openLine, List.length_drop]
    omega
  | lineBreak c read cur hjoined hbreak hstep ih =>
    rw [List.length_cons] at h
    rw [hstep, advance.eq_3 _ _ _ hjoined, if_pos hbreak, skipChar_endLine c (hne h),
      openLine_endLine]
    refine ih ?_
    simp only [skipChar, openLine, List.length_drop]
    omega
  | other c read cur hjoined hbreak hstep ih =>
    rw [List.length_cons] at h
    rw [hstep, advance.eq_3 _ _ _ hjoined, hbreak, if_neg Bool.false_ne_true,
      skipChar_endLine c (hne h)]
    refine ih ?_
    simp only [skipChar, List.length_drop]
    omega

end Cursor

namespace Lexer

variable {lx ly : Lexer}

/-- The lexer at the same place of a text with one more line feed. -/
def endLine (lx : Lexer) : Lexer :=
  { lx with text := lx.text ++ ['\n'], cursor := lx.cursor.endLine }

theorem advance_endLine {read : List Char} (h : read.length ≤ lx.cursor.rest.length) :
    lx.endLine.advance read = (lx.advance read).endLine := by
  simp only [advance, endLine, Cursor.advance_endLine h]

theorem skipLayout_endLine (lx : Lexer) : lx.endLine.skipLayout = lx.skipLayout.endLine := by
  have htake : lx.endLine.cursor.rest.takeWhile isLayout = lx.cursor.rest.takeWhile isLayout :=
    takeWhile_append_cons (isLayout_break (by decide)) _ _
  rw [skipLayout, htake, advance_endLine (List.takeWhile_prefix _).length_le, skipLayout]

theorem takeDue?_endLine (lx : Lexer) :
    lx.endLine.takeDue? = lx.takeDue?.map fun due => (due.1, due.2.endLine) := by
  have hdedents : lx.endLine.pendingDedents = lx.pendingDedents := rfl
  have hindent : lx.endLine.pendingIndent = lx.pendingIndent := rfl
  unfold takeDue?
  rw [hdedents, hindent]
  split
  · rfl
  · split <;> rfl

theorem leaveLine_endLine (lx : Lexer) : lx.endLine.leaveLine = lx.leaveLine.endLine := by
  have hended : lx.endLine.lineEnded = lx.lineEnded := rfl
  unfold leaveLine
  rw [hended]
  split <;> rfl

theorem applyIndent_endLine (m : Measure) (lx : Lexer) :
    lx.endLine.applyIndent m = ((lx.applyIndent m).1, (lx.applyIndent m).2.endLine) := by
  refine (applyIndent_onto m (lx.text ++ ['\n']) lx.cursor.endLine lx).trans (Prod.ext rfl ?_)
  rw [applyIndent_frame]
  rfl

theorem nest_endLine (kind : Kind) (lx : Lexer) :
    lx.endLine.nest kind = (lx.nest kind).endLine := by
  refine (nest_onto kind (lx.text ++ ['\n']) lx.cursor.endLine lx).trans ?_
  rw [nest_frame]
  rfl

theorem classify_endLine (kind : Kind) (read rest : List Char) (lx : Lexer) :
    lx.endLine.classify kind read (rest ++ ['\n']) =
      ((lx.classify kind read rest).1, (lx.classify kind read rest).2.endLine) := by
  have hfollows := definitionFollows_before (b := '\n') (by decide) rest []
  refine (classify_onto kind read hfollows (lx.text ++ ['\n']) lx.cursor.endLine lx).trans
    (Prod.ext rfl ?_)
  rw [classify_frame]
  rfl

/-- Two lexers at their ends that will give the same tokens. -/
structure Alike (lx ly : Lexer) : Prop where
  spent : lx.Spent
  spent' : ly.Spent
  debt : lx.debt = ly.debt
  encoding : lx.encoding? = ly.encoding?
  stop : ∀ e, lx.stop = .failed e → ly.stop = .failed e

/-- At the end of a comment that stands alone on its line inside a block. -/
structure LeftOpen (lx : Lexer) : Prop where
  spent : lx.Spent
  due : lx.OwesNothing
  lineStart : lx.atLineStart = false
  blankLine : lx.blankLine = true
  nesting : lx.nesting = 0
  depth : 0 < lx.indents.depth

/-- How the outcome of a turn compares with that before a final line feed, where no end of the
input is met. -/
inductive Compares : Outcome × Lexer → Outcome × Lexer → Prop
  /-- the line feed does not save the text -/
  | fails {r : Outcome × Lexer} {e : LexError} {ly' : Lexer} : Compares r (.failed e, ly')
  /-- the text ends behind a backslash and a line break -/
  | breaksOff {r' : Outcome × Lexer} {ly : Lexer} : Compares (.failed .endOfFile, ly) r'
  /-- the end is not in sight -/
  | same {o : Outcome} {ly : Lexer} (ho : o.Continues) : Compares (o, ly) (o, ly.endLine)
  /-- both texts are at their ends -/
  | together {o : Outcome} {ly ly' : Lexer} (ho : o.Continues) (halike : Alike ly ly') :
    Compares (o, ly) (o, ly')
  /-- the text ends in a comment that is a token, alone on its line inside a block -/
  | opens {x : Lexeme} {ly : Lexer} {r' : Outcome × Lexer} (hx : x.kind ≠ .endMarker)
      (hopen : ly.LeftOpen) : Compares (.lexeme x, ly) r'

/-- The line breaks at the ends of two texts, the second of which may be joined to the first. -/
theorem alike_readBreak {br br' : List Char} (h : lx.cursor.rest.length ≤ br.length)
    (h' : lx.cursor.rest.length + 1 ≤ br'.length) :
    Alike (lx.readBreak br) (lx.endLine.readBreak br') := by
  have hrest : (lx.readBreak br).cursor.rest = [] := by
    rw [readBreak, rest_advance, List.drop_of_length_le h]
  have hrest' : (lx.endLine.readBreak br').cursor.rest = [] := by
    rw [readBreak, rest_advance, List.drop_of_length_le]
    simpa [endLine] using h'
  exact
    { spent := spent_of_rest hrest, spent' := spent_of_rest hrest', debt := rfl, encoding := rfl
      stop := fun _ he => he }

/-- A line feed that is read alone at the end. -/
theorem alike_alone {m : Lexer} (h : lx.Spent) (hrest : m.cursor.rest = ['\n'])
    (hdebt : lx.debt = (m.readBreak ['\n']).debt) (hencoding : lx.encoding? = m.encoding?)
    (hstop : lx.stop = m.stop) : Alike lx (m.readBreak ['\n']) := by
  have hspent : (m.readBreak ['\n']).cursor.rest = [] := by
    rw [readBreak, rest_advance, hrest]
    rfl
  exact
    { spent := h, spent' := spent_of_rest hspent, debt := hdebt, encoding := hencoding
      stop := fun _ he => hstop ▸ he }

/-- The start of a line closes no block inside brackets, or where there is none. -/
theorem debt_readBreak (h : 0 < lx.nesting ∨ lx.indents.depth = 0) (br : List Char) :
    lx.debt = (lx.readBreak br).debt := by
  have hcloses : ∀ start : Bool,
      (start && lx.nesting == 0 && decide (0 < lx.indents.depth)) = false := by
    intro start
    rcases h with h | h
    · simp [show lx.nesting ≠ 0 by omega]
    · simp [h]
  exact congrArg (Debt.mk lx.pendingDedents lx.pendingIndent lx.nesting lx.indents)
    ((hcloses lx.atLineStart).trans (hcloses true).symm)

theorem readBreak_endLine {br : List Char} (h : br.length ≤ lx.cursor.rest.length) :
    lx.endLine.readBreak br = (lx.readBreak br).endLine := by
  rw [readBreak, advance_endLine h]
  rfl

theorem afterPragma_compares (hdue : lx.OwesNothing) (hstart : lx.atLineStart = false)
    {x : Lexeme} (hx : x.kind ≠ .endMarker) :
    Compares (.lexeme x, lx.afterPragma) (.lexeme x, lx.endLine.afterPragma) := by
  have hrest : lx.endLine.cursor.rest = lx.cursor.rest ++ ['\n'] := rfl
  have hblank : lx.endLine.blankLine = lx.blankLine := rfl
  have ho : (Outcome.lexeme x).Continues := hx
  have hsame : Compares (.lexeme x, lx) (.lexeme x, lx.endLine) := .same ho
  unfold afterPragma
  rw [hrest, hblank]
  by_cases hnil : lx.cursor.rest = []
  · rw [hnil]
    by_cases halone : lx.blankLine = true
    · by_cases hclosed : 0 < lx.nesting ∨ lx.indents.depth = 0
      · have halike := alike_alone (m := lx.endLine) (spent_of_rest hnil) (by rw [hrest, hnil]; rfl)
          (debt_readBreak hclosed ['\n']) rfl rfl
        simpa [lineBreak?, halone] using Compares.together ho halike
      · have hopen : lx.LeftOpen :=
          { spent := spent_of_rest hnil, due := hdue, lineStart := hstart, blankLine := halone,
            nesting := by omega, depth := by omega }
        exact .opens hx hopen
    · simpa [lineBreak?, halone] using hsame
  · by_cases hreturn : lx.cursor.rest = ['\r']
    · rw [hreturn]
      by_cases halone : lx.blankLine = true
      · have halike : Alike (lx.readBreak ['\r']) (lx.endLine.readBreak ['\r', '\n']) :=
          alike_readBreak (by simp [hreturn]) (by simp [hreturn])
        simpa [lineBreak?, halone] using Compares.together ho halike
      · simpa [lineBreak?, halone] using hsame
    · rw [lineBreak?_concat hnil hreturn]
      cases hbreak : lineBreak? lx.cursor.rest with
      | none => exact .same ho
      | some found =>
        obtain ⟨br, rest⟩ := found
        obtain ⟨happend, _⟩ := append_of_lineBreak? hbreak
        have hle : br.length ≤ lx.cursor.rest.length := by
          rw [← happend, List.length_append]
          omega
        simp only [Option.map_some, Plain.thenMore, readBreak_endLine hle]
        split <;> exact .same ho

theorem comment_compares (hdue : lx.OwesNothing) (hstart : lx.atLineStart = false) :
    Compares lx.comment lx.endLine.comment := by
  have hbody : lx.endLine.cursor.rest.takeWhile (fun c => !isBreak c) =
      lx.cursor.rest.takeWhile fun c => !isBreak c := takeWhile_append_cons (by decide) _ _
  have hle := (List.takeWhile_prefix (fun c => !isBreak c) (l := lx.cursor.rest)).length_le
  rw [comment_eq, comment_eq, hbody]
  generalize lx.cursor.rest.takeWhile (fun c => !isBreak c) = body at hle
  rw [advance_endLine hle]
  cases Pragma.tag? body with
  | none => exact .same trivial
  | some tag =>
    have hlexeme : (lx.endLine.cursor.skip (body.take (body.length - tag.length))).lexeme
        .typeIgnore tag =
        (lx.cursor.skip (body.take (body.length - tag.length))).lexeme .typeIgnore tag := by
      have htake : (body.take (body.length - tag.length)).length ≤ lx.cursor.rest.length := by
        rw [List.length_take]
        omega
      exact (congrArg (Cursor.lexeme .typeIgnore tag) (Cursor.skip_endLine htake)).trans
        (Cursor.lexeme_endLine _ _ _)
    dsimp only
    rw [hlexeme, advance_endLine hle]
    have hdue' : (lx.advance body).OwesNothing := hdue
    refine afterPragma_compares hdue' hstart ?_
    rw [Cursor.kind_lexeme]
    decide

theorem endCode_endLine {br : List Char} (h : br.length ≤ lx.cursor.rest.length) :
    lx.endLine.endCode br = (lx.endCode br).endLine := by
  have hskip : lx.endLine.cursor.skip br = (lx.cursor.skip br).endLine := Cursor.skip_endLine h
  rw [endCode, hskip]
  rfl

theorem lexeme_newline_continues (lx : Lexer) :
    (Outcome.lexeme (lx.cursor.lexeme .newline [])).Continues := by
  rw [Outcome.Continues, Cursor.kind_lexeme]
  decide

/-- A line break comes to the same whether the line feed is joined to it or not. -/
theorem lineBreak_compares {br rest : List Char}
    (h : lineBreak? lx.cursor.rest = some (br, rest)) :
    ∃ br' rest', lineBreak? lx.endLine.cursor.rest = some (br', rest') ∧
      Compares (lx.lineBreak br) (lx.endLine.lineBreak br') := by
  have hrest : lx.endLine.cursor.rest = lx.cursor.rest ++ ['\n'] := rfl
  have hcond : (lx.endLine.blankLine || decide (0 < lx.endLine.nesting)) =
      (lx.blankLine || decide (0 < lx.nesting)) := rfl
  have hlexeme : lx.endLine.cursor.lexeme .newline [] = lx.cursor.lexeme .newline [] := rfl
  obtain ⟨happend, hne⟩ := append_of_lineBreak? h
  have hle : br.length ≤ lx.cursor.rest.length := by
    rw [← happend, List.length_append]
    omega
  by_cases hreturn : lx.cursor.rest = ['\r']
  · obtain rfl : br = ['\r'] := by
      rw [hreturn] at h
      exact (Prod.mk.inj (Option.some.inj h)).1.symm
    refine ⟨['\r', '\n'], [], by rw [hrest, hreturn]; rfl, ?_⟩
    rw [lineBreak_eq, lineBreak_eq, hcond, hlexeme]
    split
    · exact .together trivial (alike_readBreak (by simp [hreturn]) (by simp [hreturn]))
    · have hspent : (lx.endCode ['\r']).cursor.rest = [] := by
        rw [endCode, Cursor.rest_skip, hreturn]
        rfl
      have hspent' : (lx.endLine.endCode ['\r', '\n']).cursor.rest = [] := by
        rw [endCode, Cursor.rest_skip, hrest, hreturn]
        rfl
      exact .together lx.lexeme_newline_continues
        { spent := spent_of_rest hspent
          spent' := spent_of_rest hspent'
          debt := rfl
          encoding := rfl
          stop := fun _ he => he }
  · have hnil : lx.cursor.rest ≠ [] := by
      intro hnil
      rw [hnil] at h
      cases h
    refine ⟨br, rest ++ ['\n'], by rw [hrest, lineBreak?_concat hnil hreturn, h]; rfl, ?_⟩
    rw [lineBreak_eq, lineBreak_eq, hcond, hlexeme, readBreak_endLine hle, endCode_endLine hle]
    split
    · exact .same trivial
    · exact .same lx.lexeme_newline_continues

theorem continuation_compares {rest : List Char} (h : lx.cursor.rest = '\\' :: rest) :
    Compares lx.continuation lx.endLine.continuation := by
  have hle : ['\\'].length ≤ lx.cursor.rest.length := by simp [h]
  have hrest : (lx.advance ['\\']).cursor.rest = rest := by
    rw [rest_advance, h]
    rfl
  unfold continuation
  rw [advance_endLine hle]
  generalize lx.advance ['\\'] = after at hrest
  have hrest' : after.endLine.cursor.rest = rest ++ ['\n'] := by rw [← hrest]; rfl
  dsimp only
  rw [hrest, hrest']
  by_cases hnil : rest = []
  · subst hnil
    exact .fails
  · by_cases hreturn : rest = ['\r']
    · subst hreturn
      exact .breaksOff
    · rw [lineBreak?_concat hnil hreturn]
      cases hbreak : lineBreak? rest with
      | none => exact .fails
      | some found =>
        obtain ⟨br, left⟩ := found
        obtain ⟨happend, _⟩ := append_of_lineBreak? hbreak
        cases left with
        | nil => exact .breaksOff
        | cons c left =>
          have hbr : br.length ≤ after.cursor.rest.length := by
            rw [hrest, ← happend, List.length_append]
            omega
          simp only [Option.map_some, Plain.thenMore, List.cons_append, advance_endLine hbr]
          exact .same trivial

theorem readLiteral_compares {stretch : Literal.Stretch}
    (h : stretch.read.length ≤ lx.cursor.rest.length) :
    Compares (lx.readLiteral stretch) (lx.endLine.readLiteral stretch) := by
  unfold readLiteral
  rw [advance_endLine h]
  split
  · exact .fails
  · refine .same ?_
    rw [Outcome.Continues, Cursor.kind_lexeme]
    decide

theorem plain_compares (c : Char) (lx : Lexer) :
    Compares (lx.plain c lx.cursor.rest) (lx.endLine.plain c lx.endLine.cursor.rest) := by
  have hrest : lx.endLine.cursor.rest = lx.cursor.rest ++ ['\n'] := rfl
  unfold plain
  rw [hrest, Plain.scan?_before (by decide)]
  cases hscan : Plain.scan? lx.cursor.rest with
  | none => exact .fails
  | some found =>
    obtain ⟨kind, read, rest⟩ := found
    have hle : read.length ≤ lx.cursor.rest.length := by
      rw [← Plain.append_of_scan? hscan, List.length_append]
      omega
    simp only [Option.map_some, Plain.operatorThenMore, Plain.thenMore, advance_endLine hle,
      nest_endLine, classify_endLine]
    refine .same ?_
    show (lx.cursor.lexeme _ read).kind ≠ .endMarker
    rw [Cursor.kind_lexeme]
    exact ne_endMarker_of_isPlain (isPlain_classify (Plain.plain_of_scan? hscan).1 _ _ _)

theorem lineBreak?_eq_none_concat {text : List Char} (hne : text ≠ [])
    (h : lineBreak? text = none) : lineBreak? (text ++ ['\n']) = none := by
  rw [lineBreak?_concat hne, h, Option.map_none]
  rintro rfl
  cases h

/-- Where code is left, a line feed at the end changes nothing yet. -/
theorem body_compares (hdue : lx.OwesNothing) (hstart : lx.atLineStart = false)
    (h : ¬lx.Spent) : Compares lx.body lx.endLine.body := by
  obtain ⟨c, rest, hcode⟩ : ∃ c rest, lx.skipLayout.cursor.rest = c :: rest := by
    rw [rest_skipLayout]
    exact List.exists_cons_of_ne_nil h
  have hskip := skipLayout_endLine lx
  have hcode' : lx.endLine.skipLayout.cursor.rest = c :: (rest ++ ['\n']) := by
    rw [hskip]
    show lx.skipLayout.cursor.rest ++ ['\n'] = _
    rw [hcode, List.cons_append]
  by_cases hcomment : c = '#'
  · subst hcomment
    rw [body_of_comment hcode, body_of_comment hcode', hskip]
    have hdue' : lx.skipLayout.OwesNothing := hdue
    exact comment_compares hdue' hstart
  · by_cases hescape : c = '\\'
    · subst hescape
      rw [body_of_continuation hcode, body_of_continuation hcode', hskip]
      exact continuation_compares hcode
    · rw [body_of_code hcode hcomment hescape, body_of_code hcode' hcomment hescape, hskip]
      generalize lx.skipLayout = ly at hcode
      have hrest : ly.endLine.cursor.rest = ly.cursor.rest ++ ['\n'] := rfl
      cases hbreak : lineBreak? ly.cursor.rest with
      | some found =>
        obtain ⟨br, left⟩ := found
        obtain ⟨br', left', hbreak', hcompares⟩ := lineBreak_compares hbreak
        rw [hbreak']
        exact hcompares
      | none =>
        rw [hrest, lineBreak?_eq_none_concat (by rw [hcode]; exact List.cons_ne_nil _ _) hbreak]
        dsimp only
        cases hliteral : Literal.stretch? (ly.cursor.rest ++ ['\n']) with
        | none =>
          rw [Literal.stretch?_eq_none_concat hliteral]
          exact plain_compares c ly
        | some stretch =>
          cases herror : stretch.error? with
          | some e =>
            dsimp only
            rw [readLiteral, herror]
            exact .fails
          | none =>
            have hsame := Literal.stretch?_concat hliteral herror
            rw [hsame]
            exact readLiteral_compares (Literal.stretch?_length hsame)

theorem startLine_endLine (blank : Bool) (lx : Lexer) :
    lx.endLine.startLine blank = (lx.startLine blank).endLine := by
  rw [startLine, skipLayout_endLine]
  rfl

/-- The measure of a line of code, a comment or an empty line does not depend on the line feed. -/
theorem measureLine_endLine (h : ¬lx.Spent) :
    lx.endLine.measureLine = (lx.measureLine.1, lx.measureLine.2.endLine) ∧
      ¬lx.measureLine.2.Spent ∧ lx.measureLine.2.atLineStart = false := by
  obtain ⟨c, rest, hcode⟩ : ∃ c rest, lx.skipLayout.cursor.rest = c :: rest := by
    rw [rest_skipLayout]
    exact List.exists_cons_of_ne_nil h
  have hblanks : lx.endLine.cursor.rest.takeWhile isLayout = lx.cursor.rest.takeWhile isLayout :=
    takeWhile_append_cons (isLayout_break (by decide)) _ _
  have hhead : lx.endLine.skipLayout.cursor.rest.head? = lx.skipLayout.cursor.rest.head? := by
    rw [skipLayout_endLine]
    show (lx.skipLayout.cursor.rest ++ ['\n']).head? = _
    rw [hcode, List.cons_append, List.head?_cons, List.head?_cons]
  have hc : isLayout c = false := by
    have hhead := List.head?_dropWhile_not isLayout lx.cursor.rest
    rwa [← rest_skipLayout, hcode] at hhead
  have hcursor : lx.measureLine.2.cursor = lx.skipLayout.cursor := by rw [measureLine_frame]
  have hstart : lx.measureLine.2.atLineStart = false := by rw [measureLine_frame]
  refine ⟨measureLine_comm (fun blank => startLine_endLine blank lx) applyIndent_endLine rfl hblanks
    hhead, fun hspent => ?_, hstart⟩
  rw [Spent, hcursor, hcode, List.dropWhile_cons, hc] at hspent
  cases hspent

/-- One lexer is at the end of a line of code, and the other has read the line feed there. -/
structure EndsLine (lx ly : Lexer) : Prop where
  spent : lx.Spent
  spent' : ly.Spent
  debt : lx.debt = ⟨0, false, 0, lx.indents, false⟩
  debt' : ly.debt = ⟨0, false, 0, lx.indents, decide (0 < lx.indents.depth)⟩
  encoding : lx.encoding? = ly.encoding?

/-- How the next turn of a lexer compares with that before a final line feed. -/
inductive Compared (lx : Lexer) : Prop
  | compares (h : Compares lx.turn lx.endLine.turn)
  /-- the line feed gives nothing -/
  | alone {ly' : Lexer} (hturn : lx.endLine.turn = (.nothing, ly')) (halike : Alike lx ly')
  /-- the line feed ends a line of code -/
  | line {x : Lexeme} {ly' : Lexer} (hturn : lx.endLine.turn = (.lexeme x, ly'))
      (hkind : x.kind = .newline) (htext : x.text = "") (hends : EndsLine lx ly')
  /-- the text ends in a comment that is alone on its line inside a block -/
  | leftOpen (h : lx.LeftOpen)

theorem compares_of_measured (hdue : lx.OwesNothing) (hstart : lx.atLineStart = true)
    (h : ¬lx.Spent) : Compares lx.turn lx.endLine.turn := by
  obtain ⟨hmeasure, hcode, hline⟩ := measureLine_endLine h
  have howes : lx.endLine.OwesNothing := hdue
  rw [turn_of_measure hdue hstart, turn_of_measure howes hstart, hmeasure]
  generalize lx.measureLine = measured at hcode hline
  obtain ⟨e?, ly⟩ := measured
  cases e? with
  | some e => exact .fails
  | none =>
    dsimp only
    rw [takeDue?_endLine]
    cases hdue' : ly.takeDue? with
    | some due => exact .same (kind_of_takeDue? hdue')
    | none => exact body_compares (takeDue?_eq_none_iff.1 hdue') hline hcode

theorem rest_skipLayout_endLine (h : lx.Spent) :
    lx.endLine.skipLayout.cursor.rest = ['\n'] := by
  rw [skipLayout_endLine]
  show lx.skipLayout.cursor.rest ++ ['\n'] = _
  rw [h.rest_skipLayout, List.nil_append]

/-- A line feed at the start of a line gives nothing. -/
theorem compared_of_start (hdue : lx.OwesNothing) (h : lx.Spent) (hstart : lx.atLineStart = true) :
    Compared lx := by
  have hrest := rest_skipLayout_endLine h
  have hmeasure : lx.endLine.measureLine = (none, lx.endLine.startLine true) := by
    rw [measureLine_of_code hrest]
    rfl
  have hline : (lx.endLine.startLine true).cursor.rest = ['\n'] := hrest
  have hskip : (lx.endLine.startLine true).skipLayout = lx.endLine.startLine true := by
    rw [skipLayout, hline]
    rfl
  have hbody : (lx.endLine.startLine true).body =
      (.nothing, (lx.endLine.startLine true).readBreak ['\n']) := by
    rw [body_of_code (hskip.symm ▸ hline) (by decide) (by decide), hskip, hline]
    rfl
  have hnone : (lx.endLine.startLine true).takeDue? = none := takeDue?_eq_none_iff.2 hdue
  have hturn : lx.endLine.turn = (.nothing, (lx.endLine.startLine true).readBreak ['\n']) := by
    have hdue' : lx.endLine.OwesNothing := hdue
    rw [turn_of_measure hdue' hstart, hmeasure]
    simp only [hnone, hbody]
  refine .alone hturn (alike_alone h hline ?_ rfl rfl)
  simp only [debt, hstart]
  rfl

/-- A line feed elsewhere ends a line of code, or gives nothing. -/
theorem compared_of_end (hdue : lx.OwesNothing) (h : lx.Spent) (hstart : lx.atLineStart = false) :
    Compared lx := by
  have hrest := rest_skipLayout_endLine h
  have hturn : lx.endLine.turn = lx.endLine.skipLayout.lineBreak ['\n'] := by
    have hdue' : lx.endLine.OwesNothing := hdue
    rw [turn_of_body hdue' hstart, body_of_code hrest (by decide) (by decide), hrest]
    rfl
  have hcond : (lx.endLine.skipLayout.blankLine || decide (0 < lx.endLine.skipLayout.nesting)) =
      (lx.blankLine || decide (0 < lx.nesting)) := rfl
  rw [lineBreak_eq, hcond] at hturn
  by_cases hnothing : (lx.blankLine || decide (0 < lx.nesting)) = true
  · rw [if_pos hnothing] at hturn
    by_cases hclosed : 0 < lx.nesting ∨ lx.indents.depth = 0
    · exact .alone hturn (alike_alone h hrest (debt_readBreak hclosed ['\n']) rfl rfl)
    · rw [not_or] at hclosed
      refine .leftOpen
        { spent := h, due := hdue, lineStart := hstart, blankLine := ?_, nesting := by omega
          depth := by omega }
      simpa [hclosed.1] using hnothing
  · rw [if_neg hnothing] at hturn
    have hnesting : lx.nesting = 0 := by
      by_contra hne
      exact hnothing (by simp [Nat.pos_of_ne_zero hne])
    have hspent : (lx.endLine.skipLayout.endCode ['\n']).cursor.rest = [] := by
      rw [endCode, Cursor.rest_skip, hrest]
      rfl
    refine .line hturn (by rw [Cursor.kind_lexeme]) ?_
      { spent := h, spent' := spent_of_rest hspent, debt := ?_, debt' := ?_, encoding := rfl }
    · exact Cursor.text_lexeme_nil _ _
    · simp only [debt, hdue.1, hdue.2, hnesting, hstart]
      rfl
    · show Debt.mk lx.pendingDedents lx.pendingIndent lx.nesting lx.indents
        (true && lx.nesting == 0 && decide (0 < lx.indents.depth)) = _
      rw [hdue.1, hdue.2, hnesting]
      rfl

/-- Until the end is in sight, the final line feed makes no difference. -/
theorem compared (lx : Lexer) : Compared lx := by
  cases hdue : lx.takeDue? with
  | some due =>
    have hdue' : lx.endLine.takeDue? = some (due.1, due.2.endLine) := by
      rw [takeDue?_endLine, hdue]
      rfl
    refine .compares ?_
    rw [turn_of_due hdue, turn_of_due hdue']
    exact .same (kind_of_takeDue? hdue)
  | none =>
    have howes := takeDue?_eq_none_iff.1 hdue
    by_cases hspent : lx.Spent
    · by_cases hstart : lx.atLineStart = true
      · exact compared_of_start howes hspent hstart
      · exact compared_of_end howes hspent (eq_false_of_ne_true hstart)
    · by_cases hstart : lx.atLineStart = true
      · exact .compares (compares_of_measured howes hstart hspent)
      · have hline := eq_false_of_ne_true hstart
        have hbody := body_compares howes hline hspent
        have howes' : lx.endLine.OwesNothing := howes
        rw [← turn_of_body howes hline, ← turn_of_body howes' hline] at hbody
        exact .compares hbody

end Lexer
end Offside
