import Offside.Proofs.Lexer.LineStarts
import Offside.Proofs.Lexer.Lowered

/-!
Lines without code, put in where a line starts. A line of blanks, with or without a comment that is
no pragma, leaves blocks, brackets and the scope of `async` as they are. So a lexer that comes to
the start of a line reads on behind such a line as it would without it, one line further down.
-/

namespace Offside

open Text

namespace Cursor

variable {cur cur' : Cursor} {text opened front : List Char}

/-- A cursor that has crossed a line put in where its own line starts. -/
theorem OnLine.lowered_of_crosses (h : OnLine text opened [] cur) (hfront : Unbroken front)
    (hcrosses : Crosses (front ++ ['\n']) (cur.insertBefore (front ++ ['\n']) cur.rest) cur') :
    cur' = cur.lowered (byteLength (front ++ ['\n'])) := by
  have hinserted : (cur.insertBefore (front ++ ['\n']) cur.rest).rest =
      front ++ ('\n' :: cur.rest) := by
    show Text.insertBefore _ _ _ = _
    rw [insertBefore_self, List.append_assoc, List.singleton_append]
  have hsame : (cur.insertBefore (front ++ ['\n']) cur.rest).offset = cur.offset ∧
      (cur.insertBefore (front ++ ['\n']) cur.rest).line = cur.line := ⟨rfl, rfl⟩
  generalize cur.insertBefore (front ++ ['\n']) cur.rest = start at hinserted hsame hcrosses
  have hrest : (start.advance front).rest = '\n' :: cur.rest := by
    rw [rest_advance, hinserted, List.drop_left]
  have hoffset : (start.advance front).offset = cur.offset + byteLength front := by
    rw [offset_advance, hsame.1]
  have hline : (start.advance front).line = cur.line := by
    rw [line_advance, breakEndsFrom_of_unbroken _ hfront, hsame.2]
    exact UInt32.add_zero cur.line
  have hbytes : byteLength (front ++ ['\n']) = byteLength front + 1 := byteLength_append _ _
  have hstart : cur.lineStart = cur.offset := by
    rw [h.lineStart, h.offset]
    rfl
  rw [hcrosses.moved, advance_append (not_splits_of_unbroken hfront _)]
  generalize start.advance front = cur₁ at hrest hoffset hline
  have hbreak : lineBreak? cur₁.rest = some (['\n'], cur.rest) := by rw [hrest]; rfl
  have hopened : (cur₁.skip ['\n']).rest = cur.rest := by rw [rest_skip, hrest]; rfl
  rw [← openLine_skip hbreak, Cursor.openLine, hopened, lowered, hbytes, hstart, h.lineText]
  show (⟨_, cur₁.offset + 1, cur₁.line + 1, cur₁.offset + 1, _⟩ : Cursor) = _
  rw [hoffset, hline, Nat.add_assoc]
  rfl

end Cursor

namespace Lexer

open Cursor

variable {lx ly : Lexer} {asyncAlways : Bool} {source : Source}
  {text line before opened rest : List Char}

/-- A line of blanks, with or without a comment that is no pragma. -/
inductive IsBlankLine : List Char → Prop
  | mk {blanks comment : List Char} (hblanks : ∀ c ∈ blanks, isLayout c = true)
      (hhash : ∀ c ∈ comment.head?, c = '#') (hcomment : Unbroken comment)
      (htag : Pragma.tag? comment = none) : IsBlankLine (blanks ++ (comment ++ ['\n']))

/-- A lexer with a line put in before what it has not read. -/
def insert (line : List Char) (lx : Lexer) : Lexer := lx.insertBefore line lx.cursor.rest

/-- The states that a lexer goes through: those between two requests, and those in which a request
takes a turn. -/
inductive Reaches (asyncAlways : Bool) (source : Source) : Lexer → Prop
  | between (requests : List Request) :
      Reaches asyncAlways source (requests.foldl Lexer.after (ofSource asyncAlways source))
  | within (requests : List Request) {lx : Lexer}
      (hlive : ∀ e, (requests.foldl Lexer.after (ofSource asyncAlways source)).stop ≠ .failed e)
      (hskips : Skips (requests.foldl Lexer.after (ofSource asyncAlways source)).leaveLine lx) :
      Reaches asyncAlways source lx

/-- Where a lexer is to start a line, it stands at the start of the line, once it has left the line
before. -/
def OpensLine (text : List Char) (lx : Lexer) : Prop :=
  lx.atLineStart = true → ∃ opened, lx.leaveLine.cursor.OnLine text opened []

theorem cursor_leaveLine (lx : Lexer) :
    lx.leaveLine.cursor = if lx.lineEnded then lx.cursor.openLine else lx.cursor := by
  unfold leaveLine
  split <;> rfl

/-- What is due, and how a lexer stopped, have no part in this. -/
theorem OpensLine.of_same (h : OpensLine text lx) (hcursor : ly.cursor = lx.cursor)
    (hended : ly.lineEnded = lx.lineEnded) (hline : ly.atLineStart = lx.atLineStart) :
    OpensLine text ly := by
  intro hstart
  rw [cursor_leaveLine, hcursor, hended, ← cursor_leaveLine]
  exact h (hline.symm.trans hstart)

theorem opensLine_of_measured (h : lx.atLineStart = false) : OpensLine text lx := by
  intro hstart
  rw [h] at hstart
  cases hstart

theorem opensLine_readBreak {br rest : List Char} (h : Within text lx)
    (hbreak : lineBreak? lx.cursor.rest = some (br, rest)) : OpensLine text (lx.readBreak br) := by
  obtain ⟨opened, read, honLine, -⟩ := h.onLine
  have hline : (lx.readBreak br).lineEnded = false := h.sameLine
  have hopened := (honLine.skip (lineBreak?_eq_some hbreak).1).openLine
  rw [Cursor.openLine_skip hbreak] at hopened
  intro _
  rw [leaveLine_of_same_line hline]
  exact ⟨_, hopened⟩

theorem opensLine_endCode {br rest : List Char} (h : Within text lx)
    (hbreak : lineBreak? lx.cursor.rest = some (br, rest)) : OpensLine text (lx.endCode br) := by
  obtain ⟨opened, read, honLine, -⟩ := h.onLine
  intro _
  exact ⟨_, (honLine.skip (lineBreak?_eq_some hbreak).1).openLine⟩

theorem Piece.opensLine {r : Outcome × Lexer} (hpiece : Piece lx r) (h : Within text lx)
    (hstart : lx.atLineStart = false) : OpensLine text r.2 := by
  cases hpiece with
  | pragma hrest =>
    have hadvance := h.advance hrest
    show OpensLine text (lx.advance _).afterPragma
    unfold afterPragma
    split
    · next hbreak =>
      split
      · exact opensLine_readBreak hadvance hbreak
      · exact opensLine_of_measured hstart
    · exact opensLine_of_measured hstart
  | blankBreak hbreak => exact opensLine_readBreak h hbreak
  | newline hbreak => exact opensLine_endCode h hbreak
  | plain _ _ hclassify =>
    rw [plain_frame hclassify]
    exact opensLine_of_measured hstart
  | ended => exact opensLine_of_measured hstart
  | comment => exact opensLine_of_measured hstart
  | joined => exact opensLine_of_measured hstart
  | brokenOff => exact opensLine_of_measured hstart
  | stray => exact opensLine_of_measured hstart
  | literal => exact opensLine_of_measured hstart
  | unended => exact opensLine_of_measured hstart
  | bad => exact opensLine_of_measured hstart

theorem OpensLine.turn (h : OpensLine text lx) (hwithin : Within text lx) :
    OpensLine text lx.turn.2 := by
  have hturned := turned lx
  generalize lx.turn = r at hturned
  cases hturned with
  | @due x ly hdue =>
    obtain ⟨hcursor, hline⟩ := takeDue?_stays hdue
    have hsame := (hwithin.takeDue? hdue).sameLine.trans hwithin.sameLine.symm
    exact h.of_same hcursor hsame hline
  | misplaced _ _ hmeasure =>
    have hframe := measureLine_frame lx
    rw [hmeasure] at hframe
    dsimp only at hframe ⊢
    rw [hframe]
    exact opensLine_of_measured rfl
  | indented _ hsettles hdue =>
    exact opensLine_of_measured ((takeDue?_stays hdue).2.trans hsettles.measured)
  | read _ hsettles _ hpiece =>
    exact hpiece.opensLine (hwithin.settles hsettles).skipLayout hsettles.measured

theorem OpensLine.scan (h : OpensLine text lx) (hwithin : Within text lx) :
    OpensLine text lx.scan.2 := by
  have hopens := h.turn hwithin
  have hleaves := turn_leaves hwithin
  fun_induction Lexer.scan lx with
  | case1 lx x ly hturn =>
    rw [hturn] at hopens
    exact hopens
  | case2 lx e ly hturn =>
    rw [hturn] at hopens
    exact hopens.of_same rfl rfl rfl
  | case3 lx ly hturn _ ih =>
    rw [hturn] at hopens hleaves
    cases hleaves with
    | within hwithin => exact ih hopens hwithin (hopens.turn hwithin) (turn_leaves hwithin)

theorem OpensLine.leaveLine (h : OpensLine text lx) : OpensLine text lx.leaveLine := by
  have hline : lx.leaveLine.atLineStart = lx.atLineStart := by
    unfold Lexer.leaveLine
    split <;> rfl
  intro hstart
  rw [leaveLine_of_same_line (lineEnded_leaveLine lx)]
  exact h (hline.symm.trans hstart)

theorem OpensLine.after (h : OpensLine text lx) (hviewed : Viewed text lx) (request : Request) :
    OpensLine text (lx.after request) := by
  cases request with
  | next =>
    show OpensLine text lx.next.2
    unfold Lexer.next
    split
    · exact h
    · exact h.leaveLine.scan hviewed.leaveLine
  | queueDedents n => exact h.of_same rfl rfl rfl

theorem opensLine_requests (asyncAlways : Bool) (source : Source) (requests : List Request) :
    OpensLine source.text (requests.foldl Lexer.after (ofSource asyncAlways source)) := by
  have hrun : ∀ lx, OpensLine source.text lx → Viewed source.text lx →
      OpensLine source.text (requests.foldl Lexer.after lx) := by
    induction requests with
    | nil => exact fun lx h _ => h
    | cons request requests ih =>
      exact fun lx h hviewed => ih _ (h.after hviewed request) (hviewed.after request)
  refine hrun _ (fun _ => ⟨[], ?_⟩) (.within (within_ofSource asyncAlways source))
  rw [leaveLine_of_same_line rfl]
  exact Cursor.onLine_start _

theorem OpensLine.skips (h : OpensLine text lx) (hwithin : Within text lx) (hskips : Skips lx ly) :
    OpensLine text ly ∧ Within text ly := by
  induction hskips with
  | nil => exact ⟨h, hwithin⟩
  | cons hturn _ ih =>
    have hopens := h.turn hwithin
    have hleaves := turn_leaves hwithin
    rw [hturn] at hopens hleaves
    cases hleaves with
    | within hwithin => exact ih hopens hwithin

/-- A state that is reached stands on a line of the text, and at the start of it where a line is to
start. -/
theorem Reaches.opensLine (h : Reaches asyncAlways source lx) :
    Viewed source.text lx ∧ OpensLine source.text lx := by
  cases h with
  | between requests =>
    exact ⟨Viewed.requests (.within (within_ofSource asyncAlways source)) requests,
      opensLine_requests asyncAlways source requests⟩
  | within requests _ hskips =>
    have hviewed := Viewed.requests (.within (within_ofSource asyncAlways source)) requests
    have hopens := opensLine_requests asyncAlways source requests
    obtain ⟨hopens', hwithin⟩ := hopens.leaveLine.skips hviewed.leaveLine hskips
    exact ⟨.within hwithin, hopens'⟩

/-- What was said of the line before makes no difference where a line starts. -/
theorem turn_of_atLineStart (howes : lx.OwesNothing) (hstart : lx.atLineStart = true)
    (blank : Bool) : { lx with blankLine := blank }.turn = lx.turn := by
  have howes' : { lx with blankLine := blank }.OwesNothing := howes
  have hmeasure : { lx with blankLine := blank }.measureLine = lx.measureLine := rfl
  rw [turn_of_measure howes hstart, turn_of_measure howes' hstart, hmeasure]

/-- Behind a line without code a lexer is as it would be without the line, further down. -/
theorem AtLine.skips_insert (h : lx.AtLine) (honLine : lx.cursor.OnLine text opened [])
    (hline : IsBlankLine line) :
    Skips (lx.insert line)
      { lx.lowered (lx.insert line).text (byteLength line) with blankLine := true } := by
  obtain ⟨hblanks, hhash, hcomment, htag⟩ := hline
  rename_i blanks comment
  have hfront : Unbroken (blanks ++ comment) :=
    unbroken_append.2 ⟨unbroken_of_forall (by decide) (by decide) hblanks, hcomment⟩
  have hatLine : (lx.insert (blanks ++ (comment ++ ['\n']))).AtLine :=
    ⟨h.owes, h.starts, h.sameLine⟩
  have hrest : (lx.insert (blanks ++ (comment ++ ['\n']))).cursor.rest =
      blanks ++ (comment ++ (['\n'] ++ lx.cursor.rest)) := by
    show Text.insertBefore _ _ _ = _
    rw [insertBefore_self, List.append_assoc, List.append_assoc]
  have hbreak : lineBreak? (['\n'] ++ lx.cursor.rest) = some (['\n'], lx.cursor.rest) := rfl
  obtain ⟨hskips, hcrosses⟩ := hatLine.skips hrest hblanks hhash hcomment htag hbreak
  rw [← List.append_assoc] at hcrosses
  have hcursor := honLine.lowered_of_crosses hfront hcrosses
  rw [← List.append_assoc] at hskips ⊢
  generalize hafter : (((lx.insert (blanks ++ comment ++ ['\n'])).startLine true).advance
    comment).readBreak ['\n'] = after at hskips hcursor
  have hframe : after = { lx with
      text := (lx.insert (blanks ++ comment ++ ['\n'])).text
      cursor := after.cursor
      atLineStart := true
      blankLine := true } := by
    rw [← hafter]
    rfl
  have hlowered : { lx.lowered (lx.insert (blanks ++ comment ++ ['\n'])).text
        (byteLength (blanks ++ comment ++ ['\n'])) with blankLine := true } =
      { lx with
        text := (lx.insert (blanks ++ comment ++ ['\n'])).text
        cursor := lx.cursor.lowered (byteLength (blanks ++ comment ++ ['\n']))
        atLineStart := lx.atLineStart
        blankLine := true } := rfl
  rw [hlowered, h.starts, ← hcursor, ← hframe]
  exact hskips

theorem atLine_leaveLine (howes : lx.OwesNothing) (hstart : lx.atLineStart = true) :
    lx.leaveLine.AtLine := by
  refine ⟨?_, ?_, lineEnded_leaveLine lx⟩
  · unfold leaveLine
    split
    · exact howes
    · exact howes
  · unfold leaveLine
    split
    · exact hstart
    · exact hstart

theorem rest_leaveLine (lx : Lexer) : lx.leaveLine.cursor.rest = lx.cursor.rest := by
  unfold leaveLine
  split <;> rfl

theorem leaveLine_insert (line : List Char) (lx : Lexer) :
    (lx.insert line).leaveLine = lx.leaveLine.insert line := by
  unfold insert
  rw [leaveLine_insertBefore, rest_leaveLine]

theorem text_leaveLine (lx : Lexer) : lx.leaveLine.text = lx.text := by
  unfold leaveLine
  split <;> rfl

/-- The next lexeme behind a line without code is that without the line, further down. -/
theorem OpensLine.next_insert (h : OpensLine text lx) (hstart : lx.atLineStart = true)
    (howes : lx.OwesNothing) (hlive : ∀ e, lx.stop ≠ .failed e) (hline : IsBlankLine line) :
    (lx.insert line).next = (lx.lowered (lx.insert line).text (byteLength line)).next := by
  have hatLine := atLine_leaveLine howes hstart
  obtain ⟨opened, honLine⟩ := h hstart
  have hskips := hatLine.skips_insert honLine hline
  rw [← leaveLine_insert, text_leaveLine] at hskips
  have howes' : (lx.leaveLine.lowered (lx.insert line).text (byteLength line)).OwesNothing :=
    hatLine.owes
  have hlive' : ∀ e, (lx.lowered (lx.insert line).text (byteLength line)).stop ≠ .failed e := hlive
  calc (lx.insert line).next
      = (lx.insert line).leaveLine.scan := next_of_not_failed hlive
    _ = { lx.leaveLine.lowered (lx.insert line).text (byteLength line) with
          blankLine := true }.scan := hskips.scan
    _ = (lx.leaveLine.lowered (lx.insert line).text (byteLength line)).scan :=
        scan_congr (turn_of_atLineStart howes' hatLine.starts true)
    _ = (lx.lowered (lx.insert line).text (byteLength line)).leaveLine.scan := by
        rw [leaveLine_lowered]
    _ = (lx.lowered (lx.insert line).text (byteLength line)).next :=
        (next_of_not_failed hlive').symm

/-- What is read in the end is the same behind a line without code, one line further down. -/
theorem OpensLine.drain_insert (h : OpensLine text lx) (hviewed : Viewed text lx)
    (hstart : lx.atLineStart = true) (howes : lx.OwesNothing) (hline : IsBlankLine line) :
    List.Forall₂ (Token.Lowered (byteLength text + byteLength line ≤ maxPosition)) lx.drain.1
        (lx.insert line).drain.1 ∧
      (lx.insert line).drain.2.1 = lx.drain.2.1 := by
  unfold drain
  by_cases hlive : ∀ e, lx.stop ≠ .failed e
  · rw [drainFrom_congr (h.next_insert hstart howes hlive hline)]
    exact drainFrom_lowered hviewed .nil
  · obtain ⟨e, he⟩ := not_forall.1 hlive
    have hfailed : lx.stop = .failed e := not_not.1 he
    have hfailed' : (lx.insert line).stop = .failed e := hfailed
    rw [drainFrom_of_error (next_of_failed hfailed), drainFrom_of_error (next_of_failed hfailed')]
    exact ⟨.nil, rfl⟩

/-- A state at the start of a line is reached with a piece put in there as well. -/
theorem Reaches.insertBefore (h : Reaches asyncAlways source lx) (hstart : lx.atLineStart = true)
    (hrest : lx.cursor.rest = rest) (htext : source.text = before ++ rest)
    (hfeed : before = [] ∨ EndsInFeed before) (piece : List Char) :
    Reaches asyncAlways { source with text := before ++ (piece ++ rest) }
      (lx.insertBefore piece rest) := by
  have hupTo : UpTo rest (ofSource asyncAlways source) := upTo_of_lineStart htext hfeed rfl
  have hinserted : (ofSource asyncAlways source).insertBefore piece rest =
      ofSource asyncAlways { source with text := before ++ (piece ++ rest) } := by
    have hsource : Text.insertBefore piece rest source.text = before ++ (piece ++ rest) := by
      rw [htext, insertBefore_append]
    rw [← hsource]
    rfl
  have hpast : ¬Past rest.length lx := by
    intro hpast
    have hlt := hpast.lt hstart
    rw [hrest] at hlt
    exact Nat.lt_irrefl _ hlt
  have hstarts : Follows piece rest (ofSource asyncAlways source)
      (ofSource asyncAlways { source with text := before ++ (piece ++ rest) }) := by
    rw [← hinserted]
    exact .same hupTo
  have hrun := hstarts.requests
  cases h with
  | between requests =>
    have hfollows := hrun requests
    generalize hly : requests.foldl Lexer.after (ofSource asyncAlways
      { source with text := before ++ (piece ++ rest) }) = ly at hfollows
    cases hfollows with
    | same =>
      rw [← hly]
      exact .between requests
    | past h => exact absurd h hpast
  | within requests hlive hskips =>
    have hfollows := hrun requests
    generalize hly : requests.foldl Lexer.after (ofSource asyncAlways
      { source with text := before ++ (piece ++ rest) }) = ly at hfollows
    cases hfollows with
    | same h =>
      rcases h.leaveLine.skips hskips piece with hpassed | ⟨-, hskips'⟩
      · exact absurd hpassed hpast
      · rw [← leaveLine_insertBefore, ← hly] at hskips'
        refine .within requests (fun e => ?_) hskips'
        rw [hly]
        exact hlive e
    | past h => exact absurd (h.leaveLine.skips hskips) hpast

/-- Lines without code are not seen. Put in where a lexer is at the start of a line and owes
nothing, at the start of the text or behind a line feed, such a line leads the lexer to the same
state, and from there on to the same error, or to as many tokens, each of the same kind, in the same
column and with the same text, one line further down. Only if the text with the line is past 4 GiB
may a token stand behind the largest position, and have lost its column and its text. -/
theorem drain_insert_blankLine (hreaches : Reaches asyncAlways source lx)
    (hstart : lx.atLineStart = true) (howes : lx.OwesNothing)
    (htext : source.text = before ++ lx.cursor.rest) (hfeed : before = [] ∨ EndsInFeed before)
    (hline : IsBlankLine line) :
    Reaches asyncAlways { source with text := before ++ (line ++ lx.cursor.rest) }
        (lx.insert line) ∧
      (lx.insert line).drain.2.1 = lx.drain.2.1 ∧
      List.Forall₂
        (Token.Lowered (byteLength (before ++ (line ++ lx.cursor.rest)) ≤ maxPosition))
        lx.drain.1 (lx.insert line).drain.1 := by
  obtain ⟨hviewed, hopens⟩ := hreaches.opensLine
  obtain ⟨htokens, herror⟩ := hopens.drain_insert hviewed hstart howes hline
  have hbytes : byteLength source.text + byteLength line =
      byteLength (before ++ (line ++ lx.cursor.rest)) := by
    rw [htext]
    simp only [byteLength_append]
    omega
  rw [hbytes] at htokens
  exact ⟨hreaches.insertBefore hstart rfl htext hfeed line, herror, htokens⟩

/-- A comment between the lines of a bracket. -/
theorem drain_insert_blankLine_bracket :
    ∃ lx, Reaches false ⟨"(\nx)\n".toList, none⟩ lx ∧ lx.nesting = 1 ∧
      (lx.insert " # y\n".toList).drain.2.1 = none ∧
      List.Forall₂ (Token.Lowered True)
        [⟨.word, "x", 2, some 0⟩, ⟨.rpar, ")", 2, some 1⟩, ⟨.newline, "", 2, some 2⟩,
          ⟨.endMarker, "", 3, none⟩] (lx.insert " # y\n".toList).drain.1 := by
  have hopened : ∀ e, ([Request.next].foldl Lexer.after
      (ofSource false ⟨"(\nx)\n".toList, none⟩)).stop ≠ .failed e := by
    have hrunning : ([Request.next].foldl Lexer.after
        (ofSource false ⟨"(\nx)\n".toList, none⟩)).stop = .running := by decide +kernel
    rw [hrunning]
    exact fun e => StopReason.noConfusion
  have hturn : ([Request.next].foldl Lexer.after
      (ofSource false ⟨"(\nx)\n".toList, none⟩)).leaveLine.turn = (.nothing,
        { ofSource false ⟨"(\nx)\n".toList, none⟩ with
          cursor := ⟨"x)\n".toList, 2, 2, 2, "x)\n".toList⟩
          nesting := 1 }) := by decide +kernel
  have hreaches := Reaches.within [.next] hopened (.cons hturn (.nil _))
  have hdrain : { ofSource false ⟨"(\nx)\n".toList, none⟩ with
      cursor := ⟨"x)\n".toList, 2, 2, 2, "x)\n".toList⟩
      nesting := 1 }.drain.1 = [⟨.word, "x", 2, some 0⟩, ⟨.rpar, ")", 2, some 1⟩,
        ⟨.newline, "", 2, some 2⟩, ⟨.endMarker, "", 3, none⟩] := by decide +kernel
  have hline : IsBlankLine ([' '] ++ (['#', ' ', 'y'] ++ ['\n'])) := by
    refine .mk ?_ (forall_mem_head?_cons.2 rfl) (by decide) (by decide)
    exact fun c hc => List.mem_singleton.1 hc ▸ rfl
  obtain ⟨_, herror, htokens⟩ := drain_insert_blankLine hreaches rfl ⟨rfl, rfl⟩
    (show "(\nx)\n".toList = "(\n".toList ++ "x)\n".toList by decide)
    (Or.inr ⟨['('], by decide⟩) hline
  refine ⟨_, hreaches, rfl, herror.trans (by decide +kernel), ?_⟩
  rw [hdrain] at htokens
  have hfits : ∀ t u, Token.Lowered (byteLength ("(\n".toList ++
      (([' '] ++ (['#', ' ', 'y'] ++ ['\n'])) ++ "x)\n".toList)) ≤ maxPosition) t u →
        Token.Lowered True t u := by
    intro t u h
    exact ⟨h.kind, h.line, h.told.imp_right fun hlost => absurd (by decide) hlost.1⟩
  exact htokens.imp hfits

/-- A comment line that is put in before a word puts it past the largest position, where it has lost
its column and its text. -/
theorem drain_insert_blankLine_past_positions :
    Reaches false ⟨['x', '\n'], some "iso-8859-1"⟩
        (ofSource false ⟨['x', '\n'], some "iso-8859-1"⟩) ∧
      IsBlankLine (longComment 2147483648 ++ ['\n']) ∧
      Source.decode .cookie (some "latin-1")
        (0x23 :: (List.replicate 2147483648 0xE9 ++ [10, 0x78, 10])) =
          .ok ⟨longComment 2147483648 ++ ['\n', 'x', '\n'], some "iso-8859-1"⟩ ∧
      (ofSource false ⟨['x', '\n'], some "iso-8859-1"⟩).insert
        (longComment 2147483648 ++ ['\n']) =
          ofSource false ⟨longComment 2147483648 ++ ['\n', 'x', '\n'], some "iso-8859-1"⟩ ∧
      (ofSource false ⟨['x', '\n'], some "iso-8859-1"⟩).tokens.1 =
        .ok [⟨.word, "x", 1, some 0⟩, ⟨.newline, "", 1, some 1⟩, ⟨.endMarker, "", 2, none⟩] ∧
      (ofSource false ⟨longComment 2147483648 ++ ['\n', 'x', '\n'], some "iso-8859-1"⟩).tokens.1 =
        .ok [⟨.word, "", 2, none⟩, ⟨.newline, "", 2, none⟩, ⟨.endMarker, "", 3, none⟩] := by
  have hline : IsBlankLine ([] ++ (longComment 2147483648 ++ ['\n'])) :=
    .mk (fun c hc => absurd hc List.not_mem_nil) (forall_mem_head?_cons.2 rfl)
      (unbroken_longComment _) (tag?_longComment _)
  have hinsert : ∀ line : List Char, (ofSource false ⟨['x', '\n'], some "iso-8859-1"⟩).insert line =
      ofSource false ⟨line ++ ['x', '\n'], some "iso-8859-1"⟩ := by
    intro line
    have htext : Text.insertBefore line ['x', '\n'] ['x', '\n'] = line ++ ['x', '\n'] :=
      insertBefore_self _ _
    rw [← htext]
    rfl
  refine ⟨.between [], hline, Source.decode_longComment (by decide) (by decide), ?_,
    by decide +kernel, ?_⟩
  · rw [hinsert, List.append_assoc]
    rfl
  · show (ofSource false ⟨longComment 2147483648 ++ (['\n'] ++ (['x'] ++ ['\n'])),
      some "iso-8859-1"⟩).tokens.1 = _
    exact tokens_longComment_of_le rfl (Or.inl rfl) rfl (by decide) (by decide) (by decide) rfl

end Lexer
end Offside
