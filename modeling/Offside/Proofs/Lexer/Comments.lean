import Offside.Proofs.Lexer.Gaps
import Offside.Proofs.Lexer.Stops

/-!
Where comments are read. A lexer hands out lexemes by taking turns, of which some give none; what
it makes of a piece of text is told by the turn that it takes there. A line that is blank or a
comment is read in at most two turns, and leaves a lexer at the start of the next line. So the
comments at the start of a text are found without a look at the blocks and brackets of a lexer.
-/

namespace Offside.Lexer

open Text Cursor

variable {lx ly lz : Lexer} {cur : Cursor} {x : Lexeme} {blanks body br rest : List Char}

/-- Turns that give no token lead from one lexer to the other. -/
inductive Skips : Lexer → Lexer → Prop
  | nil (lx : Lexer) : Skips lx lx
  | cons {lx ly lz : Lexer} (h : lx.turn = (.nothing, ly)) (hrest : Skips ly lz) : Skips lx lz

theorem Skips.concat (h : Skips lx ly) (hturn : ly.turn = (.nothing, lz)) : Skips lx lz := by
  induction h with
  | nil => exact .cons hturn (.nil lz)
  | cons hfirst _ ih => exact .cons hfirst (ih hturn)

theorem Skips.scan (h : Skips lx ly) : lx.scan = ly.scan := by
  induction h with
  | nil => rfl
  | cons hturn _ ih => rw [scan_of_nothing hturn, ih]

/-- Between some lexemes that were handed out and the next, a lexer takes a turn. -/
def TakesTurn (lx ly : Lexer) : Prop :=
  ∃ xs lz, Yields lx xs lz ∧ (∀ e, lz.stop ≠ .failed e) ∧ Skips lz.leaveLine ly

theorem takesTurn_start (hlive : ∀ e, lx.stop ≠ .failed e) (hline : lx.lineEnded = false) :
    TakesTurn lx lx := by
  refine ⟨[], lx, .nil lx, hlive, ?_⟩
  rw [leaveLine_of_same_line hline]
  exact .nil lx

theorem TakesTurn.nothing (h : TakesTurn lx ly) (hturn : ly.turn = (.nothing, lz)) :
    TakesTurn lx lz := by
  obtain ⟨xs, lw, hyields, hlive, hskips⟩ := h
  exact ⟨xs, lw, hyields, hlive, hskips.concat hturn⟩

theorem TakesTurn.lexeme (h : TakesTurn lx ly) (hturn : ly.turn = (.lexeme x, lz))
    (hx : x.kind ≠ .endMarker) : TakesTurn lx lz.leaveLine := by
  obtain ⟨xs, lw, hyields, hlive, hskips⟩ := h
  have hnext : lw.next = (.ok x, lz) := by
    rw [next_of_not_failed hlive, hskips.scan]
    exact scan_of_lexeme hturn
  refine ⟨xs ++ [x], lz, hyields.append (.cons hnext (.nil lz)), fun e => ?_, .nil _⟩
  rw [stop_of_next hnext hx]
  exact hlive e

/-- A turn that reads a comment, and the place where the comment starts. -/
structure ReadsComment (lx : Lexer) (cur : Cursor) (body rest : List Char) : Prop where
  turn : ∃ ly, lx.Settles ly ∧ lx.turn = ly.skipLayout.comment ∧ ly.skipLayout.cursor = cur
  ahead : cur.rest = body ++ rest
  comment : IsComment body rest

/-- A part of a text stands in a comment that a lexer reads, and that starts on a line. -/
def InComment (lx : Lexer) (line : Nat) (before part after : List Char) : Prop :=
  ∃ opened front tail rest ly cur, before = opened ++ '#' :: front ∧ after = tail ++ rest ∧
    Placed (before ++ (part ++ after)) opened cur ∧ line = 1 + (breakEnds opened).length ∧
    TakesTurn lx ly ∧
    ReadsComment ly cur ('#' :: (front ++ (part ++ tail))) rest

/-- A line starts, and nothing is due before it. -/
structure AtLine (lx : Lexer) : Prop where
  owes : lx.OwesNothing
  starts : lx.atLineStart = true
  sameLine : lx.lineEnded = false

theorem atLine_ofSource (asyncAlways : Bool) (s : Source) : (ofSource asyncAlways s).AtLine :=
  ⟨⟨rfl, rfl⟩, rfl, rfl⟩

theorem skipLayout_of_head (h : ∀ c ∈ lx.cursor.rest.head?, isLayout c = false) :
    lx.skipLayout = lx := by
  have hblanks : lx.cursor.rest.takeWhile isLayout = [] := by
    cases hrest : lx.cursor.rest with
    | nil => rfl
    | cons c rest =>
      rw [hrest] at h
      rw [List.takeWhile_cons, h c rfl, if_neg Bool.false_ne_true]
  rw [skipLayout, hblanks]
  show { lx with cursor := lx.cursor.advance [] } = lx
  rw [Cursor.advance]

/-- The blanks at the start of a line are crossed, and no more. -/
theorem crosses_blanks (hrest : lx.cursor.rest = blanks ++ rest)
    (hblanks : ∀ c ∈ blanks, isLayout c = true) (hhead : ∀ c ∈ rest.head?, isLayout c = false) :
    Crosses blanks lx.cursor lx.skipLayout.cursor ∧ lx.skipLayout.cursor.rest = rest := by
  have hcrosses := crosses_skipLayout lx
  rw [hrest, takeWhile_append_of_head hblanks hhead] at hcrosses
  exact ⟨hcrosses, by rw [rest_skipLayout, hrest, dropWhile_append_of_head hblanks hhead]⟩

/-- A line that is blank or a comment is no matter of blocks. -/
theorem AtLine.turn_of_blank {c : Char} {more : List Char} (h : lx.AtLine)
    (hrest : lx.skipLayout.cursor.rest = c :: more) (hc : (c == '#' || isBreak c) = true) :
    lx.Settles (lx.startLine true) ∧ lx.turn = (lx.startLine true).turn := by
  have hmeasure : lx.measureLine = (none, lx.startLine true) := by
    rw [measureLine_of_code hrest, hc, Bool.true_or, if_pos rfl]
  have howes : (lx.startLine true).OwesNothing := h.owes
  refine ⟨Or.inl ⟨h.starts, hmeasure⟩, ?_⟩
  rw [turn_of_measure h.owes h.starts, hmeasure, turn_of_body howes rfl]
  dsimp only
  rw [takeDue?_eq_none_iff.2 howes]

theorem skipLayout_startLine {c : Char} {more : List Char} (blank : Bool)
    (hrest : lx.skipLayout.cursor.rest = c :: more) (hc : isLayout c = false) :
    (lx.startLine blank).skipLayout = lx.startLine blank := by
  have hrest' : (lx.startLine blank).cursor.rest = c :: more := hrest
  refine skipLayout_of_head ?_
  rw [hrest']
  exact forall_mem_head?_cons.2 hc

theorem AtLine.turn_of_comment (h : lx.AtLine) {more : List Char}
    (hrest : lx.skipLayout.cursor.rest = '#' :: more) : lx.turn = (lx.startLine true).comment := by
  have hskip := skipLayout_startLine true hrest rfl
  have howes : (lx.startLine true).OwesNothing := h.owes
  have hrest' : (lx.startLine true).skipLayout.cursor.rest = '#' :: more := by
    rw [hskip]
    exact hrest
  rw [(h.turn_of_blank hrest rfl).2, turn_of_body howes rfl, body_of_comment hrest', hskip]

/-- A hash at the start of a line, but for blanks, starts a comment. -/
theorem AtLine.readsComment (h : lx.AtLine) {more : List Char}
    (hrest : lx.skipLayout.cursor.rest = '#' :: more) :
    ReadsComment lx lx.skipLayout.cursor (('#' :: more).takeWhile fun c => !isBreak c)
      (('#' :: more).dropWhile fun c => !isBreak c) := by
  have hskip := skipLayout_startLine true hrest rfl
  refine ⟨⟨lx.startLine true, (h.turn_of_blank hrest rfl).1, ?_, by rw [hskip]; rfl⟩, ?_, ?_⟩
  · rw [h.turn_of_comment hrest, hskip]
  · rw [hrest, List.takeWhile_append_dropWhile]
  · rw [← hrest]
    exact isComment_takeWhile hrest

theorem isLayout_of_isBreak {c : Char} (h : isBreak c = true) : isLayout c = false :=
  eq_false_of_isBreak (by decide) (by decide) h

theorem exists_cons_of_lineBreak? {text : List Char} (h : lineBreak? text = some (br, rest)) :
    ∃ c more, text = c :: more ∧ isBreak c = true := by
  obtain ⟨rfl, -, rfl | rfl | rfl⟩ := lineBreak?_eq_some h
  all_goals exact ⟨_, _, rfl, rfl⟩

/-- A line break behind nothing but blanks and comments gives no token. -/
theorem turn_of_break (howes : lx.OwesNothing) (hstart : lx.atLineStart = false)
    (hblank : lx.blankLine = true) (hbreak : lineBreak? lx.cursor.rest = some (br, rest)) :
    lx.turn = (.nothing, lx.readBreak br) := by
  obtain ⟨c, more, hrest, hc⟩ := exists_cons_of_lineBreak? hbreak
  have hskip : lx.skipLayout = lx := by
    refine skipLayout_of_head ?_
    rw [hrest]
    exact forall_mem_head?_cons.2 (isLayout_of_isBreak hc)
  have hhash : c ≠ '#' := fun heq => absurd (heq ▸ hc) (by decide)
  have hslash : c ≠ '\\' := fun heq => absurd (heq ▸ hc) (by decide)
  have hrest' : lx.skipLayout.cursor.rest = c :: more := by rw [hskip, hrest]
  rw [turn_of_body howes hstart, body_of_code hrest' hhash hslash, hskip, hbreak]
  dsimp only
  rw [lineBreak_eq, hblank, Bool.true_or, if_pos rfl]

/-- A lexer that has read a line break starts a line behind it. -/
theorem atLine_readBreak (howes : lx.OwesNothing) (hline : lx.lineEnded = false) :
    (lx.readBreak br).AtLine :=
  ⟨howes, rfl, hline⟩

/-- After a comment that is alone on its line, a lexer stands behind the line break. -/
theorem TakesTurn.comment (h : TakesTurn lx ly) (hturn : ly.turn = lz.comment)
    (howes : lz.OwesNothing) (hline : lz.lineEnded = false) (hstart : lz.atLineStart = false)
    (hblank : lz.blankLine = true) (hrest : lz.cursor.rest = body ++ (br ++ rest))
    (hbody : IsComment body (br ++ rest)) (hbreak : lineBreak? (br ++ rest) = some (br, rest)) :
    TakesTurn lx ((lz.advance body).readBreak br) := by
  have htake : lz.cursor.rest.takeWhile (fun c => !isBreak c) = body := by
    rw [hrest]
    refine takeWhile_append_of_head (fun c hc => ?_) fun c hc => ?_
    · rw [hbody.unbroken c hc, Bool.not_false]
    · rw [hbody.ends c hc, Bool.not_true]
  have hafter : (lz.advance body).cursor.rest = br ++ rest := by
    rw [rest_advance, hrest, List.drop_left]
  rw [comment_eq, htake] at hturn
  have hblank' : (lz.advance body).blankLine = true := hblank
  cases htag : Pragma.tag? body with
  | none =>
    have howes' : (lz.advance body).OwesNothing := howes
    have hstart' : (lz.advance body).atLineStart = false := hstart
    have hbreak' : lineBreak? (lz.advance body).cursor.rest = some (br, rest) := by
      rw [hafter, hbreak]
    rw [htag] at hturn
    exact (h.nothing hturn).nothing (turn_of_break howes' hstart' hblank' hbreak')
  | some tag =>
    have hpragma : (lz.advance body).afterPragma = (lz.advance body).readBreak br := by
      rw [afterPragma, hafter, hbreak]
      dsimp only
      rw [if_pos hblank']
    have hline' : ((lz.advance body).readBreak br).lineEnded = false := hline
    rw [htag] at hturn
    dsimp only at hturn
    rw [hpragma] at hturn
    have hlexeme := h.lexeme hturn (by rw [Cursor.kind_lexeme]; decide)
    rwa [leaveLine_of_same_line hline'] at hlexeme

/-- A blank line leads to the next line. -/
theorem TakesTurn.nextLine_of_blank (h : TakesTurn lx ly) (hly : ly.AtLine)
    (hrest : ly.cursor.rest = blanks ++ (br ++ rest)) (hblanks : ∀ c ∈ blanks, isLayout c = true)
    (hbreak : lineBreak? (br ++ rest) = some (br, rest)) :
    ∃ lz, TakesTurn lx lz ∧ lz.AtLine ∧ Crosses (blanks ++ br) ly.cursor lz.cursor := by
  have howes : (ly.startLine true).OwesNothing := hly.owes
  obtain ⟨b, more, hbr, hb⟩ := exists_cons_of_lineBreak? hbreak
  have hhead : ∀ c ∈ (br ++ rest).head?, isLayout c = false := by
    rw [hbr]
    exact forall_mem_head?_cons.2 (isLayout_of_isBreak hb)
  obtain ⟨hcrosses, hskip⟩ := crosses_blanks hrest hblanks hhead
  have hbreak' : lineBreak? (ly.startLine true).cursor.rest = some (br, rest) := by
    show lineBreak? ly.skipLayout.cursor.rest = _
    rw [hskip, hbreak]
  have hcode : (b == '#' || isBreak b) = true := by rw [hb, Bool.or_true]
  have hturn := (hly.turn_of_blank (hskip.trans hbr) hcode).2
  rw [turn_of_break howes rfl rfl hbreak'] at hturn
  exact ⟨_, h.nothing hturn, atLine_readBreak howes hly.sameLine,
    hcrosses.trans (crosses_lineBreak hbreak')⟩

/-- A line that is a comment leads to the next line. -/
theorem TakesTurn.nextLine_of_comment (h : TakesTurn lx ly) (hly : ly.AtLine)
    (hrest : ly.cursor.rest = blanks ++ ('#' :: body ++ (br ++ rest)))
    (hblanks : ∀ c ∈ blanks, isLayout c = true) (hbody : Unbroken ('#' :: body))
    (hbreak : lineBreak? (br ++ rest) = some (br, rest)) :
    ∃ lz, TakesTurn lx lz ∧ lz.AtLine ∧
      Crosses (blanks ++ ('#' :: body ++ br)) ly.cursor lz.cursor := by
  have howes : (ly.startLine true).OwesNothing := hly.owes
  obtain ⟨b, more, hbr, hb⟩ := exists_cons_of_lineBreak? hbreak
  have hcomment : IsComment ('#' :: body) (br ++ rest) := by
    refine ⟨rfl, hbody, ?_⟩
    rw [hbr]
    exact forall_mem_head?_cons.2 hb
  obtain ⟨hcrosses, hskip⟩ := crosses_blanks hrest hblanks (forall_mem_head?_cons.2 rfl)
  have hunbroken : Crosses ('#' :: body) ly.skipLayout.cursor
      (ly.skipLayout.cursor.advance ('#' :: body)) :=
    crosses_advance hskip (not_splits_of_unbroken hbody _)
  have hbreak' :
      lineBreak? (ly.skipLayout.cursor.advance ('#' :: body)).rest = some (br, rest) := by
    rw [Cursor.rest_advance, hskip, List.drop_left, hbreak]
  exact ⟨_, h.comment (hly.turn_of_comment hskip) howes hly.sameLine rfl rfl hskip hcomment hbreak,
    atLine_readBreak howes hly.sameLine,
    hcrosses.trans (hunbroken.trans (crosses_lineBreak hbreak'))⟩

/-- A line that is blank or a comment leads to the next line. -/
theorem TakesTurn.nextLine (h : TakesTurn lx ly) (hly : ly.AtLine)
    (hrest : ly.cursor.rest = blanks ++ (body ++ (br ++ rest)))
    (hblanks : ∀ c ∈ blanks, isLayout c = true) (hbody : Unbroken body)
    (hhash : ∀ c ∈ body.head?, c = '#') (hbreak : lineBreak? (br ++ rest) = some (br, rest)) :
    ∃ lz, TakesTurn lx lz ∧ lz.AtLine ∧ Crosses (blanks ++ (body ++ br)) ly.cursor lz.cursor := by
  cases body with
  | nil => exact h.nextLine_of_blank hly hrest hblanks hbreak
  | cons c comment =>
    obtain rfl : c = '#' := hhash c rfl
    exact h.nextLine_of_comment hly hrest hblanks hbody hbreak

/-- A line without code is read in at most two turns, neither of which gives a token. -/
theorem AtLine.skips (h : lx.AtLine) {comment : List Char}
    (hrest : lx.cursor.rest = blanks ++ (comment ++ (br ++ rest)))
    (hblanks : ∀ c ∈ blanks, isLayout c = true) (hhash : ∀ c ∈ comment.head?, c = '#')
    (hcomment : Unbroken comment) (htag : Pragma.tag? comment = none)
    (hbreak : lineBreak? (br ++ rest) = some (br, rest)) :
    Skips lx (((lx.startLine true).advance comment).readBreak br) ∧
      Crosses (blanks ++ (comment ++ br)) lx.cursor
        (((lx.startLine true).advance comment).readBreak br).cursor := by
  have howes : (lx.startLine true).OwesNothing := h.owes
  obtain ⟨b, more, hbr, hb⟩ := exists_cons_of_lineBreak? hbreak
  have hhead : ∀ c ∈ (comment ++ (br ++ rest)).head?, isLayout c = false := by
    cases comment with
    | nil =>
      rw [List.nil_append, hbr]
      exact forall_mem_head?_cons.2 (isLayout_of_isBreak hb)
    | cons c comment =>
      obtain rfl : c = '#' := hhash c rfl
      exact forall_mem_head?_cons.2 rfl
  obtain ⟨hcrosses, hskip⟩ := crosses_blanks hrest hblanks hhead
  have hbreak' : lineBreak? ((lx.startLine true).advance comment).cursor.rest =
      some (br, rest) := by
    have hrest' : (lx.startLine true).cursor.rest = comment ++ (br ++ rest) := hskip
    rw [rest_advance_of_append hrest', hbreak]
  refine ⟨?_, hcrosses.trans
    ((crosses_advance hskip (not_splits_of_unbroken hcomment _)).trans
      (crosses_lineBreak hbreak'))⟩
  cases comment with
  | nil =>
    have hcode : (b == '#' || isBreak b) = true := by rw [hb, Bool.or_true]
    have hturn := (h.turn_of_blank (hskip.trans hbr) hcode).2
    rw [advance_nil] at hbreak' ⊢
    rw [turn_of_break howes rfl rfl hbreak'] at hturn
    exact .cons hturn (.nil _)
  | cons c comment =>
    obtain rfl : c = '#' := hhash c rfl
    have htake : (lx.startLine true).cursor.rest.takeWhile (fun c => !isBreak c) =
        '#' :: comment := by
      show lx.skipLayout.cursor.rest.takeWhile _ = _
      rw [hskip, hbr]
      refine takeWhile_append_of_head (fun c hc => ?_) (forall_mem_head?_cons.2 ?_)
      · rw [hcomment c hc, Bool.not_false]
      · rw [hb, Bool.not_true]
    have hturn := h.turn_of_comment hskip
    rw [comment_eq, htake, htag] at hturn
    have howes' : ((lx.startLine true).advance ('#' :: comment)).OwesNothing := h.owes
    exact .cons hturn (.cons (turn_of_break howes' rfl rfl hbreak') (.nil _))

/-- Such a line is one line. -/
theorem length_breakEnds_line (hblanks : ∀ c ∈ blanks, isLayout c = true) (hbody : Unbroken body)
    (hbreak : lineBreak? (br ++ rest) = some (br, rest)) :
    (breakEnds (blanks ++ (body ++ br))).length = 1 := by
  have hline : Unbroken (blanks ++ body) :=
    unbroken_append.2 ⟨unbroken_of_forall (by decide) (by decide) hblanks, hbody⟩
  rw [breakEnds, ← List.append_assoc, breakEndsFrom_append _ (not_splits_of_unbroken hline br),
    breakEndsFrom_of_unbroken _ hline]
  obtain ⟨-, -, rfl | rfl | rfl⟩ := lineBreak?_eq_some hbreak
  · rw [breakEndsFrom_joined]
    rfl
  all_goals rfl

/-- What stands in the line behind a hash, with only blanks before it, stands in a comment. -/
theorem TakesTurn.inComment (h : TakesTurn lx ly) (hly : ly.AtLine)
    {opened front before part after : List Char}
    (hplaced : Placed (before ++ (part ++ after)) opened ly.cursor)
    (hbefore : before = opened ++ (blanks ++ '#' :: front))
    (hblanks : ∀ c ∈ blanks, isLayout c = true) (hfront : Unbroken front) (hpart : Unbroken part) :
    lx.InComment (1 + (breakEnds opened).length) before part after := by
  subst hbefore
  have hrest : ly.cursor.rest = blanks ++ '#' :: (front ++ (part ++ after)) := by
    have htext := hplaced.text_eq
    rw [List.append_assoc, List.append_assoc, List.cons_append] at htext
    exact (List.append_cancel_left htext).symm
  obtain ⟨hcrosses, hskip⟩ := crosses_blanks hrest hblanks (forall_mem_head?_cons.2 rfl)
  have hline : 1 + (breakEnds opened).length = 1 + (breakEnds (opened ++ blanks)).length := by
    rw [breakEnds_append_of_unbroken _ (unbroken_of_forall (by decide) (by decide) hblanks)]
  have hcode : ∀ c ∈ '#' :: (front ++ part), (!isBreak c) = true := by
    have hall : Unbroken ('#' :: (front ++ part)) :=
      unbroken_cons.2 ⟨by decide, unbroken_append.2 ⟨hfront, hpart⟩⟩
    intro c hc
    rw [hall c hc, Bool.not_false]
  have hsplit : '#' :: (front ++ (part ++ after)) = '#' :: (front ++ part) ++ after := by
    rw [List.cons_append, List.append_assoc]
  have hreads := hly.readsComment hskip
  rw [hsplit, List.takeWhile_append_of_pos hcode, List.dropWhile_append_of_pos hcode,
    List.cons_append, List.append_assoc] at hreads
  refine ⟨opened ++ blanks, front, _, _, ly, ly.skipLayout.cursor, ?_,
    List.takeWhile_append_dropWhile.symm, hplaced.crosses hcrosses, hline, h, hreads⟩
  rw [List.append_assoc]

end Offside.Lexer
