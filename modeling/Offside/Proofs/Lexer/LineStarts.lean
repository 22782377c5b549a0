import Offside.Proofs.Lexer.Balance
import Offside.Proofs.Lexer.Insertions

/-!
Lexers before a piece that is put in where a line starts. Turn by turn such a lexer does what it
does without the piece, up to the line feed before it. Either it then stands at the start of the
line, or it has passed the place within a literal or behind a backslash, or it has gone on. Past the
place it starts a line only further on.
-/

namespace Offside.Lexer

open Text

variable {lx ly : Lexer} {n : Nat} {piece rest ahead read left br : List Char}

/-- A lexer in a text with a piece put in before `rest`. -/
def insertBefore (piece rest : List Char) (lx : Lexer) : Lexer :=
  lx.onto (Text.insertBefore piece rest lx.text) (lx.cursor.insertBefore piece rest)

theorem advance_insertBefore (h : lx.cursor.rest = read ++ (ahead ++ rest)) (piece : List Char) :
    (lx.insertBefore piece rest).advance read = (lx.advance read).insertBefore piece rest :=
  congrArg (lx.onto (Text.insertBefore piece rest lx.text)) (Cursor.advance_insertBefore h piece)

theorem rest_insertBefore (h : lx.cursor.rest = ahead ++ rest) (piece : List Char) :
    (lx.insertBefore piece rest).cursor.rest = ahead ++ (piece ++ rest) := by
  show Text.insertBefore piece rest lx.cursor.rest = _
  rw [h, insertBefore_append]

theorem leaveLine_insertBefore (piece rest : List Char) (lx : Lexer) :
    (lx.insertBefore piece rest).leaveLine = lx.leaveLine.insertBefore piece rest := by
  have hended : (lx.insertBefore piece rest).lineEnded = lx.lineEnded := rfl
  unfold leaveLine
  rw [hended]
  split <;> rfl

theorem applyIndent_insertBefore (m : Measure) (piece rest : List Char) (lx : Lexer) :
    (lx.insertBefore piece rest).applyIndent m =
      ((lx.applyIndent m).1, (lx.applyIndent m).2.insertBefore piece rest) := by
  have htext : (lx.applyIndent m).2.text = lx.text := by rw [applyIndent_frame]
  rw [insertBefore, applyIndent_onto, insertBefore, (applyIndent_stays m lx).1, htext]

theorem nest_insertBefore (kind : Kind) (piece rest : List Char) (lx : Lexer) :
    (lx.insertBefore piece rest).nest kind = (lx.nest kind).insertBefore piece rest := by
  have htext : (lx.nest kind).text = lx.text := by rw [nest_frame]
  rw [insertBefore, nest_onto, insertBefore, (nest_rest kind lx).1, htext]

theorem takeDue?_insertBefore (piece rest : List Char) (lx : Lexer) :
    (lx.insertBefore piece rest).takeDue? =
      lx.takeDue?.map fun due => (due.1, due.2.insertBefore piece rest) := by
  have hdedents : (lx.insertBefore piece rest).pendingDedents = lx.pendingDedents := rfl
  have hindent : (lx.insertBefore piece rest).pendingIndent = lx.pendingIndent := rfl
  unfold takeDue?
  rw [hdedents, hindent]
  split
  · rfl
  · split <;> rfl

/-- Handing out what is due moves nothing. -/
theorem takeDue?_stays {x : Lexeme} (h : lx.takeDue? = some (x, ly)) :
    ly.cursor = lx.cursor ∧ ly.atLineStart = lx.atLineStart := by
  unfold takeDue? at h
  split at h
  · obtain ⟨-, rfl⟩ := Prod.mk.inj (Option.some.inj h)
    exact ⟨rfl, rfl⟩
  · split at h
    · obtain ⟨-, rfl⟩ := Prod.mk.inj (Option.some.inj h)
      exact ⟨rfl, rfl⟩
    · cases h

/-- A lexer that has no more than the last `n` characters to read, and that does not start a line
before these. -/
structure Past (n : Nat) (lx : Lexer) : Prop where
  le : lx.cursor.rest.length ≤ n
  lt : lx.atLineStart = true → lx.cursor.rest.length < n

theorem past_of_measured (hle : lx.cursor.rest.length ≤ n) (hstart : lx.atLineStart = false) :
    Past n lx := by
  refine ⟨hle, fun h => ?_⟩
  rw [hstart] at h
  cases h

/-- Only what is left to read counts, and whether a line is to start. -/
theorem Past.of_same (h : Past n lx) (hrest : ly.cursor.rest = lx.cursor.rest)
    (hline : ly.atLineStart = lx.atLineStart) : Past n ly := by
  refine ⟨?_, ?_⟩
  · rw [hrest]
    exact h.le
  · rw [hrest, hline]
    exact h.lt

theorem Past.leaveLine (h : Past n lx) : Past n lx.leaveLine := by
  unfold Lexer.leaveLine
  split
  · exact h.of_same rfl rfl
  · exact h

theorem length_advance_le (read : List Char) (h : lx.cursor.rest.length ≤ n) :
    (lx.advance read).cursor.rest.length ≤ n := by
  rw [rest_length_advance]
  exact Nat.le_trans (Nat.sub_le _ _) h

theorem length_lt_of_lineBreak? {text : List Char} (h : lineBreak? text = some (br, left)) :
    left.length < text.length := by
  obtain ⟨happend, hne⟩ := append_of_lineBreak? h
  have hpos := List.length_pos_iff.2 hne
  rw [← happend, List.length_append]
  omega

theorem past_readBreak (hle : lx.cursor.rest.length ≤ n)
    (hbreak : lineBreak? lx.cursor.rest = some (br, left)) : Past n (lx.readBreak br) := by
  have hrest : (lx.readBreak br).cursor.rest = left :=
    rest_advance_of_append (lineBreak?_eq_some hbreak).1
  have hlt := length_lt_of_lineBreak? hbreak
  refine ⟨?_, fun _ => ?_⟩
  all_goals
    rw [hrest]
    omega

theorem Piece.past {r : Outcome × Lexer} (h : Piece lx r) (hle : lx.cursor.rest.length ≤ n)
    (hstart : lx.atLineStart = false) : Past n r.2 := by
  cases h with
  | ended => exact past_of_measured hle hstart
  | comment => exact past_of_measured (length_advance_le _ hle) hstart
  | pragma =>
    have hadvance : ∀ read, (lx.advance read).cursor.rest.length ≤ n :=
      fun read => length_advance_le read hle
    show Past n (lx.advance _).afterPragma
    unfold afterPragma
    split
    · next hbreak =>
      split
      · exact past_readBreak (hadvance _) hbreak
      · exact past_of_measured (hadvance _) hstart
    · exact past_of_measured (hadvance _) hstart
  | blankBreak hbreak => exact past_readBreak hle hbreak
  | @newline br left hbreak =>
    have hrest : (lx.endCode br).cursor.rest = left := by
      show (lx.cursor.skip br).rest = left
      rw [Cursor.rest_skip, (lineBreak?_eq_some hbreak).1, List.drop_left]
    have hlt := length_lt_of_lineBreak? hbreak
    refine ⟨?_, fun _ => ?_⟩
    all_goals
      rw [hrest]
      omega
  | joined => exact past_of_measured (length_advance_le _ (length_advance_le _ hle)) hstart
  | brokenOff => exact past_of_measured (length_advance_le _ (length_advance_le _ hle)) hstart
  | stray => exact past_of_measured (length_advance_le _ hle) hstart
  | literal => exact past_of_measured (length_advance_le _ hle) hstart
  | unended => exact past_of_measured (length_advance_le _ hle) hstart
  | @plain kind kind' read left ly _ _ hclassify =>
    have hframe := plain_frame hclassify
    have hcursor : ly.cursor = (lx.advance read).cursor := by rw [hframe]
    have hline : ly.atLineStart = lx.atLineStart := by
      rw [hframe]
      rfl
    refine past_of_measured ?_ (hline.trans hstart)
    show ly.cursor.rest.length ≤ n
    rw [hcursor]
    exact length_advance_le _ hle
  | bad => exact past_of_measured (length_advance_le _ hle) hstart

theorem Settles.cursor (h : lx.Settles ly) :
    ly.cursor = lx.skipLayout.cursor ∨ ly.cursor = lx.cursor := by
  rcases h with ⟨-, hmeasure⟩ | ⟨-, rfl⟩
  · have hframe := measureLine_frame lx
    rw [hmeasure] at hframe
    dsimp only at hframe
    rw [hframe]
    exact Or.inl rfl
  · exact Or.inr rfl

/-- A lexer that has to measure its line, or to read on, passes the place where it stands. -/
theorem past_of_turn (howes : lx.OwesNothing) (hle : lx.cursor.rest.length ≤ n) :
    Past n lx.turn.2 := by
  have hskip : lx.skipLayout.cursor.rest.length ≤ n := length_advance_le _ hle
  have hsettled : ∀ {ly}, lx.Settles ly → ly.cursor.rest.length ≤ n := by
    intro ly hsettles
    rcases hsettles.cursor with hcursor | hcursor
    · rwa [hcursor]
    · rwa [hcursor]
  have hturned := turned lx
  generalize lx.turn = r at hturned
  cases hturned with
  | due hdue =>
    rw [takeDue?_eq_none_iff.2 howes] at hdue
    cases hdue
  | misplaced _ _ hmeasure =>
    have hframe := measureLine_frame lx
    rw [hmeasure] at hframe
    dsimp only at hframe ⊢
    rw [hframe]
    exact past_of_measured hskip rfl
  | indented _ hsettles hdue =>
    obtain ⟨hcursor, hline⟩ := takeDue?_stays hdue
    refine past_of_measured ?_ (hline.trans hsettles.measured)
    dsimp only
    rw [hcursor]
    exact hsettled hsettles
  | @read ly _ _ hsettles _ hpiece =>
    exact hpiece.past (length_advance_le _ (hsettled hsettles)) hsettles.measured

theorem Past.turn (h : Past n lx) : Past n lx.turn.2 := by
  cases hdue : lx.takeDue? with
  | none => exact past_of_turn (takeDue?_eq_none_iff.1 hdue) h.le
  | some due =>
    obtain ⟨x, ly⟩ := due
    obtain ⟨hcursor, hline⟩ := takeDue?_stays hdue
    rw [turn_of_due hdue]
    exact h.of_same (congrArg Cursor.rest hcursor) hline

theorem Past.scan (h : Past n lx) : Past n lx.scan.2 := by
  have hturn' := h.turn
  fun_induction Lexer.scan lx with
  | case1 lx x ly hturn =>
    rw [hturn] at hturn'
    exact hturn'
  | case2 lx e ly hturn =>
    rw [hturn] at hturn'
    exact hturn'.of_same rfl rfl
  | case3 lx ly hturn _ ih =>
    rw [hturn] at hturn'
    exact ih hturn' (Past.turn hturn')

theorem Past.after (h : Past n lx) (request : Request) : Past n (lx.after request) := by
  cases request with
  | next =>
    show Past n lx.next.2
    unfold Lexer.next
    split
    · exact h
    · exact h.leaveLine.scan
  | queueDedents k => exact h.of_same rfl rfl

/-- A lexer before the place where `rest` starts, which is the start of a line: a line feed is still
to come before `rest`, or the lexer has come to start the line. -/
inductive UpTo (rest : List Char) (lx : Lexer) : Prop
  | before {ahead : List Char} (hfeed : EndsInFeed ahead) (hrest : lx.cursor.rest = ahead ++ rest)
  | here (hrest : lx.cursor.rest = rest) (hstart : lx.atLineStart = true)

/-- Only what is left to read counts, and whether a line is to start. -/
theorem UpTo.of_same (h : UpTo rest lx) (hsame : ly.cursor.rest = lx.cursor.rest)
    (hline : ly.atLineStart = lx.atLineStart) : UpTo rest ly := by
  cases h with
  | before hfeed hrest => exact .before hfeed (hsame.trans hrest)
  | here hrest hstart => exact .here (hsame.trans hrest) (hline.trans hstart)

theorem upTo_of_lineStart (hrest : lx.cursor.rest = left ++ rest)
    (hleft : left = [] ∨ EndsInFeed left) (hstart : lx.atLineStart = true) : UpTo rest lx := by
  rcases hleft with rfl | hfeed
  · exact .here hrest hstart
  · exact .before hfeed hrest

/-- What a turn comes to, and what it comes to with the piece put in. Once the place is passed,
nothing is said of the latter. -/
inductive Tracks (piece rest : List Char) : Outcome × Lexer → Outcome × Lexer → Prop
  | same (o : Outcome) {ly : Lexer} (h : UpTo rest ly) :
      Tracks piece rest (o, ly) (o, ly.insertBefore piece rest)
  | past {r r' : Outcome × Lexer} (h : Past rest.length r.2) : Tracks piece rest r r'

theorem skipLayout_insertBefore (hfeed : EndsInFeed ahead) (hrest : lx.cursor.rest = ahead ++ rest)
    (piece : List Char) :
    (lx.insertBefore piece rest).skipLayout = lx.skipLayout.insertBefore piece rest ∧
      ∃ left, EndsInFeed left ∧ lx.skipLayout.cursor.rest = left ++ rest := by
  obtain ⟨left, hleft, htake⟩ := hfeed.takeWhile (p := isLayout) rfl
  have hsplit : lx.cursor.rest = ahead.takeWhile isLayout ++ (left ++ rest) := by
    rw [hrest]
    exact (htake rest).2
  unfold skipLayout
  rw [rest_insertBefore hrest, (htake _).1, hrest, (htake _).1]
  exact ⟨advance_insertBefore hsplit piece, left, hleft, rest_advance_of_append hsplit⟩

/-- Lines are measured alike. -/
theorem measureLine_insertBefore (hfeed : EndsInFeed ahead) (hrest : lx.cursor.rest = ahead ++ rest)
    (piece : List Char) :
    (lx.insertBefore piece rest).measureLine =
        (lx.measureLine.1, lx.measureLine.2.insertBefore piece rest) ∧
      ∃ left, EndsInFeed left ∧ lx.measureLine.2.cursor.rest = left ++ rest := by
  obtain ⟨hskip, left, hleft, hrest'⟩ := skipLayout_insertBefore hfeed hrest piece
  have hstart : ∀ blank, (lx.insertBefore piece rest).startLine blank =
      (lx.startLine blank).insertBefore piece rest := by
    intro blank
    unfold startLine
    rw [hskip]
    rfl
  have hblanks : (lx.insertBefore piece rest).cursor.rest.takeWhile isLayout =
      lx.cursor.rest.takeWhile isLayout := by
    obtain ⟨_, _, htake⟩ := hfeed.takeWhile (p := isLayout) rfl
    rw [rest_insertBefore hrest, hrest, (htake _).1, (htake _).1]
  have hhead : (lx.insertBefore piece rest).skipLayout.cursor.rest.head? =
      lx.skipLayout.cursor.rest.head? := by
    rw [hskip, rest_insertBefore hrest', hrest', List.head?_append_of_ne_nil _ hleft.ne_nil,
      List.head?_append_of_ne_nil _ hleft.ne_nil]
  refine ⟨measureLine_comm hstart (fun m => applyIndent_insertBefore m piece rest) rfl hblanks
    hhead, left, hleft, ?_⟩
  rw [measureLine_frame]
  exact hrest'

theorem readBreak_tracks (o : Outcome) (hfeed : EndsInFeed ahead)
    (hrest : lx.cursor.rest = ahead ++ rest) (hbreak : lineBreak? ahead = some (br, left)) :
    Tracks piece rest (o, lx.readBreak br) (o, (lx.insertBefore piece rest).readBreak br) := by
  obtain ⟨rfl, -, -⟩ := lineBreak?_eq_some hbreak
  rw [List.append_assoc] at hrest
  have hsame : (lx.insertBefore piece rest).readBreak br =
      (lx.readBreak br).insertBefore piece rest := by
    unfold readBreak
    rw [advance_insertBefore hrest]
    rfl
  rw [hsame]
  exact .same o (upTo_of_lineStart (rest_advance_of_append hrest) hfeed.of_append rfl)

theorem endCode_tracks (o : Outcome) (hfeed : EndsInFeed ahead)
    (hrest : lx.cursor.rest = ahead ++ rest) (hbreak : lineBreak? ahead = some (br, left)) :
    Tracks piece rest (o, lx.endCode br) (o, (lx.insertBefore piece rest).endCode br) := by
  obtain ⟨rfl, -, -⟩ := lineBreak?_eq_some hbreak
  rw [List.append_assoc] at hrest
  have hcursor : (lx.insertBefore piece rest).cursor = lx.cursor.insertBefore piece rest := rfl
  have hsame : (lx.insertBefore piece rest).endCode br =
      (lx.endCode br).insertBefore piece rest := by
    unfold endCode
    rw [hcursor, Cursor.skip_insertBefore hrest]
    rfl
  have hrest' : (lx.endCode br).cursor.rest = left ++ rest := by
    show (lx.cursor.skip br).rest = _
    rw [Cursor.rest_skip, hrest, List.drop_left]
  rw [hsame]
  exact .same o (upTo_of_lineStart hrest' hfeed.of_append rfl)

theorem afterPragma_tracks (o : Outcome) (hfeed : EndsInFeed ahead)
    (hrest : lx.cursor.rest = ahead ++ rest) :
    Tracks piece rest (o, lx.afterPragma) (o, (lx.insertBefore piece rest).afterPragma) := by
  have hblank : (lx.insertBefore piece rest).blankLine = lx.blankLine := rfl
  unfold afterPragma
  rw [rest_insertBefore hrest, hrest, hfeed.lineBreak?_append, hfeed.lineBreak?_append, hblank]
  cases hbreak : lineBreak? ahead with
  | none => exact .same o (.before hfeed hrest)
  | some found =>
    dsimp only [Option.map_some, Plain.thenMore]
    split
    · exact readBreak_tracks o hfeed hrest hbreak
    · exact .same o (.before hfeed hrest)

theorem comment_tracks (hfeed : EndsInFeed ahead) (hrest : lx.cursor.rest = ahead ++ rest) :
    Tracks piece rest lx.comment (lx.insertBefore piece rest).comment := by
  obtain ⟨left, hleft, htake⟩ := hfeed.takeWhile (p := fun c => !isBreak c) rfl
  have hsplit := hrest.trans (htake rest).2
  rw [comment_eq, comment_eq, rest_insertBefore hrest, (htake _).1, hrest, (htake _).1]
  generalize ahead.takeWhile (fun c => !isBreak c) = body at hsplit
  have hadvance := advance_insertBefore hsplit piece
  have hrest' := rest_advance_of_append hsplit
  cases htag : Pragma.tag? body with
  | none =>
    dsimp only
    rw [hadvance]
    exact .same _ (.before hleft hrest')
  | some tag =>
    have hskip : (lx.insertBefore piece rest).cursor.skip (body.take (body.length - tag.length)) =
        (lx.cursor.skip (body.take (body.length - tag.length))).insertBefore piece rest := by
      have hfront : lx.cursor.rest = body.take (body.length - tag.length) ++
          ((body.drop (body.length - tag.length) ++ left) ++ rest) := by
        rw [List.append_assoc, ← List.append_assoc, List.take_append_drop, hsplit]
      exact Cursor.skip_insertBefore hfront piece
    dsimp only
    rw [hskip, hadvance]
    exact afterPragma_tracks _ hleft hrest'

theorem lineBreak_tracks (hfeed : EndsInFeed ahead) (hrest : lx.cursor.rest = ahead ++ rest)
    (hbreak : lineBreak? ahead = some (br, left)) :
    Tracks piece rest (lx.lineBreak br) ((lx.insertBefore piece rest).lineBreak br) := by
  have hblank : (lx.insertBefore piece rest).blankLine = lx.blankLine := rfl
  have hnesting : (lx.insertBefore piece rest).nesting = lx.nesting := rfl
  rw [lineBreak_eq, lineBreak_eq, hblank, hnesting]
  split
  · exact readBreak_tracks _ hfeed hrest hbreak
  · exact endCode_tracks _ hfeed hrest hbreak

/-- Behind a backslash the place may be passed: then no line starts there. -/
theorem continuation_tracks (hstart : lx.atLineStart = false) (hfeed : EndsInFeed ahead)
    (hrest : lx.cursor.rest = '\\' :: (ahead ++ rest)) :
    Tracks piece rest lx.continuation (lx.insertBefore piece rest).continuation := by
  have hescape : (lx.advance ['\\']).cursor.rest = ahead ++ rest :=
    rest_advance_of_append hrest
  have hadvance : (lx.insertBefore piece rest).advance ['\\'] =
      (lx.advance ['\\']).insertBefore piece rest := advance_insertBefore hrest piece
  unfold continuation
  dsimp only
  rw [hadvance, rest_insertBefore hescape, hescape, hfeed.lineBreak?_append,
    hfeed.lineBreak?_append]
  cases hbreak : lineBreak? ahead with
  | none => exact .same _ (.before hfeed hescape)
  | some found =>
    obtain ⟨br, left⟩ := found
    obtain ⟨rfl, -, -⟩ := lineBreak?_eq_some hbreak
    rw [List.append_assoc] at hescape
    have hrest' := rest_advance_of_append hescape
    cases left with
    | nil =>
      have hpast : Past rest.length ((lx.advance ['\\']).advance br) := by
        refine past_of_measured ?_ hstart
        rw [hrest']
        exact Nat.le_refl _
      rw [Option.map_some, Plain.thenMore, List.nil_append]
      cases rest with
      | nil => exact .past hpast
      | cons d rest => exact .past hpast
    | cons c left =>
      have hfeed' := hfeed.of_append.resolve_left (List.cons_ne_nil c left)
      dsimp only [Option.map_some, Plain.thenMore, List.cons_append]
      rw [advance_insertBefore hescape]
      exact .same _ (.before hfeed' hrest')

/-- A literal that ends before the place. -/
theorem readLiteral_tracks (hfeed : EndsInFeed ahead) (hrest : lx.cursor.rest = ahead ++ rest)
    {x : Literal.Stretch} (hscan : Literal.stretch? (ahead ++ rest) = some x)
    (hx : x.read.length < ahead.length) :
    Tracks piece rest (lx.readLiteral x) ((lx.insertBefore piece rest).readLiteral x) := by
  obtain ⟨more, happend⟩ := Literal.append_of_stretch? hscan
  obtain ⟨left, rfl⟩ : ∃ left, ahead = x.read ++ left := by
    rcases List.append_eq_append_iff.1 happend with ⟨more, hread, -⟩ | ⟨left, hahead, -⟩
    · rw [hread, List.length_append] at hx
      omega
    · exact ⟨left, hahead⟩
  have hleft : EndsInFeed left := by
    refine hfeed.of_append.resolve_left ?_
    rintro rfl
    rw [List.append_nil] at hx
    exact Nat.lt_irrefl _ hx
  rw [List.append_assoc] at hrest
  have hrest' := rest_advance_of_append hrest
  unfold readLiteral
  rw [advance_insertBefore hrest]
  split
  · exact .same _ (.before hleft hrest')
  · exact .same _ (.before hleft hrest')

theorem past_of_literal (hstart : lx.atLineStart = false) {x : Literal.Stretch}
    (hx : lx.cursor.rest.length ≤ n + x.read.length) : Past n (lx.readLiteral x).2 := by
  have hpast : Past n (lx.advance x.read) := by
    refine past_of_measured ?_ hstart
    rw [rest_length_advance]
    omega
  unfold readLiteral
  split
  · exact hpast
  · exact hpast

theorem definitionFollows_of_feed (h : EndsInFeed left) (more more' : List Char) :
    definitionFollows (left ++ more') = definitionFollows (left ++ more) := by
  obtain ⟨line, rfl⟩ := h
  rw [List.append_assoc, List.append_assoc, List.singleton_append, List.singleton_append,
    definitionFollows_before rfl, definitionFollows_before rfl]

theorem plain_tracks {c : Char} (hfeed : EndsInFeed (c :: ahead)) (hc : c ≠ '\n')
    (hrest : lx.cursor.rest = (c :: ahead) ++ rest) :
    Tracks piece rest (lx.plain c ((c :: ahead) ++ rest))
      ((lx.insertBefore piece rest).plain c ((c :: ahead) ++ (piece ++ rest))) := by
  unfold plain
  rcases Plain.scan?_of_feed hfeed with hscan | ⟨kind, read, left, hleft, hscan⟩
  · rw [hscan, hscan]
    have hadvance : (lx.insertBefore piece rest).advance [c] =
        (lx.advance [c]).insertBefore piece rest := advance_insertBefore hrest piece
    dsimp only
    rw [hadvance]
    exact .same _ (.before (hfeed.of_cons hc) (rest_advance_of_append hrest))
  · have hsplit := hrest.trans (Plain.append_of_scan? (hscan rest)).symm
    have hcursor : (((lx.advance read).nest kind).classify kind read (left ++ rest)).2.cursor =
        (lx.advance read).cursor :=
      (classify_rest kind read _ _).1.trans (nest_rest kind _).1
    have htext : (((lx.advance read).nest kind).classify kind read (left ++ rest)).2.text =
        ((lx.advance read).nest kind).text := by rw [classify_frame]
    have hclassify : (((lx.advance read).nest kind).insertBefore piece rest).classify kind read
          (left ++ (piece ++ rest)) =
        ((((lx.advance read).nest kind).classify kind read (left ++ rest)).1,
          (((lx.advance read).nest kind).classify kind read (left ++ rest)).2.insertBefore
            piece rest) := by
      rw [insertBefore, classify_onto kind read (definitionFollows_of_feed hleft _ _), insertBefore,
        hcursor, htext, (nest_rest kind _).1]
    rw [hscan, hscan]
    dsimp only
    rw [advance_insertBefore hsplit, nest_insertBefore, hclassify]
    refine .same _ (.before hleft ?_)
    rw [hcursor]
    exact rest_advance_of_append hsplit

/-- What is read where no indentation is due. -/
theorem body_tracks (hstart : lx.atLineStart = false) (hfeed : EndsInFeed ahead)
    (hrest : lx.cursor.rest = ahead ++ rest) :
    Tracks piece rest lx.body (lx.insertBefore piece rest).body := by
  obtain ⟨hskip, left, hleft, hrest⟩ := skipLayout_insertBefore hfeed hrest piece
  have hstart : lx.skipLayout.atLineStart = false := hstart
  have hinserted := rest_insertBefore hrest piece
  rw [← hskip] at hinserted
  obtain ⟨c, tail, rfl⟩ := List.exists_cons_of_ne_nil hleft.ne_nil
  by_cases hcomment : c = '#'
  · subst hcomment
    rw [body_of_comment hrest, body_of_comment hinserted, hskip]
    exact comment_tracks hleft hrest
  · by_cases hescape : c = '\\'
    · subst hescape
      rw [body_of_continuation hrest, body_of_continuation hinserted, hskip]
      exact continuation_tracks hstart (hleft.of_cons (by decide)) hrest
    · rw [body_of_code hrest hcomment hescape, body_of_code hinserted hcomment hescape, hrest,
        hinserted, hskip, hleft.lineBreak?_append, hleft.lineBreak?_append]
      cases hbreak : lineBreak? (c :: tail) with
      | some found => exact lineBreak_tracks hleft hrest hbreak
      | none =>
        dsimp only [Option.map_none]
        cases hscan : Literal.stretch? ((c :: tail) ++ rest) with
        | some x =>
          by_cases hx : x.read.length < (c :: tail).length
          · rw [Literal.stretch?_within hleft hscan hx]
            exact readLiteral_tracks hleft hrest hscan hx
          · refine .past (past_of_literal hstart ?_)
            rw [hrest, List.length_append]
            omega
        | none =>
          have hfeed : c ≠ '\n' := by
            rintro rfl
            cases hbreak
          rw [Literal.stretch?_eq_none_of_feed hleft hscan]
          exact plain_tracks hleft hfeed hrest

/-- Up to the place, a turn is the same with the piece put in. -/
theorem UpTo.turn (h : UpTo rest lx) (piece : List Char) :
    Tracks piece rest lx.turn (lx.insertBefore piece rest).turn := by
  have hinserted := takeDue?_insertBefore piece rest lx
  cases hdue : lx.takeDue? with
  | some due =>
    obtain ⟨x, ly⟩ := due
    obtain ⟨hcursor, hline⟩ := takeDue?_stays hdue
    rw [hdue, Option.map_some] at hinserted
    rw [turn_of_due hdue, turn_of_due hinserted]
    exact .same _ (h.of_same (congrArg Cursor.rest hcursor) hline)
  | none =>
    have howes := takeDue?_eq_none_iff.1 hdue
    have howes' : (lx.insertBefore piece rest).OwesNothing := howes
    cases h with
    | here hrest _ => exact .past (past_of_turn howes (Nat.le_of_eq (congrArg List.length hrest)))
    | before hfeed hrest =>
      have hline : (lx.insertBefore piece rest).atLineStart = lx.atLineStart := rfl
      cases hstart : lx.atLineStart with
      | false =>
        rw [turn_of_body howes hstart, turn_of_body howes' (hline.trans hstart)]
        exact body_tracks hstart hfeed hrest
      | true =>
        obtain ⟨hmeasure, left, hleft, hrest'⟩ := measureLine_insertBefore hfeed hrest piece
        have hmeasured : lx.measureLine.2.atLineStart = false := by rw [measureLine_frame]
        rw [turn_of_measure howes hstart, turn_of_measure howes' (hline.trans hstart), hmeasure]
        generalize lx.measureLine = measured at hrest' hmeasured
        obtain ⟨e?, ly⟩ := measured
        cases e? with
        | some e => exact .same _ (.before hleft hrest')
        | none =>
          dsimp only
          rw [takeDue?_insertBefore]
          cases hdue' : ly.takeDue? with
          | some due =>
            obtain ⟨x, lz⟩ := due
            have hcursor := (takeDue?_stays hdue').1
            exact .same _ (.before hleft (by rw [hcursor, hrest']))
          | none => exact body_tracks hmeasured hleft hrest'

/-- A lexer that has passed the place, or a lexer up to it with the same on the text with the piece
put in. -/
inductive Follows (piece rest : List Char) (lx : Lexer) : Lexer → Prop
  | same (h : UpTo rest lx) : Follows piece rest lx (lx.insertBefore piece rest)
  | past {ly : Lexer} (h : Past rest.length lx) : Follows piece rest lx ly

theorem UpTo.scan (h : UpTo rest lx) :
    Follows piece rest lx.scan.2 (lx.insertBefore piece rest).scan.2 := by
  have htracks := h.turn piece
  fun_induction Lexer.scan lx with
  | case1 lx x ly hturn =>
    rw [hturn] at htracks
    generalize hr : (lx.insertBefore piece rest).turn = r at htracks
    cases htracks with
    | same _ h =>
      rw [scan_of_lexeme hr]
      exact .same h
    | past h => exact .past h
  | case2 lx e ly hturn =>
    rw [hturn] at htracks
    generalize hr : (lx.insertBefore piece rest).turn = r at htracks
    cases htracks with
    | same _ h =>
      rw [scan_of_failed hr]
      have hfail : UpTo rest (ly.fail e) := h.of_same rfl rfl
      exact .same hfail
    | past h => exact .past (h.of_same rfl rfl)
  | case3 lx ly hturn _ ih =>
    rw [hturn] at htracks
    generalize hr : (lx.insertBefore piece rest).turn = r at htracks
    cases htracks with
    | same _ h =>
      rw [scan_of_nothing hr]
      exact ih h (h.turn piece)
    | past h => exact .past (Past.scan h)

theorem UpTo.leaveLine (h : UpTo rest lx) : UpTo rest lx.leaveLine := by
  unfold Lexer.leaveLine
  split
  · exact h.of_same rfl rfl
  · exact h

theorem Follows.after (h : Follows piece rest lx ly) (request : Request) :
    Follows piece rest (lx.after request) (ly.after request) := by
  cases h with
  | past h => exact .past (h.after request)
  | same h =>
    cases request with
    | next =>
      have hstop : (lx.insertBefore piece rest).stop = lx.stop := rfl
      show Follows piece rest lx.next.2 (lx.insertBefore piece rest).next.2
      unfold Lexer.next
      rw [hstop]
      split
      · exact .same h
      · rw [leaveLine_insertBefore]
        exact h.leaveLine.scan
    | queueDedents k =>
      have hqueued : UpTo rest (lx.queueDedents k) := h.of_same rfl rfl
      exact .same hqueued

theorem Follows.requests (h : Follows piece rest lx ly) (requests : List Request) :
    Follows piece rest (requests.foldl Lexer.after lx) (requests.foldl Lexer.after ly) := by
  induction requests generalizing lx ly with
  | nil => exact h
  | cons request requests ih => exact ih (h.after request)

theorem Past.skips (h : Past n lx) (hskips : Skips lx ly) : Past n ly := by
  induction hskips with
  | nil => exact h
  | cons hturn _ ih =>
    have hpast := h.turn
    rw [hturn] at hpast
    exact ih hpast

theorem UpTo.skips (h : UpTo rest lx) (hskips : Skips lx ly) (piece : List Char) :
    Past rest.length ly ∨
      UpTo rest ly ∧ Skips (lx.insertBefore piece rest) (ly.insertBefore piece rest) := by
  induction hskips with
  | nil => exact Or.inr ⟨h, .nil _⟩
  | @cons lx ly lz hturn hskips ih =>
    have htracks := h.turn piece
    rw [hturn] at htracks
    generalize hr : (lx.insertBefore piece rest).turn = r at htracks
    cases htracks with
    | same _ h => exact (ih h).imp_right fun ⟨hlz, hmore⟩ => ⟨hlz, .cons hr hmore⟩
    | past h => exact Or.inl (Past.skips h hskips)

end Offside.Lexer
