import Offside.Proofs.Lexer.Levels
import Offside.Proofs.Lexer.Scanners
import Offside.Proofs.Lexer.Stretches

/-!
Turns of a lexer, by what they read. Behind blanks there is the end of the text, a comment, a line
break, a backslash that joins two lines, a literal or a plain token, or else a failure. What any
turn can do is said here once.
-/

namespace Offside

open Text

namespace Cursor

@[simp] theorem kind_lexeme (kind : Kind) (read : List Char) (cur : Cursor) :
    (cur.lexeme kind read).kind = kind := by
  unfold lexeme
  split <;> rfl

theorem line_lexeme (kind : Kind) (read : List Char) (cur : Cursor) :
    (cur.lexeme kind read).line = cur.line.toNat := by
  unfold lexeme
  split <;> rfl

theorem token_lexeme {kind : Kind} {read : List Char} {cur : Cursor}
    (hstart : cur.lineStart ≤ cur.offset)
    (hfits : cur.offset + byteLength read ≤ maxPosition) :
    (cur.lexeme kind read).token =
      ⟨kind, String.ofList read, cur.line.toNat, some (cur.offset - cur.lineStart)⟩ := by
  have hspan : Span.ofRange? cur.offset (cur.offset + byteLength read) =
      some ⟨cur.offset, cur.offset + byteLength read⟩ := by
    rw [Span.ofRange?_eq_some_iff]
    exact ⟨by omega, hfits, rfl⟩
  have hmin : min cur.lineStart maxPosition = cur.lineStart := by omega
  simp only [lexeme, hspan, Lexeme.token, Lexeme.column?, Option.bind_some, hmin, if_pos hstart]

/-- Past the largest position a token has neither column nor text. -/
theorem token_lexeme_of_lt {kind : Kind} {read : List Char} {cur : Cursor}
    (h : maxPosition < cur.offset + byteLength read) :
    (cur.lexeme kind read).token = ⟨kind, "", cur.line.toNat, none⟩ := by
  have hspan : Span.ofRange? cur.offset (cur.offset + byteLength read) = none := by
    rw [Option.eq_none_iff_forall_ne_some]
    intro s hs
    have hstop := (Span.ofRange?_eq_some_iff _ _ _).1 hs
    omega
  simp only [lexeme, hspan, Lexeme.token, Lexeme.column?, Option.bind_none]

/-- A lexeme that takes up no text has none. -/
theorem text_lexeme_nil (kind : Kind) (cur : Cursor) : (cur.lexeme kind []).text = "" := by
  unfold lexeme
  split <;> rfl

end Cursor

namespace Pragma

theorem append_of_after? {word : String} {text rest : List Char}
    (h : after? word text = some rest) : text = word.toList ++ rest := by
  unfold after? at h
  split at h
  · next hword =>
    obtain ⟨rest', rfl⟩ := List.isPrefixOf_iff_prefix.1 hword
    rw [← Option.some.inj h, List.drop_left]
  · cases h

/-- What stands before the tag of a pragma. -/
def IsFront (front : List Char) : Prop :=
  ∃ blanks blanks' : List Char, (∀ c ∈ blanks ++ blanks', isNarrowBlank c = true) ∧
    front = "#".toList ++ (blanks ++ ("type:".toList ++ (blanks' ++ "ignore".toList)))

/-- The tag of a pragma ends its comment. -/
theorem exists_front_of_tag? {comment tag : List Char} (h : tag? comment = some tag) :
    ∃ front, IsFront front ∧ comment = front ++ tag := by
  obtain ⟨rest, hhash, h⟩ := Option.bind_eq_some_iff.1 h
  obtain ⟨rest', htype, h⟩ := Option.bind_eq_some_iff.1 h
  obtain ⟨tag', hignore, h⟩ := Option.bind_eq_some_iff.1 h
  obtain rfl : tag' = tag := by
    split at h
    · split at h
      · cases h
      · exact Option.some.inj h
    · exact Option.some.inj h
  have hblanks := (List.takeWhile_append_dropWhile (p := isNarrowBlank) (l := rest)).symm
  have hblanks' := (List.takeWhile_append_dropWhile (p := isNarrowBlank) (l := rest')).symm
  rw [append_of_after? htype] at hblanks
  rw [append_of_after? hignore] at hblanks'
  refine ⟨_, ⟨rest.takeWhile isNarrowBlank, rest'.takeWhile isNarrowBlank, ?_, rfl⟩, ?_⟩
  · intro c hc
    rcases List.mem_append.1 hc with hc | hc
    · exact List.mem_takeWhile_imp hc
    · exact List.mem_takeWhile_imp hc
  · rw [append_of_after? hhash]
    conv_lhs => rw [hblanks, hblanks']
    simp only [List.append_assoc]

end Pragma

namespace Lexer

variable {lx ly : Lexer}

/-- No indent or dedent is due. -/
def OwesNothing (lx : Lexer) : Prop := lx.pendingDedents = 0 ∧ lx.pendingIndent = false

theorem takeDue?_eq_none_iff : lx.takeDue? = none ↔ lx.OwesNothing := by
  refine ⟨nothingDue, fun ⟨hdedents, hindent⟩ => ?_⟩
  simp [takeDue?, hdedents, hindent]

/-- Moves over the blanks at the cursor. -/
def skipLayout (lx : Lexer) : Lexer := lx.advance (lx.cursor.rest.takeWhile isLayout)

theorem rest_advance (read : List Char) (lx : Lexer) :
    (lx.advance read).cursor.rest = lx.cursor.rest.drop read.length :=
  Cursor.rest_advance read lx.cursor

theorem rest_advance_of_append {read rest : List Char} (h : lx.cursor.rest = read ++ rest) :
    (lx.advance read).cursor.rest = rest := by
  rw [rest_advance, h, List.drop_left]

/-- Without anything to read a lexer does not move. -/
theorem advance_nil (lx : Lexer) : lx.advance [] = lx := by rw [advance, Cursor.advance]

theorem rest_skipLayout (lx : Lexer) :
    lx.skipLayout.cursor.rest = lx.cursor.rest.dropWhile isLayout := by
  have hsplit := List.takeWhile_append_dropWhile (p := isLayout) (l := lx.cursor.rest)
  rw [skipLayout, rest_advance]
  calc lx.cursor.rest.drop (lx.cursor.rest.takeWhile isLayout).length
      = (lx.cursor.rest.takeWhile isLayout ++ lx.cursor.rest.dropWhile isLayout).drop
          (lx.cursor.rest.takeWhile isLayout).length := by rw [hsplit]
    _ = lx.cursor.rest.dropWhile isLayout := List.drop_left

theorem layout_of_takeDue? {x : Lexeme} (h : lx.takeDue? = some (x, ly)) :
    x.kind = .dedent ∨ x.kind = .indent := by
  unfold takeDue? at h
  split at h
  · obtain ⟨rfl, _⟩ := Prod.mk.inj (Option.some.inj h)
    exact Or.inl rfl
  · split at h
    · obtain ⟨rfl, _⟩ := Prod.mk.inj (Option.some.inj h)
      exact Or.inr rfl
    · cases h

theorem kind_of_takeDue? {x : Lexeme} (h : lx.takeDue? = some (x, ly)) :
    x.kind ≠ .endMarker := by
  rcases layout_of_takeDue? h with hkind | hkind
  all_goals
    rw [hkind]
    decide

theorem takeDue?_eq_dedent (h : 0 < lx.pendingDedents) :
    lx.takeDue? =
      some (lx.cursor.bare .dedent, { lx with pendingDedents := lx.pendingDedents - 1 }) := by
  rw [takeDue?, if_pos h]

theorem takeDue?_eq_indent (h : ¬0 < lx.pendingDedents) (h' : lx.pendingIndent = true) :
    lx.takeDue? = some (lx.cursor.bare .indent, { lx with pendingIndent := false }) := by
  rw [takeDue?, if_neg h, if_pos h']

/-- Leaves the start of a line, with the blanks there. -/
def startLine (blank : Bool) (lx : Lexer) : Lexer :=
  { lx.skipLayout with atLineStart := false, blankLine := blank }

theorem turn_of_due {x : Lexeme} (h : lx.takeDue? = some (x, ly)) :
    lx.turn = (.lexeme x, ly) := by
  simp only [turn, h]

theorem turn_of_body (hdue : lx.OwesNothing) (hstart : lx.atLineStart = false) :
    lx.turn = lx.body := by
  have hnone := takeDue?_eq_none_iff.2 hdue
  simp only [turn, hnone, hstart, Bool.false_eq_true, if_false]

theorem turn_of_measure (hdue : lx.OwesNothing) (hstart : lx.atLineStart = true) :
    lx.turn =
      match lx.measureLine with
      | (some e, ly) => (.failed e, ly)
      | (none, ly) =>
        match ly.takeDue? with
        | some (x, lz) => (.lexeme x, lz)
        | none => ly.body := by
  have hnone := takeDue?_eq_none_iff.2 hdue
  cases hmeasure : lx.measureLine with
  | mk e? ly =>
    cases e? with
    | some e => simp only [turn, hnone, hstart, if_true, hmeasure]
    | none =>
      cases hdue' : ly.takeDue? with
      | some due => simp only [turn, hnone, hstart, if_true, hmeasure, hdue']
      | none => simp only [turn, hnone, hstart, if_true, hmeasure, hdue']

/-- What a lexer becomes when it reads a line break that gives no token. -/
def readBreak (br : List Char) (lx : Lexer) : Lexer := { lx.advance br with atLineStart := true }

/-- What follows a pragma: a pragma alone on its line takes the line break along. -/
def afterPragma (lx : Lexer) : Lexer :=
  match lineBreak? lx.cursor.rest with
  | some (br, _) => if lx.blankLine then lx.readBreak br else lx
  | none => lx

theorem comment_eq (lx : Lexer) :
    lx.comment =
      match Pragma.tag? (lx.cursor.rest.takeWhile fun c => !isBreak c) with
      | none => (.nothing, lx.advance (lx.cursor.rest.takeWhile fun c => !isBreak c))
      | some tag =>
        let body := lx.cursor.rest.takeWhile fun c => !isBreak c
        (.lexeme ((lx.cursor.skip (body.take (body.length - tag.length))).lexeme .typeIgnore tag),
          (lx.advance body).afterPragma) := by
  unfold comment
  dsimp only
  cases Pragma.tag? (lx.cursor.rest.takeWhile fun c => !isBreak c) with
  | none => rfl
  | some tag =>
    dsimp only [afterPragma]
    generalize lx.advance (lx.cursor.rest.takeWhile fun c => !isBreak c) = after
    cases lineBreak? after.cursor.rest with
    | none => rfl
    | some found =>
      dsimp only
      split <;> rfl

/-- What a lexer becomes when it reads a line break that ends a line of code. -/
def endCode (br : List Char) (lx : Lexer) : Lexer :=
  { lx with
    cursor := lx.cursor.skip br
    atLineStart := true
    lineEnded := true
    asyncScope? := lx.asyncScope?.map fun scope => { scope with lineEnded := true } }

theorem lineBreak_eq (br : List Char) (lx : Lexer) :
    lx.lineBreak br =
      if lx.blankLine || 0 < lx.nesting then (.nothing, lx.readBreak br)
      else (.lexeme (lx.cursor.lexeme .newline []), lx.endCode br) := rfl

theorem nest_frame (kind : Kind) (lx : Lexer) :
    lx.nest kind = { lx with nesting := (lx.nest kind).nesting } := by
  unfold nest
  split
  · rfl
  · split <;> rfl

theorem classifyAsync_frame (keyword : Kind) (rest : List Char) (lx : Lexer) :
    (lx.classifyAsync keyword rest).2 =
      { lx with asyncScope? := (lx.classifyAsync keyword rest).2.asyncScope? } := by
  unfold classifyAsync
  split
  · rfl
  · split <;> rfl

theorem classify_frame (kind : Kind) (read rest : List Char) (lx : Lexer) :
    (lx.classify kind read rest).2 =
      { lx with asyncScope? := (lx.classify kind read rest).2.asyncScope? } := by
  unfold classify
  split
  · exact classifyAsync_frame _ _ _
  · split
    · exact classifyAsync_frame _ _ _
    · rfl

/-- A lexer as it would be at a place of another text. What it does to its layout and its brackets,
it does there alike. -/
def onto (text : List Char) (cur : Cursor) (lx : Lexer) : Lexer :=
  { lx with text := text, cursor := cur }

theorem leaveAsyncScope_onto (text : List Char) (cur : Cursor) (lx : Lexer) :
    (lx.onto text cur).leaveAsyncScope = lx.leaveAsyncScope.onto text cur := by
  have hscope : (lx.onto text cur).asyncScope? = lx.asyncScope? := rfl
  have hindents : (lx.onto text cur).indents = lx.indents := rfl
  unfold leaveAsyncScope
  rw [hscope, hindents]
  split
  · split <;> rfl
  · rfl

/-- Comparing a line with the open blocks reads nothing. -/
theorem applyIndent_onto (m : Measure) (text : List Char) (cur : Cursor) (lx : Lexer) :
    (lx.onto text cur).applyIndent m =
      ((lx.applyIndent m).1, (lx.applyIndent m).2.onto text cur) := by
  have hindents : (lx.onto text cur).indents = lx.indents := rfl
  unfold applyIndent
  rw [hindents]
  split
  · rfl
  · next change indents _ =>
    cases change
    all_goals
      rw [← leaveAsyncScope_onto]
      rfl

theorem nest_onto (kind : Kind) (text : List Char) (cur : Cursor) (lx : Lexer) :
    (lx.onto text cur).nest kind = (lx.nest kind).onto text cur := by
  have hnesting : (lx.onto text cur).nesting = lx.nesting := rfl
  unfold nest
  rw [hnesting]
  split
  · rfl
  · split <;> rfl

theorem classifyAsync_onto (keyword : Kind) {rest rest' : List Char}
    (hrest : definitionFollows rest' = definitionFollows rest) (text : List Char) (cur : Cursor)
    (lx : Lexer) :
    (lx.onto text cur).classifyAsync keyword rest' =
      ((lx.classifyAsync keyword rest).1, (lx.classifyAsync keyword rest).2.onto text cur) := by
  have halways : (lx.onto text cur).asyncAlways = lx.asyncAlways := rfl
  have hscope : (lx.onto text cur).asyncScope? = lx.asyncScope? := rfl
  unfold classifyAsync
  rw [hrest, halways, hscope]
  split
  · rfl
  · split <;> rfl

theorem classify_onto (kind : Kind) (read : List Char) {rest rest' : List Char}
    (hrest : definitionFollows rest' = definitionFollows rest) (text : List Char) (cur : Cursor)
    (lx : Lexer) :
    (lx.onto text cur).classify kind read rest' =
      ((lx.classify kind read rest).1, (lx.classify kind read rest).2.onto text cur) := by
  unfold classify
  rw [classifyAsync_onto _ hrest, classifyAsync_onto _ hrest]
  split
  · rfl
  · split <;> rfl

/-- A plain token moves the cursor, and may change the brackets and the scope of `async`. -/
theorem plain_frame {kind kind' : Kind} {read rest : List Char}
    (h : ((lx.advance read).nest kind).classify kind read rest = (kind', ly)) :
    ly = { lx.advance read with nesting := ly.nesting, asyncScope? := ly.asyncScope? } := by
  have hclassify := classify_frame kind read rest ((lx.advance read).nest kind)
  rw [h] at hclassify
  dsimp only at hclassify
  rw [nest_frame] at hclassify
  conv_lhs => rw [hclassify]
  rw [hclassify]

theorem ne_endMarker_of_isPlain {k : Kind} (h : k.isPlain = true) : k ≠ .endMarker := by
  rintro rfl
  cases h

theorem isPlain_classifyAsync {keyword : Kind} (h : keyword.isPlain = true) (rest : List Char)
    (lx : Lexer) : (lx.classifyAsync keyword rest).1.isPlain = true := by
  unfold classifyAsync
  split
  · exact h
  · split
    · exact h
    · rfl

theorem isPlain_classify {kind : Kind} (h : kind.isPlain = true) (read rest : List Char)
    (lx : Lexer) : (lx.classify kind read rest).1.isPlain = true := by
  unfold classify
  split
  · exact isPlain_classifyAsync rfl _ _
  · split
    · exact isPlain_classifyAsync rfl _ _
    · exact h

theorem body_of_comment {rest : List Char} (h : lx.skipLayout.cursor.rest = '#' :: rest) :
    lx.body = lx.skipLayout.comment := by
  unfold skipLayout at *
  simp only [body, h]

theorem body_of_continuation {rest : List Char} (h : lx.skipLayout.cursor.rest = '\\' :: rest) :
    lx.body = lx.skipLayout.continuation := by
  unfold skipLayout at *
  simp only [body, h]

theorem body_of_code {c : Char} {rest : List Char} (h : lx.skipLayout.cursor.rest = c :: rest)
    (hcomment : c ≠ '#') (hescape : c ≠ '\\') :
    lx.body =
      match lineBreak? lx.skipLayout.cursor.rest with
      | some (br, _) => lx.skipLayout.lineBreak br
      | none =>
        match Literal.stretch? lx.skipLayout.cursor.rest with
        | some stretch => lx.skipLayout.readLiteral stretch
        | none => lx.skipLayout.plain c lx.skipLayout.cursor.rest := by
  unfold skipLayout at *
  unfold body
  dsimp only
  rw [h]
  split
  · next heq => cases heq
  · next heq => exact absurd (List.cons.inj heq).1 hcomment
  · next heq => exact absurd (List.cons.inj heq).1 hescape
  · next heq =>
    obtain ⟨rfl, rfl⟩ := List.cons.inj heq
    cases lineBreak? (c :: rest) with
    | some => rfl
    | none =>
      rw [Literal.scan?_eq]
      cases Literal.stretch? (c :: rest) with
      | none => rfl
      | some x => exact literal_counted x _

/-- Nothing but blanks is left. -/
def Spent (lx : Lexer) : Prop := lx.cursor.rest.dropWhile isLayout = []

theorem spent_of_rest (h : lx.cursor.rest = []) : lx.Spent := by
  rw [Spent, h, List.dropWhile_nil]

theorem Spent.rest_skipLayout (h : lx.Spent) : lx.skipLayout.cursor.rest = [] := by
  rw [Lexer.rest_skipLayout, h]

theorem body_of_spent (h : lx.Spent) : lx.body = lx.skipLayout.endOfInput := by
  have hrest := h.rest_skipLayout
  unfold skipLayout at *
  simp only [body, hrest]

theorem measureLine_of_spent (h : lx.Spent) :
    lx.measureLine =
      if 0 < lx.nesting then (none, lx.startLine false)
      else (lx.startLine false).applyIndent Measure.zero := by
  have hrest := h.rest_skipLayout
  unfold startLine
  unfold skipLayout at *
  unfold measureLine
  dsimp only
  rw [hrest]
  rfl

theorem measureLine_of_code {c : Char} {rest : List Char}
    (h : lx.skipLayout.cursor.rest = c :: rest) :
    lx.measureLine =
      if (c == '#' || isBreak c) || 0 < lx.nesting then
        (none, lx.startLine (c == '#' || isBreak c))
      else
        (lx.startLine (c == '#' || isBreak c)).applyIndent
          (Measure.ofBlanks (lx.cursor.rest.takeWhile isLayout)) := by
  unfold startLine
  unfold skipLayout at *
  unfold measureLine
  dsimp only
  rw [h]
  rfl

/-- Measuring a line goes with a change to the lexer that leaves the brackets, the blanks and what
is behind them as they are, and that goes with starting a line and comparing it with the blocks. -/
theorem measureLine_comm {f : Lexer → Lexer}
    (hstart : ∀ blank, (f lx).startLine blank = f (lx.startLine blank))
    (happly : ∀ m ly, (f ly).applyIndent m = ((ly.applyIndent m).1, f (ly.applyIndent m).2))
    (hnesting : (f lx).nesting = lx.nesting)
    (hblanks : (f lx).cursor.rest.takeWhile isLayout = lx.cursor.rest.takeWhile isLayout)
    (hhead : (f lx).skipLayout.cursor.rest.head? = lx.skipLayout.cursor.rest.head?) :
    (f lx).measureLine = (lx.measureLine.1, f lx.measureLine.2) := by
  cases hrest : lx.skipLayout.cursor.rest with
  | nil =>
    rw [hrest] at hhead
    have hrest' := List.head?_eq_none_iff.1 hhead
    have hspent : lx.Spent := by rw [Spent, ← rest_skipLayout, hrest]
    have hspent' : (f lx).Spent := by rw [Spent, ← rest_skipLayout, hrest']
    rw [measureLine_of_spent hspent, measureLine_of_spent hspent', hstart, hnesting]
    split
    · rfl
    · exact happly _ _
  | cons c rest =>
    rw [hrest] at hhead
    obtain ⟨rest', hrest'⟩ := List.head?_eq_some_iff.1 hhead
    rw [measureLine_of_code hrest, measureLine_of_code hrest', hstart, hnesting, hblanks]
    split
    · rfl
    · exact happly _ _

/-- Comparing a line with the open blocks moves nothing. -/
theorem applyIndent_stays (m : Measure) (lx : Lexer) :
    (lx.applyIndent m).2.cursor = lx.cursor ∧
      (lx.applyIndent m).2.atLineStart = lx.atLineStart := by
  have hframe : ∀ ly : Lexer, ly.leaveAsyncScope.cursor = ly.cursor ∧
      ly.leaveAsyncScope.atLineStart = ly.atLineStart := by
    intro ly
    rw [leaveAsyncScope_frame]
    exact ⟨rfl, rfl⟩
  unfold applyIndent
  split
  · exact ⟨rfl, rfl⟩
  · next change _ _ =>
    refine (hframe _).imp (fun hcursor => hcursor.trans ?_) fun hline => hline.trans ?_
    all_goals cases change <;> rfl

/-- A comment, up to the end of its line. -/
structure IsComment (body rest : List Char) : Prop where
  hash : body.head? = some '#'
  unbroken : Unbroken body
  ends : ∀ c ∈ rest.head?, isBreak c = true

/-- What a lexer makes of the text behind blanks, and how that leaves it. -/
inductive Piece (lx : Lexer) : Outcome × Lexer → Prop
  | ended (h : lx.cursor.rest = []) : Piece lx lx.endOfInput
  | comment {body rest : List Char} (h : lx.cursor.rest = body ++ rest)
      (hbody : IsComment body rest) (htag : Pragma.tag? body = none) :
      Piece lx (.nothing, lx.advance body)
  | pragma {front tag rest : List Char} (h : lx.cursor.rest = (front ++ tag) ++ rest)
      (hbody : IsComment (front ++ tag) rest) (hfront : Pragma.IsFront front)
      (htag : Pragma.tag? (front ++ tag) = some tag) :
      Piece lx (.lexeme ((lx.cursor.skip front).lexeme .typeIgnore tag),
        (lx.advance (front ++ tag)).afterPragma)
  | blankBreak {br rest : List Char} (h : lineBreak? lx.cursor.rest = some (br, rest))
      (hblank : lx.blankLine = true ∨ 0 < lx.nesting) : Piece lx (.nothing, lx.readBreak br)
  | newline {br rest : List Char} (h : lineBreak? lx.cursor.rest = some (br, rest))
      (hcode : lx.blankLine = false) (hnesting : lx.nesting = 0) :
      Piece lx (.lexeme (lx.cursor.lexeme .newline []), lx.endCode br)
  | joined {br rest : List Char} {c : Char} (h : lx.cursor.rest = '\\' :: br ++ c :: rest)
      (hbreak : lineBreak? (br ++ c :: rest) = some (br, c :: rest)) :
      Piece lx (.nothing, (lx.advance ['\\']).advance br)
  | brokenOff {br : List Char} (h : lx.cursor.rest = '\\' :: br)
      (hbreak : lineBreak? br = some (br, [])) :
      Piece lx (.failed .endOfFile, (lx.advance ['\\']).advance br)
  | stray {rest : List Char} (h : lx.cursor.rest = '\\' :: rest)
      (hbreak : lineBreak? rest = none) :
      Piece lx (.failed .lineContinuation, lx.advance ['\\'])
  | literal {read rest : List Char} (h : lx.cursor.rest = read ++ rest)
      (hscan : Literal.stretch? lx.cursor.rest = some ⟨read, none⟩) :
      Piece lx (.lexeme (lx.cursor.lexeme .literal read), lx.advance read)
  | unended {read : List Char} {e : LexError}
      (hscan : Literal.stretch? lx.cursor.rest = some ⟨read, some e⟩) :
      Piece lx (.failed e, lx.advance read)
  | plain {kind kind' : Kind} {read rest : List Char} {ly : Lexer}
      (h : lx.cursor.rest = read ++ rest)
      (hscan : Plain.scan? lx.cursor.rest = some (kind, read, rest))
      (hclassify : ((lx.advance read).nest kind).classify kind read rest = (kind', ly)) :
      Piece lx (.lexeme (lx.cursor.lexeme kind' read), ly)
  | bad {c : Char} {rest : List Char} (h : lx.cursor.rest = c :: rest)
      (hscan : Plain.scan? lx.cursor.rest = none) (hbreak : isBreak c = false) :
      Piece lx (.failed .badToken, lx.advance [c])

theorem isComment_takeWhile {rest : List Char} (h : lx.cursor.rest = '#' :: rest) :
    IsComment (lx.cursor.rest.takeWhile fun c => !isBreak c)
      (lx.cursor.rest.dropWhile fun c => !isBreak c) where
  hash := by
    rw [h]
    rfl
  unbroken := unbroken_takeWhile (by decide) (by decide) _
  ends := by
    intro c hc
    have hhead := List.head?_dropWhile_not (fun c => !isBreak c) lx.cursor.rest
    rw [Option.mem_def.1 hc] at hhead
    simpa using hhead

theorem comment_piece {rest : List Char} (h : lx.cursor.rest = '#' :: rest) :
    Piece lx lx.comment := by
  have hbody := isComment_takeWhile h
  have hrest : lx.cursor.rest = (lx.cursor.rest.takeWhile fun c => !isBreak c) ++
      lx.cursor.rest.dropWhile fun c => !isBreak c := List.takeWhile_append_dropWhile.symm
  rw [comment_eq]
  generalize lx.cursor.rest.takeWhile (fun c => !isBreak c) = body at hbody hrest
  cases htag : Pragma.tag? body with
  | none => exact .comment hrest hbody htag
  | some tag =>
    obtain ⟨front, hfront, rfl⟩ := Pragma.exists_front_of_tag? htag
    dsimp only
    rw [List.length_append, Nat.add_sub_cancel_right, List.take_left]
    exact .pragma hrest hbody hfront htag

theorem continuation_piece {rest : List Char} (h : lx.cursor.rest = '\\' :: rest) :
    Piece lx lx.continuation := by
  have hrest : (lx.advance ['\\']).cursor.rest = rest := by
    rw [rest_advance, h]
    rfl
  unfold continuation
  dsimp only
  rw [hrest]
  cases hbreak : lineBreak? rest with
  | none => exact .stray h hbreak
  | some found =>
    obtain ⟨br, left⟩ := found
    obtain ⟨happend, _⟩ := append_of_lineBreak? hbreak
    subst happend
    cases left with
    | nil =>
      rw [List.append_nil] at h hbreak
      exact .brokenOff h hbreak
    | cons c left => exact .joined h hbreak

theorem lineBreak_piece {br rest : List Char} (h : lineBreak? lx.cursor.rest = some (br, rest)) :
    Piece lx (lx.lineBreak br) := by
  rw [lineBreak_eq]
  split
  · next hblank => exact .blankBreak h (by simpa using hblank)
  · next hcode =>
    have hcode : lx.blankLine = false ∧ lx.nesting = 0 := by simpa using hcode
    exact .newline h hcode.1 hcode.2

theorem literal_piece {x : Literal.Stretch} (h : Literal.stretch? lx.cursor.rest = some x) :
    Piece lx (lx.readLiteral x) := by
  obtain ⟨rest, hrest⟩ := Literal.append_of_stretch? h
  obtain ⟨read, error?⟩ := x
  unfold readLiteral
  cases error? with
  | none => exact .literal hrest h
  | some e => exact .unended h

theorem plain_piece {c : Char} {rest : List Char} (h : lx.cursor.rest = c :: rest)
    (hbreak : lineBreak? lx.cursor.rest = none) : Piece lx (lx.plain c lx.cursor.rest) := by
  unfold plain
  split
  · next hscan =>
    refine .bad h hscan (eq_false_of_ne_true fun hc => ?_)
    obtain ⟨br, left, hsome⟩ := exists_lineBreak? hc rest
    rw [← h, hbreak] at hsome
    cases hsome
  · next hscan => exact .plain (Plain.append_of_scan? hscan).symm hscan rfl

/-- What is read where no indentation is due. -/
theorem body_piece (lx : Lexer) : Piece lx.skipLayout lx.body := by
  cases hrest : lx.skipLayout.cursor.rest with
  | nil =>
    have hbody : lx.body = lx.skipLayout.endOfInput := by
      unfold skipLayout at *
      simp only [body, hrest]
    rw [hbody]
    exact .ended hrest
  | cons c rest =>
    by_cases hcomment : c = '#'
    · subst hcomment
      rw [body_of_comment hrest]
      exact comment_piece hrest
    · by_cases hescape : c = '\\'
      · subst hescape
        rw [body_of_continuation hrest]
        exact continuation_piece hrest
      · rw [body_of_code hrest hcomment hescape]
        split
        · next hbreak => exact lineBreak_piece hbreak
        · next hnone =>
          split
          · next hliteral => exact literal_piece hliteral
          · exact plain_piece hrest hnone

/-- Indentation is measured where a line starts, and nowhere else. -/
def Settles (lx ly : Lexer) : Prop :=
  (lx.atLineStart = true ∧ lx.measureLine = (none, ly)) ∨ (lx.atLineStart = false ∧ ly = lx)

/-- What a turn can do, and how that leaves a lexer. -/
inductive Turned (lx : Lexer) : Outcome × Lexer → Prop
  | due {x : Lexeme} {ly : Lexer} (h : lx.takeDue? = some (x, ly)) : Turned lx (.lexeme x, ly)
  | misplaced {e : LexError} {ly : Lexer} (hdue : lx.OwesNothing) (hstart : lx.atLineStart = true)
      (h : lx.measureLine = (some e, ly)) : Turned lx (.failed e, ly)
  | indented {x : Lexeme} {ly lz : Lexer} (hdue : lx.OwesNothing) (hsettles : lx.Settles ly)
      (h : ly.takeDue? = some (x, lz)) : Turned lx (.lexeme x, lz)
  | read {ly : Lexer} {r : Outcome × Lexer} (hdue : lx.OwesNothing) (hsettles : lx.Settles ly)
      (hdue' : ly.OwesNothing) (h : Piece ly.skipLayout r) : Turned lx r

theorem turned (lx : Lexer) : Turned lx lx.turn := by
  cases hdue : lx.takeDue? with
  | some due =>
    obtain ⟨x, ly⟩ := due
    rw [turn_of_due hdue]
    exact .due hdue
  | none =>
    have howes := takeDue?_eq_none_iff.1 hdue
    have hread : ∀ ly, lx.Settles ly →
        Turned lx (match ly.takeDue? with
          | some (x, lz) => (.lexeme x, lz)
          | none => ly.body) := by
      intro ly hsettles
      cases hdue' : ly.takeDue? with
      | some due => exact .indented howes hsettles hdue'
      | none => exact .read howes hsettles (takeDue?_eq_none_iff.1 hdue') (body_piece ly)
    cases hstart : lx.atLineStart with
    | true =>
      rw [turn_of_measure howes hstart]
      cases hmeasure : lx.measureLine with
      | mk e? ly =>
        cases e? with
        | some e => exact .misplaced howes hstart hmeasure
        | none => exact hread ly (Or.inl ⟨hstart, hmeasure⟩)
    | false =>
      have hbody := hread lx (Or.inr ⟨hstart, rfl⟩)
      rw [hdue] at hbody
      rw [turn_of_body howes hstart]
      exact hbody

theorem applyIndent_frame (m : Measure) (lx : Lexer) :
    (lx.applyIndent m).2 =
      { lx with
        indents := (lx.applyIndent m).2.indents
        pendingIndent := (lx.applyIndent m).2.pendingIndent
        pendingDedents := (lx.applyIndent m).2.pendingDedents
        asyncScope? := (lx.applyIndent m).2.asyncScope? } := by
  unfold applyIndent
  split
  · rfl
  · next change indents _ =>
    dsimp only
    rw [leaveAsyncScope_frame]
    cases change <;> rfl

/-- Measuring a line moves over its blanks, and changes nothing else but the layout. -/
theorem measureLine_frame (lx : Lexer) :
    lx.measureLine.2 =
      { lx.skipLayout with
        atLineStart := false
        blankLine := lx.measureLine.2.blankLine
        indents := lx.measureLine.2.indents
        pendingIndent := lx.measureLine.2.pendingIndent
        pendingDedents := lx.measureLine.2.pendingDedents
        asyncScope? := lx.measureLine.2.asyncScope? } := by
  have happly : ∀ blank m, ((lx.startLine blank).applyIndent m).2 =
      { lx.skipLayout with
        atLineStart := false
        blankLine := ((lx.startLine blank).applyIndent m).2.blankLine
        indents := ((lx.startLine blank).applyIndent m).2.indents
        pendingIndent := ((lx.startLine blank).applyIndent m).2.pendingIndent
        pendingDedents := ((lx.startLine blank).applyIndent m).2.pendingDedents
        asyncScope? := ((lx.startLine blank).applyIndent m).2.asyncScope? } := by
    intro blank m
    have hframe := applyIndent_frame m (lx.startLine blank)
    have hblank : ((lx.startLine blank).applyIndent m).2.blankLine = blank := by
      rw [hframe]
      rfl
    rw [hblank]
    exact hframe
  cases hrest : lx.skipLayout.cursor.rest with
  | nil =>
    have hspent : lx.Spent := by rw [Spent, ← rest_skipLayout, hrest]
    rw [measureLine_of_spent hspent]
    split
    · rfl
    · exact happly _ _
  | cons c rest =>
    rw [measureLine_of_code hrest]
    split
    · rfl
    · exact happly _ _

end Lexer
end Offside
