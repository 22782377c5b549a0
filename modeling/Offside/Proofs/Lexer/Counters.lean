import Offside.Proofs.Lexer.LongComments
import Offside.Proofs.Lexer.Places
import Offside.Proofs.Lexer.Tiling
import Offside.Proofs.Lexer.View

/-!
How far a lexer counts. Positions and line numbers are stored in 32-bit words, and a source is
admitted by the number of its bytes. A lexer crosses its text whole, whatever it is asked for and
wherever it fails, so it is on the line that the text tells as long as the line has a number. The
numbers fit if the text and its lines do, and a text of line breaks alone shows that there is
nothing to spare.
-/

namespace Offside

open Text Cursor

namespace Cursor

variable {text before : List Char} {cur : Cursor}

/-- The line of a cursor starts behind as many line breaks as the cursor has crossed. -/
theorem Placed.line_of_lineStart (h : Placed text before cur) :
    cur.line = .ofNat (1 + breaksBefore text cur.lineStart) := by
  rw [h.line_eq, h.lineStart_eq, breaksBefore_lastBreakEnd]

theorem Placed.toNat_line (h : Placed text before cur)
    (hlines : (breakEnds text).length < maxPosition) :
    cur.line.toNat = 1 + (breakEnds before).length := by
  have hbefore := breaksBefore_le text cur.offset
  rw [h.breaksBefore_eq] at hbefore
  rw [h.line, Cursor.toNat_line (Nat.lt_of_le_of_lt hbefore hlines)]

theorem Placed.lineStart_le (h : Placed text before cur) : cur.lineStart ≤ byteLength text := by
  rw [h.lineStart_eq]
  exact Nat.le_trans (lastBreakEnd_le _ _) h.offset_le

end Cursor

namespace Lexer

variable {lx ly : Lexer} {cur cur' : Cursor} {x : Lexeme} {text before : List Char}

/-- A failed turn has crossed what it read, and no line break is cut in two. -/
structure Breaks (cur : Cursor) (ly : Lexer) : Prop where
  sameLine : ly.lineEnded = false
  read : ∃ read, Crosses read cur ly.cursor

theorem Breaks.after {gap : List Char} (hcrosses : Crosses gap cur cur') (h : Breaks cur' ly) :
    Breaks cur ly := by
  obtain ⟨read, hread⟩ := h.read
  exact ⟨h.sameLine, gap ++ read, hcrosses.trans hread⟩

/-- What was read and gives no token. -/
theorem breaks_of_read {read rest : List Char} (hline : lx.lineEnded = false)
    (hrest : lx.cursor.rest = read ++ rest) (hwhole : ¬Splits read rest) :
    Breaks lx.cursor (lx.advance read) :=
  ⟨hline, read, crosses_advance hrest hwhole⟩

theorem Piece.breaks (hline : lx.lineEnded = false) {e : LexError} (h : Piece lx (.failed e, ly)) :
    Breaks lx.cursor ly := by
  cases h with
  | @brokenOff br hrest hbreak =>
    have hslash : Crosses ['\\'] lx.cursor (lx.cursor.advance ['\\']) :=
      crosses_advance hrest (not_splits_of_unbroken (by decide) _)
    have hrest' : (lx.advance ['\\']).cursor.rest = br ++ [] := by
      rw [rest_advance, hrest, List.append_nil]
      rfl
    have hline' : (lx.advance ['\\']).lineEnded = false := hline
    exact (breaks_of_read hline' hrest' (not_splits_nil_right br)).after hslash
  | @stray rest hrest =>
    have hrest' : lx.cursor.rest = ['\\'] ++ rest := hrest
    exact breaks_of_read hline hrest' (not_splits_singleton (by decide) rest)
  | @unended read e hscan =>
    obtain ⟨rest, hrest⟩ := Literal.append_of_stretch? hscan
    exact breaks_of_read hline hrest (Literal.not_splits_of_stretch? hscan hrest)
  | @bad c rest hrest _ hbreak =>
    have hrest' : lx.cursor.rest = [c] ++ rest := hrest
    exact breaks_of_read hline hrest' (not_splits_singleton hbreak rest)

theorem breaks_of_turn (hline : lx.lineEnded = false) {e : LexError}
    (h : lx.turn = (.failed e, ly)) : Breaks lx.cursor ly := by
  have hturned := turned lx
  rw [h] at hturned
  cases hturned with
  | misplaced _ _ hmeasure =>
    have hframe := measureLine_frame lx
    rw [hmeasure] at hframe
    dsimp only at hframe
    have hline' : ly.lineEnded = false := by
      rw [hframe]
      exact hline
    have hcursor : ly.cursor = lx.skipLayout.cursor := by rw [hframe]
    exact ⟨hline', _, hcursor ▸ crosses_skipLayout lx⟩
  | @read ly _ _ hsettles _ hpiece =>
    obtain ⟨gap, _, hcrosses, hline'⟩ := hsettles.passes hline
    have hline'' : ly.skipLayout.lineEnded = false := hline'
    exact ((hpiece.breaks hline'').after (crosses_skipLayout ly)).after hcrosses

/-- Where a lexer stands by its text. It goes on from a place there; behind a newline token that is
a place on the next line, and the lexer is still on the line that has ended. -/
structure Counted (text : List Char) (lx : Lexer) : Prop where
  placed : ∃ before, Placed text before lx.leaveLine.cursor
  line : lx.cursor.line = .ofNat (1 + breaksBefore text lx.cursor.lineStart)

theorem counted_of_placed (hline : lx.lineEnded = false) (h : Placed text before lx.cursor) :
    Counted text lx := by
  refine ⟨⟨before, ?_⟩, h.line_of_lineStart⟩
  rwa [leaveLine_of_same_line hline]

theorem counted_of_hands (hplaced : Placed text before cur) (h : Hands cur ly x) :
    Counted text ly := by
  cases hended : ly.lineEnded with
  | false =>
    obtain ⟨read, hcrosses⟩ := h.crosses
    rw [leaveLine_of_same_line hended] at hcrosses
    exact counted_of_placed hended (hplaced.crosses hcrosses)
  | true =>
    obtain ⟨read, hcrosses⟩ := h.crosses
    refine ⟨⟨before ++ read, hplaced.crosses hcrosses⟩, ?_⟩
    cases h with
    | bare _ _ _ hline =>
      rw [hended] at hline
      cases hline
    | token _ _ _ hcrosses _ _ _ _ hbehind =>
      -- the line of the token is the one that has ended
      obtain ⟨hline, hlineStart⟩ := hbehind hended
      rw [hline, hlineStart, (hplaced.crosses hcrosses).line_of_lineStart]

theorem counted_fail (hplaced : Placed text before cur) (e : LexError) (h : Breaks cur ly) :
    Counted text (ly.fail e) := by
  obtain ⟨read, hcrosses⟩ := h.read
  have hline : (ly.fail e).lineEnded = false := h.sameLine
  exact counted_of_placed hline (hplaced.crosses hcrosses)

/-- What the turns of a lexer come to, until one gives a token or an error. -/
theorem counted_scan (hline : lx.lineEnded = false) (hplaced : Placed text before lx.cursor) :
    Counted text lx.scan.2 := by
  fun_induction scan lx generalizing before with
  | case1 lx x ly hturn =>
    have hreads := turn_readsOver hline
    rw [hturn] at hreads
    cases hreads with
    | lexeme hhands => exact counted_of_hands hplaced hhands
  | case2 lx e ly hturn => exact counted_fail hplaced e (breaks_of_turn hline hturn)
  | case3 lx ly hturn _ ih =>
    have hreads := turn_readsOver hline
    rw [hturn] at hreads
    cases hreads with
    | nothing hpasses =>
      obtain ⟨gap, _, hcrosses, hline'⟩ := hpasses
      exact ih hline' (hplaced.crosses hcrosses)

theorem Counted.next (h : Counted text lx) : Counted text lx.next.2 := by
  unfold Lexer.next
  split
  · exact h
  · obtain ⟨before, hplaced⟩ := h.placed
    exact counted_scan (lineEnded_leaveLine lx) hplaced

theorem leaveLine_queueDedents (n : Nat) (lx : Lexer) :
    (lx.queueDedents n).leaveLine.cursor = lx.leaveLine.cursor := by
  unfold leaveLine
  have hended : (lx.queueDedents n).lineEnded = lx.lineEnded := rfl
  rw [hended]
  split <;> rfl

theorem Counted.after (h : Counted text lx) (request : Request) :
    Counted text (lx.after request) := by
  cases request with
  | next => exact h.next
  | queueDedents n =>
    obtain ⟨before, hplaced⟩ := h.placed
    have hleave : (lx.after (.queueDedents n)).leaveLine.cursor = lx.leaveLine.cursor :=
      leaveLine_queueDedents n lx
    exact ⟨⟨before, hleave ▸ hplaced⟩, h.line⟩

theorem Counted.requests (h : Counted text lx) (requests : List Request) :
    Counted text (requests.foldl Lexer.after lx) := by
  induction requests generalizing lx with
  | nil => exact h
  | cons request requests ih => exact ih (h.after request)

theorem counted_ofSource (asyncAlways : Bool) (s : Source) :
    Counted s.text (ofSource asyncAlways s) :=
  counted_of_placed rfl (placed_start s.text)

/-- A lexeme tells its place in full: its line is a 32-bit number, the start of the line is where
it is and was not cut down to fit, and if the lexeme takes up text it has the span of it. -/
structure TellsPlace (text : List Char) (x : Lexeme) : Prop where
  line_le : x.line ≤ maxPosition
  place : ∃ before read rest, text = before ++ (read ++ rest) ∧
    x.line = 1 + (breakEnds before).length ∧ x.lineStart = (breakEnds before).getLastD 0 ∧
    (IsBare x.kind ∨ x.span? = some ⟨byteLength before, byteLength before + byteLength read⟩)

/-- The numbers that a lexer keeps and hands out fit into 32 bits, and tell what they count: the
line it is on is the one that its line start tells. -/
structure Fits (text : List Char) (lx : Lexer) : Prop where
  line : lx.cursor.line.toNat = 1 + breaksBefore text lx.cursor.lineStart
  lineStart_le : lx.cursor.lineStart ≤ maxPosition
  lexeme : ∀ x ly, lx.next = (.ok x, ly) → TellsPlace text x

variable {s : Source}

theorem tellsPlace_of_hands (hsize : byteLength text ≤ maxPosition)
    (hlines : (breakEnds text).length < maxPosition) (hplaced : Placed text before cur)
    (h : Hands cur ly x) : TellsPlace text x := by
  cases h with
  | @bare kind gap hkind _ hcrosses =>
    have hat := hplaced.crosses hcrosses
    have hstart := hat.lineStart_le
    refine ⟨Nat.le_of_lt_succ ly.cursor.line.toNat_lt, before ++ gap, [], ly.cursor.rest,
      hat.text_eq, hat.toNat_line hlines, ?_, Or.inl hkind⟩
    show min ly.cursor.lineStart maxPosition = _
    rw [Nat.min_eq_left (Nat.le_trans hstart hsize), hat.lineStart]
  | @token kind gap read tail at' behind _ _ _ hcrosses hread =>
    have hat := hplaced.crosses hcrosses
    have hstart := hat.lineStart_le
    refine ⟨?_, before ++ gap, read, behind.rest, ?_, ?_, ?_, Or.inr ?_⟩
    · rw [line_lexeme]
      exact Nat.le_of_lt_succ at'.line.toNat_lt
    · rw [← hread.rest]
      exact hat.text_eq
    · rw [line_lexeme, hat.toNat_line hlines]
    · rw [lineStart_lexeme, Nat.min_eq_left (Nat.le_trans hstart hsize), hat.lineStart]
    · rw [hat.span?_of_crosses hread hsize, hat.offset]

theorem Counted.fits (hsize : byteLength text ≤ maxPosition)
    (hlines : (breakEnds text).length < maxPosition) (hview : Viewed text lx)
    (h : Counted text lx) : Fits text lx := by
  have hcoherent := hview.coherent
  refine ⟨?_, ?_, fun x ly hnext => ?_⟩
  · have hbreaks := breaksBefore_le text lx.cursor.lineStart
    rw [h.line, Cursor.toNat_line (Nat.lt_of_le_of_lt hbreaks hlines)]
  · exact Nat.le_trans hcoherent.lineStart_le (Nat.le_trans hcoherent.offset_le hsize)
  · obtain ⟨before, hplaced⟩ := h.placed
    exact tellsPlace_of_hands hsize hlines hplaced (next_hands hnext)

/-- What is handed out can be asked for. -/
theorem Yields.requests {xs : List Lexeme} (h : Yields lx xs ly) :
    (List.replicate xs.length Request.next).foldl Lexer.after lx = ly := by
  induction h with
  | nil => rfl
  | @cons lx ly lz x xs hnext _ ih =>
    have hafter : lx.after .next = ly := congrArg Prod.snd hnext
    rw [List.length_cons, List.replicate_succ, List.foldl_cons, hafter, ih]

/-- Behind a text of line breaks alone, a lexer has crossed every one of them. -/
theorem exists_requests_of_breaks (asyncAlways : Bool) (h : ∀ c ∈ s.text, isBreak c = true) :
    ∃ requests : List Request,
      breaksBefore s.text (requests.foldl Lexer.after (ofSource asyncAlways s)).cursor.lineStart =
        (breakEnds s.text).length := by
  obtain ⟨xs, lx, e, ly, hyields, hnext, -, hplaced⟩ := exists_endMarker_of_breaks asyncAlways h
  refine ⟨List.replicate xs.length .next ++ [.next], ?_⟩
  have hafter : lx.after .next = ly := congrArg Prod.snd hnext
  rw [List.foldl_append, hyields.requests, List.foldl_cons, List.foldl_nil, hafter,
    hplaced.lineStart_eq, breaksBefore_lastBreakEnd, hplaced.breaksBefore_eq]

end Lexer

namespace Source

open Lexer

/-- The text of a source fits into 32-bit positions, and so does all that a lexer counts in it,
whatever it is asked for and in whatever order. -/
structure FitsPositions (s : Source) : Prop where
  size_le : byteLength s.text ≤ maxPosition
  lexer : ∀ (asyncAlways : Bool) (requests : List Lexer.Request),
    Fits s.text (requests.foldl Lexer.after (ofSource asyncAlways s))

/-- A text that fits has room for its lines, unless it is line breaks from end to end. -/
theorem fitsPositions_iff {s : Source} :
    s.FitsPositions ↔
      byteLength s.text ≤ maxPosition ∧ (breakEnds s.text).length < maxPosition := by
  constructor
  · intro h
    refine ⟨h.size_le, ?_⟩
    by_contra hlines
    have hbreaks : ∀ c ∈ s.text, isBreak c = true :=
      isBreak_of_byteLength_le (Nat.le_trans h.size_le (Nat.not_lt.1 hlines))
    obtain ⟨requests, hcount⟩ := exists_requests_of_breaks false hbreaks
    -- the line behind the last break has no number of 32 bits
    have hline := (h.lexer false requests).line
    rw [hcount] at hline
    have hlt := (requests.foldl Lexer.after (ofSource false s)).cursor.line.toNat_lt
    rw [hline] at hlt
    have hmax : maxPosition = 4294967295 := rfl
    omega
  · rintro ⟨hsize, hlines⟩
    refine ⟨hsize, fun asyncAlways requests => ?_⟩
    have hview : Viewed s.text (requests.foldl Lexer.after (ofSource asyncAlways s)) :=
      Viewed.requests (.within (within_ofSource asyncAlways s)) requests
    exact ((counted_ofSource asyncAlways s).requests requests).fits hsize hlines hview

variable {mode : DecodeMode} {declared? : Option String} {bytes : List UInt8} {s : Source}

/-- A source that is admitted by the number of its bytes fits into 32-bit positions exactly if it
is not Latin-1 that grows beyond them, and not line breaks from end to end. -/
theorem fitsPositions_of_decode (h : decode mode declared? bytes = .ok s) :
    s.FitsPositions ↔
      (s.readIn = .latin1 → bytes.length + bytes.countP isUpper ≤ maxPosition) ∧
        (breakEnds s.text).length < maxPosition := by
  rw [fitsPositions_iff, byteLength_of_source h]

theorem fitsPositions_of_decode_small :
    decode .cookie (some "latin-1") [0xE9, 10] = .ok ⟨['é', '\n'], some "iso-8859-1"⟩ ∧
      FitsPositions ⟨['é', '\n'], some "iso-8859-1"⟩ := by
  have hdecode : decode .cookie (some "latin-1") [0xE9, 10] =
      .ok ⟨['é', '\n'], some "iso-8859-1"⟩ := by decide +kernel
  exact ⟨hdecode, (fitsPositions_of_decode hdecode).2 ⟨fun _ => by decide, by decide⟩⟩

/-- Two empty lines hold no cookie. -/
theorem cookie?_of_two_feeds (more : List UInt8) : cookie? (10 :: 10 :: more) = none := by
  have hline := fun rest n => cookieInLines?_line (List.not_mem_nil : (10 : UInt8) ∉ [])
    (show ∀ b ∈ (10 :: rest).head?, b = (10 : UInt8) from fun b hb => (Option.some.inj hb).symm) n
  have hopen : holdsNoCode ([].map Codec.charOfByte) = true := rfl
  have hnone : cookieOfLine? ([].map Codec.charOfByte) = none := rfl
  have hsearch : ∀ rest n, (cookieInLines? (n + 1) (10 :: rest)) =
      if (Text.decode []).isOk then cookieInLines? n rest else none := by
    intro rest n
    have := hline rest n
    rwa [List.nil_append, hnone, Option.none_or, if_pos hopen, List.tail_cons] at this
  rw [cookie?, hsearch, hsearch, cookieInLines?, ite_self, ite_self]
  rfl

/-- A comment in Latin-1 between line breaks, all of the upper half, has twice as many bytes when
it is read. -/
theorem exists_decode_of_comment {n : Nat} (hn : n + 6 ≤ maxPosition) :
    ∃ s, decode .cookie (some "latin-1")
        (10 :: 10 :: 0x23 :: (List.replicate n 0xE9 ++ [10, 0x78, 10])) = .ok s ∧
      byteLength s.text = 2 * n + 6 := by
  generalize hbytes : (10 :: 10 :: 0x23 :: (List.replicate n 0xE9 ++ [10, 0x78, 10]) :
    List UInt8) = bytes
  have hcookie : cookie? bytes = none := by
    rw [← hbytes]
    exact cookie?_of_two_feeds _
  have hmark : cutMark bytes = (bytes, false) := by
    rw [← hbytes]
    refine cutMark_of_head fun b hb => ?_
    obtain rfl : 10 = b := Option.some.inj hb
    decide
  have hlength : bytes.length = n + 6 := by
    rw [← hbytes, List.length_cons, List.length_cons, List.length_cons, List.length_append,
      List.length_replicate]
    rfl
  have hupper : bytes.countP isUpper = n := by
    have hmore : [10, 0x78, 10].countP isUpper = 0 := by decide
    have hbyte : isUpper 0xE9 = true := by decide
    have hfeed : ¬isUpper 10 = true := by decide
    have hhash : ¬isUpper 0x23 = true := by decide
    rw [← hbytes, List.countP_cons_of_neg hfeed, List.countP_cons_of_neg hfeed,
      List.countP_cons_of_neg hhash, List.countP_append, List.countP_replicate, if_pos hbyte, hmore,
      Nat.add_zero]
  have hsize : bytes.length ≤ maxPosition := by
    rw [hlength]
    exact hn
  refine ⟨_, decode_latin1 hsize hmark hcookie, ?_⟩
  rw [byteLength_map_charOfByte, hlength, hupper]
  omega

/-- A source of two gigabytes in Latin-1 is admitted, and its text is one of more than four. -/
theorem not_fitsPositions_of_latin1 :
    ∃ s, decode .cookie (some "latin-1")
        (10 :: 10 :: 0x23 :: (List.replicate 2147483648 0xE9 ++ [10, 0x78, 10])) = .ok s ∧
      byteLength s.text = 4294967302 ∧ ¬s.FitsPositions := by
  have hn : 2147483648 + 6 ≤ maxPosition := by decide
  obtain ⟨s, hs, hlength⟩ := exists_decode_of_comment hn
  refine ⟨s, hs, hlength, fun h => ?_⟩
  have hsize := h.size_le
  rw [hlength] at hsize
  exact absurd hsize (by decide)

end Source
end Offside
