import Offside.Proofs.Lexer.Gaps
import Offside.Proofs.Lexer.Idle

/-!
Places of lexemes. A lexer counts lines while it reads, and leaves the line of a newline token
only when it goes on; what it says of a lexeme is nevertheless what the text says: the line is told
by the line breaks before the lexeme, and the column by the last of them. Lines are counted in 32
bits. In a text that is shorter than that the count falls short only if there is nothing else to
count, behind as many line breaks of one byte each as there are numbers.
-/

namespace Offside

open Text Cursor

namespace Cursor

variable {text before read : List Char} {cur : Cursor} {kind : Kind}

theorem Placed.breaksBefore_eq (h : Placed text before cur) :
    breaksBefore text cur.offset = (breakEnds before).length := by
  rw [h.offset, h.text_eq, breaksBefore_append h.whole]

theorem Placed.line_eq (h : Placed text before cur) :
    cur.line = .ofNat (1 + breaksBefore text cur.offset) := by
  rw [h.line, h.breaksBefore_eq]

/-- As long as the number of a line fits, the line has it. -/
theorem toNat_line {n : Nat} (h : n < maxPosition) : (UInt32.ofNat (1 + n)).toNat = 1 + n := by
  rw [maxPosition] at h
  exact UInt32.toNat_ofNat_of_lt (by show 1 + n < 4294967296; omega)

/-- Behind the last line that has a number comes one that is numbered 0. -/
theorem toNat_line_maxPosition : (UInt32.ofNat (1 + maxPosition)).toNat = 0 := rfl

theorem breaksBefore_le (text : List Char) (position : Nat) :
    breaksBefore text position ≤ (breakEnds text).length := List.length_filter_le _ _

/-- Only line breaks from end to end leave no number for the line behind them. -/
theorem Placed.breaksBefore_lt (h : Placed text before cur) (hsize : byteLength text ≤ maxPosition)
    (hroom : (∀ c ∈ before, isBreak c = true) → cur.rest ≠ []) :
    breaksBefore text cur.offset < maxPosition := by
  have htext : byteLength text = byteLength before + byteLength cur.rest := by
    rw [h.text_eq, byteLength_append]
  have hle : (breakEnds before).length ≤ byteLength before := length_breakEnds_le before
  rw [h.breaksBefore_eq]
  by_contra hlines
  have hbreaks : ∀ c ∈ before, isBreak c = true :=
    isBreak_of_byteLength_le (by omega)
  obtain ⟨c, rest, hrest⟩ := List.exists_cons_of_ne_nil (hroom hbreaks)
  have hpos := c.utf8Size_pos
  rw [hrest, byteLength_cons] at htext
  omega

theorem Placed.lineStart_eq (h : Placed text before cur) :
    cur.lineStart = lastBreakEnd text cur.offset := by
  rw [h.lineStart, h.offset, h.text_eq, lastBreakEnd_append h.whole]

theorem Placed.offset_le (h : Placed text before cur) : cur.offset ≤ byteLength text := by
  rw [h.offset, h.text_eq, byteLength_append]
  exact Nat.le_add_right _ _

theorem lineStart_lexeme (kind : Kind) (read : List Char) (cur : Cursor) :
    (cur.lexeme kind read).lineStart = min cur.lineStart maxPosition := by
  unfold lexeme
  split <;> rfl

theorem span?_lexeme (kind : Kind) (read : List Char) (cur : Cursor) :
    (cur.lexeme kind read).span? = Span.ofRange? cur.offset (cur.offset + byteLength read) := by
  unfold lexeme
  split
  · next s hs => exact hs.symm
  · next hnone => exact hnone.symm

/-- What is read of a text that fits has its span. -/
theorem Placed.span?_of_crosses {behind : Cursor} (h : Placed text before cur)
    (hread : Crosses read cur behind) (hsize : byteLength text ≤ maxPosition) :
    (cur.lexeme kind read).span? = some ⟨cur.offset, cur.offset + byteLength read⟩ := by
  have hfits := (h.crosses hread).offset_le
  rw [hread.offset] at hfits
  rw [span?_lexeme, Span.ofRange?_eq_some_iff]
  exact ⟨by omega, by omega, rfl⟩

/-- The column of a lexeme counts from the last line break before it. -/
theorem Placed.column?_lexeme (h : Placed text before cur) {s : Span}
    (hs : s ∈ (cur.lexeme kind read).span?) :
    s.start = cur.offset ∧
      (cur.lexeme kind read).column? = some (s.start - lastBreakEnd text s.start) := by
  have hspan := Option.mem_def.1 hs
  rw [span?_lexeme, Span.ofRange?_eq_some_iff] at hspan
  have hstart : s.start = cur.offset := by rw [hspan.2.2]
  have hle := lastBreakEnd_le text cur.offset
  have hmin : min cur.lineStart maxPosition = lastBreakEnd text cur.offset := by
    rw [h.lineStart_eq]
    omega
  refine ⟨hstart, ?_⟩
  rw [Lexeme.column?, Option.mem_def.1 hs, Option.bind_some, lineStart_lexeme, hmin, hstart,
    if_pos hle]

end Cursor

namespace Lexer

variable {lx ly : Lexer} {x : Lexeme} {xs : List Lexeme} {text before : List Char}

theorem Hands.placed (h : Hands lx.leaveLine.cursor ly x)
    (hplaced : Placed text before lx.leaveLine.cursor) :
    ∃ before', Placed text before' ly.leaveLine.cursor := by
  obtain ⟨read, hcrosses⟩ := h.crosses
  exact ⟨before ++ read, hplaced.crosses hcrosses⟩

/-- Where a lexer goes on after some lexemes. -/
theorem Yields.placed (h : Yields lx xs ly) (hplaced : Placed text before lx.leaveLine.cursor) :
    ∃ before', Placed text before' ly.leaveLine.cursor := by
  induction h generalizing before with
  | nil => exact ⟨before, hplaced⟩
  | cons hnext _ ih =>
    obtain ⟨before', hplaced'⟩ := (next_hands hnext).placed hplaced
    exact ih hplaced'

/-- A token stands before text, or behind the hash of a pragma. -/
theorem rest_ne_nil_of_token {kind : Kind} {gap : List Char} {cur : Cursor}
    (hpragma : kind = .typeIgnore → EndsInPragma gap)
    (hahead : kind ≠ .typeIgnore → cur.rest ≠ []) (h : ∀ c ∈ before ++ gap, isBreak c = true) :
    cur.rest ≠ [] := by
  by_cases hkind : kind = .typeIgnore
  · obtain ⟨opened, front, -, ⟨blanks, blanks', -, rfl⟩, rfl⟩ := hpragma hkind
    have hhash : isBreak '#' = true := h '#' (by simp)
    cases hhash
  · exact hahead hkind

/-- The place of a lexeme is the one that the text tells. A lexeme with a span is on the line after
the line breaks before it, and its column counts the bytes from the last of them; one without is on
the line where the lexer stands. The number of that line is told as 0 when it does not fit, and then
the text is line breaks from end to end. -/
theorem place_of_next {asyncAlways : Bool} {s : Source} (hsize : byteLength s.text ≤ maxPosition)
    (hyields : Yields (ofSource asyncAlways s) xs lx) (h : lx.next = (.ok x, ly)) :
    (∀ span ∈ x.span?, x.line = 1 + breaksBefore s.text span.start ∧
      x.column? = some (span.start - lastBreakEnd s.text span.start)) ∧
    (x.span? = none → breaksBefore s.text ly.cursor.offset < maxPosition →
      x.line = 1 + breaksBefore s.text ly.cursor.offset) ∧
    (x.span? = none → maxPosition ≤ breaksBefore s.text ly.cursor.offset →
      x.line = 0 ∧ breaksBefore s.text ly.cursor.offset = maxPosition ∧
        ∀ c ∈ s.text, isBreak c = true) := by
  have hstart : Placed s.text [] (ofSource asyncAlways s).leaveLine.cursor := placed_start s.text
  obtain ⟨before, hplaced⟩ := hyields.placed hstart
  cases next_hands h with
  | @bare kind _ _ _ hcrosses =>
    have hline : (ly.cursor.bare kind).line = ly.cursor.line.toNat := rfl
    have hat := hplaced.crosses hcrosses
    refine ⟨fun span hspan => (nomatch hspan), fun _ hfits => ?_, fun _ hover => ?_⟩
    · rw [hline, hat.line_eq, toNat_line hfits]
    · have hbreaks := breaksBefore_le s.text ly.cursor.offset
      have hbytes : (breakEnds s.text).length ≤ byteLength s.text := length_breakEnds_le _
      have hcount : breaksBefore s.text ly.cursor.offset = maxPosition := by omega
      refine ⟨?_, hcount, isBreak_of_byteLength_le ?_⟩
      · rw [hline, hat.line_eq, hcount, toNat_line_maxPosition]
      · omega
  | @token kind gap read _ at' _ _ _ hpragma hcrosses hread _ _ hahead =>
    have hat := hplaced.crosses hcrosses
    have hsome : (at'.lexeme kind read).span? = some _ := hat.span?_of_crosses hread hsize
    refine ⟨fun span hspan => ?_, fun hnone => ?_, fun hnone => ?_⟩
    · obtain ⟨hstart, hcolumn⟩ := hat.column?_lexeme hspan
      refine ⟨?_, hcolumn⟩
      have hlines := hat.breaksBefore_lt hsize (rest_ne_nil_of_token hpragma hahead)
      rw [line_lexeme, hat.line_eq, hstart, toNat_line hlines]
    · rw [hsome] at hnone
      cases hnone
    · rw [hsome] at hnone
      cases hnone

/-- The word on the second line of a text. -/
theorem place_of_next_second_line :
    ∃ x ly, (ofSource false ⟨['x', '\r', '\n', ' ', 'y'], none⟩).next.2.next.2.next.2.next =
        (.ok x, ly) ∧ x.text = "y" ∧
      (∀ span ∈ x.span?, x.line = 1 + breaksBefore ['x', '\r', '\n', ' ', 'y'] span.start ∧
        x.column? = some (span.start - lastBreakEnd ['x', '\r', '\n', ' ', 'y'] span.start)) ∧
      x.span?.isSome = true := by
  let lx := ofSource false ⟨['x', '\r', '\n', ' ', 'y'], none⟩
  have hword : lx.next = (.ok ⟨.word, some ⟨0, 1⟩, "x", 1, 0⟩, lx.next.2) :=
    Prod.ext (by decide +kernel) rfl
  have hbreak : lx.next.2.next = (.ok ⟨.newline, some ⟨1, 1⟩, "", 1, 0⟩, lx.next.2.next.2) :=
    Prod.ext (by decide +kernel) rfl
  have hindent : lx.next.2.next.2.next =
      (.ok ⟨.indent, none, "", 2, 3⟩, lx.next.2.next.2.next.2) := Prod.ext (by decide +kernel) rfl
  have hsecond : lx.next.2.next.2.next.2.next =
      (.ok ⟨.word, some ⟨4, 5⟩, "y", 2, 3⟩, lx.next.2.next.2.next.2.next.2) :=
    Prod.ext (by decide +kernel) rfl
  have hplace := place_of_next (s := ⟨['x', '\r', '\n', ' ', 'y'], none⟩) (by decide)
    (.cons hword (.cons hbreak (.cons hindent (.nil _)))) hsecond
  exact ⟨_, _, hsecond, rfl, hplace.1, rfl⟩

/-- Behind a text of line breaks alone, a lexer has counted every one of them. -/
theorem exists_endMarker_of_breaks (asyncAlways : Bool) {s : Source}
    (h : ∀ c ∈ s.text, isBreak c = true) :
    ∃ xs lx e ly, Yields (ofSource asyncAlways s) xs lx ∧ lx.next = (.ok e, ly) ∧
      e = ly.cursor.bare .endMarker ∧ Placed s.text s.text ly.cursor := by
  obtain ⟨xs, e, ly, hyields, he, -⟩ := (idle_ofSource asyncAlways (showsCode_of_breaks h)).yields
  have hstart : Placed s.text [] (ofSource asyncAlways s).leaveLine.cursor := placed_start s.text
  obtain ⟨before, hplaced⟩ := hyields.placed hstart
  obtain ⟨lx, hbefore, hlast⟩ := hyields.append_inv
  cases hlast with
  | cons hnext hnil =>
    cases hnil
    have hrest := rest_of_endMarker hnext he
    rw [leaveLine_of_endMarker hnext he] at hplaced hrest
    have htext : before = s.text := by
      rw [hplaced.text_eq, hrest, List.append_nil]
    refine ⟨xs, lx, e, ly, hbefore, hnext, ?_, htext ▸ hplaced⟩
    cases next_hands hnext with
    | @bare kind =>
      obtain rfl : kind = .endMarker := he
      rfl
    | token hkind =>
      rw [kind_lexeme] at he
      exact absurd (Or.inr (Or.inr he)) hkind

theorem length_breakEndsFrom_feeds (position n : Nat) :
    (breakEndsFrom position (List.replicate n '\n')).length = n := by
  induction n generalizing position with
  | zero => rfl
  | succ n ih =>
    have hcut : ¬Splits ['\n'] (List.replicate n '\n') := fun h => by cases h.1
    rw [List.replicate_succ, breakEndsFrom_cons _ hcut, if_pos (by decide), List.length_cons, ih]

theorem byteLength_feeds (n : Nat) : byteLength (List.replicate n '\n') = n := by
  induction n with
  | zero => rfl
  | succ n ih =>
    have hfeed : '\n'.utf8Size = 1 := rfl
    rw [List.replicate_succ, byteLength_cons, ih, hfeed, Nat.add_comm]

/-- Behind so many line feeds the end marker is on the line that has the next number, as far as
the numbers go. -/
theorem endMarker_of_feeds (n : Nat) :
    ∃ xs lx x ly, Yields (ofSource false ⟨List.replicate n '\n', none⟩) xs lx ∧
      lx.next = (.ok x, ly) ∧ x.kind = .endMarker ∧ x.span? = none ∧
      x.line = (UInt32.ofNat (1 + n)).toNat ∧
      breaksBefore (List.replicate n '\n') ly.cursor.offset = n := by
  have hbreaks : ∀ c ∈ List.replicate n '\n', isBreak c = true := by
    intro c hc
    rw [List.eq_of_mem_replicate hc]
    rfl
  obtain ⟨xs, lx, e, ly, hyields, hnext, rfl, hplaced⟩ :=
    exists_endMarker_of_breaks false (s := ⟨List.replicate n '\n', none⟩) hbreaks
  have hcount : breaksBefore (List.replicate n '\n') ly.cursor.offset = n :=
    hplaced.breaksBefore_eq.trans (length_breakEndsFrom_feeds 0 n)
  refine ⟨xs, lx, _, ly, hyields, hnext, rfl, rfl, ?_, hcount⟩
  show ly.cursor.line.toNat = _
  rw [hplaced.line_eq, hcount]

/-- The line behind 4294967295 line feeds is told as line 0. -/
theorem not_place_of_feeds :
    byteLength (List.replicate 4294967295 '\n') ≤ maxPosition ∧
      ∃ xs lx x ly, Yields (ofSource false ⟨List.replicate 4294967295 '\n', none⟩) xs lx ∧
        lx.next = (.ok x, ly) ∧ x.kind = .endMarker ∧ x.span? = none ∧ x.line = 0 ∧
        breaksBefore (List.replicate 4294967295 '\n') ly.cursor.offset = 4294967295 := by
  obtain ⟨xs, lx, x, ly, hyields, hnext, hkind, hspan, hline, hcount⟩ :=
    endMarker_of_feeds 4294967295
  refine ⟨?_, xs, lx, x, ly, hyields, hnext, hkind, hspan, hline.trans ?_, hcount⟩
  · rw [byteLength_feeds, maxPosition]
  · exact toNat_line_maxPosition

end Lexer
end Offside
