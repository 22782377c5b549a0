import Offside.Lexer.Cursor
import Offside.Proofs.Text.Breaks

/-!
Cursors that move over a text. A cursor that crosses what it stands before counts the line breaks
there, and one that is placed in a text, which is to say on the line and at the position that the
text before it tells, stays placed.
-/

namespace Offside

open Text

namespace Cursor

variable {cur cur' cur₁ : Cursor} {text read : List Char}

theorem advance_joined (read : List Char) (cur : Cursor) :
    cur.advance ('\r' :: '\n' :: read) =
      (((cur.skipChar '\r').skipChar '\n').openLine).advance read := by
  rw [advance]

theorem advance_cons {c : Char} (h : ¬Splits [c] read) (cur : Cursor) :
    cur.advance (c :: read) =
      if isBreak c then (cur.skipChar c).openLine.advance read
      else (cur.skipChar c).advance read := by
  rw [advance.eq_def]
  split
  · next heq => cases heq
  · next heq =>
    cases heq
    exact absurd ⟨rfl, rfl⟩ h
  · next heq =>
    cases heq
    rfl

theorem advance_append {a b : List Char} (h : ¬Splits a b) (cur : Cursor) :
    cur.advance (a ++ b) = (cur.advance a).advance b := by
  induction a, cur using advance_induction with
  | nil => rfl
  | joined rest cur ih => exact ih (not_splits_tail (not_splits_tail h))
  | lineBreak c rest cur hjoined hbreak hstep ih =>
    rw [List.cons_append, advance_cons (not_splits_head h hjoined), if_pos hbreak,
      ih (not_splits_tail h), hstep]
  | other c rest cur hjoined hbreak hstep ih =>
    rw [List.cons_append, advance_cons (not_splits_head h hjoined), hbreak,
      if_neg Bool.false_ne_true, ih (not_splits_tail h), hstep]

/-- Without line breaks, to advance is to skip. -/
theorem advance_of_unbroken (h : Unbroken read) (cur : Cursor) :
    cur.advance read = cur.skip read := by
  induction read generalizing cur with
  | nil => rw [advance, skip_nil]
  | cons c read ih =>
    obtain ⟨hc, hread⟩ := unbroken_cons.1 h
    rw [advance_cons (not_splits_singleton hc read), hc, if_neg Bool.false_ne_true, ih hread,
      skip_cons]

/-- A line break is crossed by skipping it and opening a line behind it. -/
theorem openLine_skip {br rest : List Char} (h : lineBreak? cur.rest = some (br, rest)) :
    (cur.skip br).openLine = cur.advance br := by
  rcases (lineBreak?_eq_some h).2.2 with rfl | rfl | rfl
  · rw [advance_joined, advance]
    rfl
  · rw [advance_cons (not_splits_nil_right _), if_pos (by decide), advance]
    rfl
  · rw [advance_cons (not_splits_nil_right _), if_pos (by decide), advance]
    rfl

/-- A line and more lines, of which the first is counted apart. -/
theorem line_succ (line : UInt32) (n : Nat) : line + 1 + .ofNat n = line + .ofNat (n + 1) := by
  rw [UInt32.add_assoc, Nat.add_comm n 1, UInt32.ofNat_add]
  rfl

theorem line_advance (read : List Char) (cur : Cursor) :
    (cur.advance read).line = cur.line + .ofNat (breakEndsFrom cur.offset read).length := by
  induction read, cur using advance_induction with
  | nil cur => exact (UInt32.add_zero cur.line).symm
  | joined read cur ih =>
    rw [breakEndsFrom_joined, List.length_cons]
    exact ih.trans (line_succ cur.line _)
  | lineBreak c read cur hjoined hbreak hstep ih =>
    rw [hstep, ih, breakEndsFrom_cons _ (not_splits_of_not_joined hjoined), if_pos hbreak,
      List.length_cons]
    exact line_succ cur.line _
  | other c read cur hjoined hbreak hstep ih =>
    rw [hstep, ih, breakEndsFrom_cons _ (not_splits_of_not_joined hjoined), hbreak,
      if_neg Bool.false_ne_true]
    rfl

theorem lineStart_advance (read : List Char) (cur : Cursor) :
    (cur.advance read).lineStart = (breakEndsFrom cur.offset read).getLastD cur.lineStart := by
  induction read, cur using advance_induction with
  | nil => rfl
  | joined read cur ih =>
    rw [breakEndsFrom_joined, List.getLastD_cons]
    exact ih
  | lineBreak c read cur hjoined hbreak hstep ih =>
    rw [hstep, ih, breakEndsFrom_cons _ (not_splits_of_not_joined hjoined), if_pos hbreak,
      List.getLastD_cons]
    rfl
  | other c read cur hjoined hbreak hstep ih =>
    rw [hstep, ih, breakEndsFrom_cons _ (not_splits_of_not_joined hjoined), hbreak,
      if_neg Bool.false_ne_true]
    rfl

/-- The text of a line is the text behind the last break that was crossed. -/
theorem lineText_advance (read : List Char) (cur : Cursor) :
    (cur.advance read).lineText =
      ((breakStops read).map fun n => cur.rest.drop n).getLastD cur.lineText := by
  -- behind the first characters the stops are counted from there
  have shift : ∀ (k : Nat) (rest : List Char) (stops : List Nat),
      (stops.map (k + ·)).map (fun n => rest.drop n) =
        stops.map fun n => (rest.drop k).drop n := by
    intro k rest stops
    rw [List.map_map]
    refine List.map_congr_left fun n _ => ?_
    rw [Function.comp_apply, List.drop_drop]
  induction read, cur using advance_induction with
  | nil => rfl
  | joined read cur ih =>
    have htwo : (cur.rest.drop 1).drop 1 = cur.rest.drop 2 := List.drop_drop
    rw [breakStops_joined, List.map_cons, List.getLastD_cons, shift, ← htwo]
    exact ih
  | lineBreak c read cur hjoined hbreak hstep ih =>
    rw [hstep, ih, breakStops_cons (not_splits_of_not_joined hjoined), if_pos hbreak,
      List.map_cons, List.getLastD_cons, shift]
    rfl
  | other c read cur hjoined hbreak hstep ih =>
    rw [hstep, ih, breakStops_cons (not_splits_of_not_joined hjoined), hbreak,
      if_neg Bool.false_ne_true, shift]
    rfl

theorem skip_eq (read : List Char) (cur : Cursor) :
    cur.skip read =
      { cur with rest := cur.rest.drop read.length, offset := cur.offset + byteLength read } := by
  induction read generalizing cur with
  | nil => rfl
  | cons c read ih =>
    rw [skip_cons, ih, skipChar, List.drop_drop, byteLength_cons, Nat.add_assoc, List.length_cons,
      Nat.add_comm 1]

/-- A cursor that has advanced is on the line, and at the line start, that the breaks tell. -/
theorem advance_eq (read : List Char) (cur : Cursor) :
    cur.advance read =
      { rest := cur.rest.drop read.length
        offset := cur.offset + byteLength read
        line := cur.line + .ofNat (breakEndsFrom cur.offset read).length
        lineStart := (breakEndsFrom cur.offset read).getLastD cur.lineStart
        lineText := ((breakStops read).map fun n => cur.rest.drop n).getLastD cur.lineText } := by
  rw [← rest_advance, ← offset_advance, ← line_advance, ← lineStart_advance, ← lineText_advance]

/-- A cursor moves over the text that it stands before, and does not stop inside a line break. -/
structure Crosses (read : List Char) (cur cur' : Cursor) : Prop where
  rest : cur.rest = read ++ cur'.rest
  moved : cur' = cur.advance read
  whole : ¬Splits read cur'.rest

theorem crosses_advance {rest : List Char} (h : cur.rest = read ++ rest)
    (hwhole : ¬Splits read rest) : Crosses read cur (cur.advance read) := by
  have hrest : (cur.advance read).rest = rest := by rw [rest_advance, h, List.drop_left]
  exact ⟨by rw [hrest, h], rfl, by rwa [hrest]⟩

theorem Crosses.refl (cur : Cursor) : Crosses [] cur cur :=
  ⟨rfl, by rw [advance], not_splits_nil_left _⟩

theorem Crosses.trans {a b : List Char} (h : Crosses a cur cur₁) (h' : Crosses b cur₁ cur') :
    Crosses (a ++ b) cur cur' := by
  by_cases hb : b = []
  · subst hb
    obtain rfl : cur' = cur₁ := by rw [h'.moved, advance]
    rwa [List.append_nil]
  · have hab : ¬Splits a b := by
      have hwhole := h.whole
      rwa [h'.rest, splits_append_right hb] at hwhole
    refine ⟨?_, ?_, ?_⟩
    · rw [h.rest, h'.rest, List.append_assoc]
    · rw [advance_append hab, ← h.moved, ← h'.moved]
    · rw [splits_append_left hb]
      exact h'.whole

theorem Crosses.offset (h : Crosses read cur cur') :
    cur'.offset = cur.offset + byteLength read := by rw [h.moved, offset_advance]

/-- A cursor is where it is when it has read the text before it. -/
structure Placed (text before : List Char) (cur : Cursor) : Prop where
  text_eq : text = before ++ cur.rest
  whole : ¬Splits before cur.rest
  offset : cur.offset = byteLength before
  line : cur.line = .ofNat (1 + (breakEnds before).length)
  lineStart : cur.lineStart = (breakEnds before).getLastD 0

theorem placed_start (text : List Char) : Placed text [] (start text) :=
  ⟨rfl, not_splits_nil_left _, rfl, rfl, rfl⟩

/-- A cursor that is placed stays placed. -/
theorem Placed.crosses {before : List Char} (h : Placed text before cur)
    (hcrosses : Crosses read cur cur') : Placed text (before ++ read) cur' := by
  by_cases hread : read = []
  · subst hread
    obtain rfl : cur' = cur := by rw [hcrosses.moved, advance]
    rwa [List.append_nil]
  · have hwhole : ¬Splits before read := by
      have := h.whole
      rwa [hcrosses.rest, splits_append_right hread] at this
    have hbreaks : breakEnds (before ++ read) =
        breakEnds before ++ breakEndsFrom cur.offset read := by
      rw [breakEnds, breakEndsFrom_append 0 hwhole, Nat.zero_add, ← h.offset, breakEnds]
    refine ⟨?_, ?_, ?_, ?_, ?_⟩
    · rw [h.text_eq, hcrosses.rest, List.append_assoc]
    · rw [splits_append_left hread]
      exact hcrosses.whole
    · rw [hcrosses.offset, h.offset, byteLength_append]
    · rw [hcrosses.moved, line_advance, h.line, hbreaks, List.length_append, ← Nat.add_assoc,
        UInt32.ofNat_add (_ + _)]
    · rw [hcrosses.moved, lineStart_advance, h.lineStart, hbreaks, getLastD_append]

end Cursor
end Offside
