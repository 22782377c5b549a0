import Offside.Lexer

/-!
The open blocks of a lexer. Every block that is open starts right of the first column, so that a
line that starts there closes them all, and a turn that gives no token leaves as many open as there
were.
-/

namespace Offside

namespace Indents

/-- All open levels start right of the first column. -/
def Positive (s : Indents) : Prop := ∀ m ∈ s.levels, 0 < m.column

theorem positive_empty : empty.Positive := fun _ h => absurd h List.not_mem_nil

theorem mem_of_mem_close {column : Nat} {ms : List Measure} {m : Measure}
    (h : m ∈ (close column ms).1) : m ∈ ms := by
  induction ms with
  | nil => exact h
  | cons m' ms ih =>
    unfold close at h
    split at h
    · exact List.mem_cons_of_mem _ (ih h)
    · exact h

theorem Positive.apply {s : Indents} (h : s.Positive) (m : Measure) :
    (s.apply m).2.Positive := by
  have hclose : Positive ⟨(close m.column s.levels).1⟩ := fun _ hm => h _ (mem_of_mem_close hm)
  unfold Indents.apply
  dsimp only
  split
  · split <;> exact h
  · split
    · next hdeeper =>
      split
      · exact h
      · split
        · exact h
        · intro m' hm'
          rcases List.mem_cons.1 hm' with rfl | hm'
          · exact Nat.lt_of_le_of_lt (Nat.zero_le _) hdeeper
          · exact h m' hm'
    · split
      · exact hclose
      · split <;> exact hclose

theorem close_zero {ms : List Measure} (h : ∀ m ∈ ms, 0 < m.column) :
    close 0 ms = ([], ms.length) := by
  induction ms with
  | nil => rfl
  | cons m ms ih =>
    rw [close, if_pos (h m List.mem_cons_self), ih fun m' hm' => h m' (List.mem_cons_of_mem _ hm')]
    rfl

/-- A line at the first column closes every open level. -/
theorem apply_zero {s : Indents} (h : s.Positive) (hdepth : 0 < s.depth) :
    s.apply Measure.zero = (.ok (.shallower s.depth), empty) := by
  obtain ⟨levels⟩ := s
  cases levels with
  | nil => exact absurd hdepth (Nat.lt_irrefl _)
  | cons m ms =>
    have htop : Measure.zero.column < (⟨m :: ms⟩ : Indents).top.column := h m List.mem_cons_self
    have hclose : close Measure.zero.column (m :: ms) = ([], (m :: ms).length) := close_zero h
    unfold Indents.apply
    dsimp only
    rw [if_neg (Nat.ne_of_lt htop), if_neg (Nat.not_lt_of_lt htop), hclose]
    rfl

end Indents

namespace Lexer

variable {lx ly : Lexer}

theorem indents_comment (lx : Lexer) : lx.comment.2.indents = lx.indents := by
  unfold comment
  dsimp only
  split
  · rfl
  · split
    · split <;> rfl
    · rfl

theorem indents_lineBreak (br : List Char) (lx : Lexer) :
    (lx.lineBreak br).2.indents = lx.indents := by
  unfold lineBreak
  split <;> rfl

theorem indents_continuation (lx : Lexer) : lx.continuation.2.indents = lx.indents := by
  unfold continuation
  dsimp only
  split <;> rfl

theorem indents_literal (extent : Literal.Extent) (lx : Lexer) :
    (lx.literal extent).2.indents = lx.indents := by
  unfold literal
  dsimp only
  split <;> rfl

theorem indents_nest (kind : Kind) (lx : Lexer) : (lx.nest kind).indents = lx.indents := by
  unfold nest
  split
  · rfl
  · split <;> rfl

theorem indents_classifyAsync (keyword : Kind) (rest : List Char) (lx : Lexer) :
    (lx.classifyAsync keyword rest).2.indents = lx.indents := by
  unfold classifyAsync
  split
  · rfl
  · split <;> rfl

theorem indents_classify (kind : Kind) (read rest : List Char) (lx : Lexer) :
    (lx.classify kind read rest).2.indents = lx.indents := by
  unfold classify
  split
  · exact indents_classifyAsync _ _ _
  · split
    · exact indents_classifyAsync _ _ _
    · rfl

theorem indents_plain (c : Char) (text : List Char) (lx : Lexer) :
    (lx.plain c text).2.indents = lx.indents := by
  unfold plain
  split
  · rfl
  · next kind read rest _ =>
    show (((lx.advance read).nest kind).classify kind read rest).2.indents = _
    rw [indents_classify, indents_nest]
    rfl

theorem indents_body (lx : Lexer) : lx.body.2.indents = lx.indents := by
  unfold body
  dsimp only
  split
  · rfl
  · exact indents_comment _
  · exact indents_continuation _
  · split
    · exact indents_lineBreak _ _
    · split
      · exact indents_literal _ _
      · exact indents_plain _ _ _

theorem indents_takeDue? {x : Lexeme} (h : lx.takeDue? = some (x, ly)) :
    ly.indents = lx.indents := by
  unfold takeDue? at h
  split at h
  · obtain ⟨_, rfl⟩ := Prod.mk.inj (Option.some.inj h)
    rfl
  · split at h
    · obtain ⟨_, rfl⟩ := Prod.mk.inj (Option.some.inj h)
      rfl
    · cases h

theorem leaveAsyncScope_frame (lx : Lexer) :
    lx.leaveAsyncScope = { lx with asyncScope? := lx.leaveAsyncScope.asyncScope? } := by
  unfold leaveAsyncScope
  split
  · split <;> rfl
  · rfl

theorem indents_leaveAsyncScope (lx : Lexer) : lx.leaveAsyncScope.indents = lx.indents := by
  rw [leaveAsyncScope_frame]

theorem indents_applyIndent (m : Measure) (lx : Lexer) :
    (lx.applyIndent m).2.indents = (lx.indents.apply m).2 := by
  unfold applyIndent
  split
  · next heq => rw [heq]
  · next change indents heq =>
    rw [heq]
    refine (indents_leaveAsyncScope _).trans ?_
    cases change <;> rfl

/-- Measuring a line compares it with the open blocks, if it does anything to them. -/
theorem indents_measureLine (lx : Lexer) :
    lx.measureLine.2.indents = lx.indents ∨
      ∃ m, lx.measureLine.2.indents = (lx.indents.apply m).2 := by
  unfold measureLine
  dsimp only
  split
  · split
    · exact Or.inl rfl
    · exact Or.inr ⟨_, indents_applyIndent _ _⟩
  · split
    · exact Or.inl rfl
    · exact Or.inr ⟨_, indents_applyIndent _ _⟩

theorem positive_measureLine (h : lx.indents.Positive) : lx.measureLine.2.indents.Positive := by
  rcases indents_measureLine lx with heq | ⟨m, heq⟩
  · rwa [heq]
  · rw [heq]
    exact h.apply m

theorem positive_turn (h : lx.indents.Positive) : lx.turn.2.indents.Positive := by
  unfold turn
  split
  · next hdue =>
    rw [indents_takeDue? hdue]
    exact h
  · have hmeasured :
        (if lx.atLineStart then lx.measureLine else (none, lx)).2.indents.Positive := by
      split
      · exact positive_measureLine h
      · exact h
    split
    · next hmeasure =>
      rw [hmeasure] at hmeasured
      exact hmeasured
    · next hmeasure =>
      rw [hmeasure] at hmeasured
      split
      · next hdue =>
        rw [indents_takeDue? hdue]
        exact hmeasured
      · rw [indents_body]
        exact hmeasured

/-- Where a line makes nothing due, as many blocks are open as before. -/
theorem depth_applyIndent {m : Measure} (h : lx.applyIndent m = (none, ly))
    (hdue : ly.pendingDedents = 0 ∧ ly.pendingIndent = false) :
    ly.indents.depth = lx.indents.depth := by
  unfold applyIndent at h
  split at h
  · cases h
  · next change indents heq =>
    obtain ⟨_, rfl⟩ := Prod.mk.inj h
    rw [leaveAsyncScope_frame] at hdue
    rw [indents_leaveAsyncScope]
    cases change with
    | same => rw [Indents.apply_same heq]
    | deeper => exact absurd hdue.2 (by simp)
    | shallower n =>
      have hdepth := Indents.apply_shallower heq
      obtain rfl : n = 0 := hdue.1
      exact hdepth

theorem depth_measureLine (h : lx.measureLine = (none, ly))
    (hdue : ly.pendingDedents = 0 ∧ ly.pendingIndent = false) :
    ly.indents.depth = lx.indents.depth := by
  unfold measureLine at h
  dsimp only at h
  split at h
  · split at h
    · obtain ⟨_, rfl⟩ := Prod.mk.inj h
      rfl
    · have hdepth := depth_applyIndent h hdue
      exact hdepth
  · split at h
    · obtain ⟨_, rfl⟩ := Prod.mk.inj h
      rfl
    · have hdepth := depth_applyIndent h hdue
      exact hdepth

theorem depth_turn_of_nothing (h : lx.turn = (.nothing, ly)) :
    ly.indents.depth = lx.indents.depth := by
  unfold turn at h
  split at h
  · cases h
  · split at h
    · cases h
    · next lz hmeasure =>
      split at h
      · cases h
      · next hdue =>
        have hbody := indents_body lz
        rw [h] at hbody
        rw [hbody]
        split at hmeasure
        · exact depth_measureLine hmeasure (nothingDue hdue)
        · obtain ⟨_, rfl⟩ := Prod.mk.inj hmeasure
          rfl

end Lexer
end Offside
