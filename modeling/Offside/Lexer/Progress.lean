import Offside.Lexer.Turn

/-!
Progress. Every turn that does not end the tokens uses something up: text that is left, a token
that is due, or a block that can still be closed. The weight of a lexer counts these, and the
main statement is that such a turn makes it smaller.
-/

namespace Offside.Lexer

/-- An indent takes a blank of text, so a character is worth more than a block and a token. -/
def weight (lx : Lexer) : Nat :=
  3 * lx.cursor.rest.length + lx.pendingDedents + lx.indents.depth + lx.pendingIndent.toNat

/-- The layout tokens that are due or may become due. -/
def layoutWeight (lx : Lexer) : Nat :=
  lx.pendingDedents + lx.indents.depth + lx.pendingIndent.toNat

/-- An outcome after which reading goes on. -/
def Outcome.Continues : Outcome → Prop
  | .lexeme x => x.kind ≠ .endMarker
  | .nothing => True
  | .failed _ => False

/-- Less text is left, and the layout is as it was. -/
def ReadsOn (before after : Lexer) : Prop :=
  after.cursor.rest.length < before.cursor.rest.length ∧
    after.layoutWeight = before.layoutWeight

theorem weight_eq (lx : Lexer) : lx.weight = 3 * lx.cursor.rest.length + lx.layoutWeight := by
  simp only [weight, layoutWeight]; omega

theorem ReadsOn.weight_lt {before after : Lexer} (h : ReadsOn before after) :
    after.weight < before.weight := by
  obtain ⟨hl, hw⟩ := h
  rw [weight_eq, weight_eq]
  omega

theorem rest_length_advance (read : List Char) (lx : Lexer) :
    (lx.advance read).cursor.rest.length = lx.cursor.rest.length - read.length := by
  simp [advance, Cursor.rest_advance]

theorem rest_length_advance_lt {read : List Char} {lx : Lexer} (hr : read ≠ [])
    (hl : lx.cursor.rest ≠ []) :
    (lx.advance read).cursor.rest.length < lx.cursor.rest.length := by
  rw [rest_length_advance]
  have := List.length_pos_iff.2 hr
  have := List.length_pos_iff.2 hl
  omega

theorem readsOn_advance {read : List Char} {lx : Lexer} (hr : read ≠ [])
    (hl : lx.cursor.rest ≠ []) : ReadsOn lx (lx.advance read) :=
  ⟨rest_length_advance_lt hr hl, rfl⟩

theorem ReadsOn.advance {lx after : Lexer} (h : ReadsOn lx after) (read : List Char) :
    ReadsOn lx (after.advance read) := by
  refine ⟨?_, h.2⟩
  rw [rest_length_advance]
  have := h.1
  omega

theorem takeWhile_ne_nil {p : Char → Bool} {c : Char} {rest : List Char} (h : p c = true) :
    (c :: rest).takeWhile p ≠ [] := by simp [h]

theorem comment_readsOn {lx : Lexer} {rest : List Char} (h : lx.cursor.rest = '#' :: rest) :
    ReadsOn lx lx.comment.2 := by
  have hr : lx.cursor.rest.takeWhile (fun c => !Text.isBreak c) ≠ [] := by
    rw [h]; exact takeWhile_ne_nil (by decide)
  have hb : ReadsOn lx (lx.advance _) := readsOn_advance hr (by simp [h])
  unfold comment
  dsimp only
  split
  · exact hb
  · split
    · split
      · exact hb.advance _
      · exact hb
    · exact hb

theorem lineBreak_readsOn {lx : Lexer} {br rest : List Char}
    (h : Text.lineBreak? lx.cursor.rest = some (br, rest)) : ReadsOn lx (lx.lineBreak br).2 := by
  obtain ⟨hr, hn⟩ := Text.append_of_lineBreak? h
  have hl : lx.cursor.rest ≠ [] := by
    intro he; rw [he, List.append_eq_nil_iff] at hr; exact hn hr.1
  unfold lineBreak
  split
  · exact readsOn_advance hn hl
  · refine ⟨?_, rfl⟩
    simp only [Cursor.rest_skip, List.length_drop]
    have := List.length_pos_iff.2 hn
    have := List.length_pos_iff.2 hl
    omega

theorem continuation_readsOn {lx : Lexer} {rest : List Char} (h : lx.cursor.rest = '\\' :: rest) :
    ReadsOn lx lx.continuation.2 := by
  have hb : ReadsOn lx (lx.advance ['\\']) := readsOn_advance (by simp) (by simp [h])
  unfold continuation
  dsimp only
  split
  · exact hb
  · exact hb.advance _
  · exact hb.advance _

theorem literal_readsOn {lx : Lexer} {x : Literal.Extent}
    (h : Literal.scan? lx.cursor.rest = some x) (hl : lx.cursor.rest ≠ []) :
    ReadsOn lx (lx.literal x).2 := by
  have hread := List.length_pos_iff.2 (Literal.scan?_read_ne_nil h)
  have hrest := List.length_pos_iff.2 hl
  have hb : ReadsOn lx { lx with cursor := lx.cursor.overLiteral x } := by
    refine ⟨?_, rfl⟩
    rw [Cursor.rest_overLiteral, List.length_drop]
    omega
  unfold literal
  dsimp only
  split <;> exact hb

theorem classifyAsync_rest (k : Kind) (rest : List Char) (lx : Lexer) :
    (lx.classifyAsync k rest).2.cursor = lx.cursor ∧
      (lx.classifyAsync k rest).2.layoutWeight = lx.layoutWeight := by
  unfold classifyAsync
  split
  · exact ⟨rfl, rfl⟩
  · split <;> exact ⟨rfl, rfl⟩

theorem classify_rest (k : Kind) (read rest : List Char) (lx : Lexer) :
    (lx.classify k read rest).2.cursor = lx.cursor ∧
      (lx.classify k read rest).2.layoutWeight = lx.layoutWeight := by
  unfold classify
  split
  · exact classifyAsync_rest _ _ _
  · split
    · exact classifyAsync_rest _ _ _
    · exact ⟨rfl, rfl⟩

theorem nest_rest (k : Kind) (lx : Lexer) :
    (lx.nest k).cursor = lx.cursor ∧ (lx.nest k).layoutWeight = lx.layoutWeight := by
  unfold nest
  split
  · exact ⟨rfl, rfl⟩
  · split <;> exact ⟨rfl, rfl⟩

theorem plain_readsOn {lx : Lexer} {c : Char} {text : List Char} (h : lx.cursor.rest = text)
    (hl : text ≠ []) : ReadsOn lx (lx.plain c text).2 := by
  unfold plain
  split
  · exact readsOn_advance (by simp) (by simp [h, hl])
  · next k read rest hs =>
    have hb : ReadsOn lx (lx.advance read) :=
      readsOn_advance (Plain.scan?_read_ne_nil hl hs) (by simp [h, hl])
    obtain ⟨hc, hw⟩ := classify_rest k read rest ((lx.advance read).nest k)
    obtain ⟨hc', hw'⟩ := nest_rest k (lx.advance read)
    exact ⟨by rw [hc, hc']; exact hb.1, by rw [hw, hw']; exact hb.2⟩

theorem body_weight_lt {lx lx' : Lexer} {o : Outcome} (h : lx.body = (o, lx'))
    (ho : o.Continues) : lx'.weight < lx.weight := by
  have hb : (lx.advance (lx.cursor.rest.takeWhile Text.isLayout)).weight ≤ lx.weight := by
    rw [weight_eq, weight_eq, rest_length_advance]
    have : (lx.advance (lx.cursor.rest.takeWhile Text.isLayout)).layoutWeight =
        lx.layoutWeight := rfl
    omega
  unfold body at h
  dsimp only at h
  generalize lx.advance (lx.cursor.rest.takeWhile Text.isLayout) = ly at h hb
  refine Nat.lt_of_lt_of_le ?_ hb
  have key : ReadsOn ly lx' := by
    split at h
    · obtain ⟨rfl, rfl⟩ := Prod.mk.inj h
      exact absurd rfl ho
    · next heq => have := comment_readsOn heq; rwa [h] at this
    · next heq => have := continuation_readsOn heq; rwa [h] at this
    · next c rest _ _ heq =>
      split at h
      · next hbr => have := lineBreak_readsOn (heq ▸ hbr); rwa [h] at this
      · split at h
        · next hlit =>
          have := literal_readsOn (heq ▸ hlit) (by simp [heq]); rwa [h] at this
        · have := plain_readsOn (c := c) heq (by simp); rwa [h] at this
  exact key.weight_lt

theorem takeDue?_weight_lt {lx lx' : Lexer} {x : Lexeme} (h : lx.takeDue? = some (x, lx')) :
    lx'.weight < lx.weight := by
  unfold takeDue? at h
  split at h
  · obtain ⟨_, rfl⟩ := Prod.mk.inj (Option.some.inj h)
    simp only [weight]; omega
  · split at h
    · next hp =>
      obtain ⟨_, rfl⟩ := Prod.mk.inj (Option.some.inj h)
      simp only [weight, hp, Bool.toNat_true, Bool.toNat_false]; omega
    · simp at h

theorem leaveAsyncScope_weight (lx : Lexer) : lx.leaveAsyncScope.weight = lx.weight := by
  unfold leaveAsyncScope
  split
  · split <;> rfl
  · rfl

theorem nothingDue {lx : Lexer} (h : lx.takeDue? = none) :
    lx.pendingDedents = 0 ∧ lx.pendingIndent = false := by
  unfold takeDue? at h
  grind

/-- A line that opens a block starts with a blank, which pays for the block and the token. -/
theorem applyIndent_weight_le {lx lx' : Lexer} {m : Measure}
    (h : lx.applyIndent m = (none, lx'))
    (hp : lx.pendingDedents = 0 ∧ lx.pendingIndent = false) :
    lx'.weight ≤ lx.weight + if 0 < m.column then 2 else 0 := by
  unfold applyIndent at h
  split at h
  · simp at h
  · next change indents heq =>
    have h := (Prod.mk.inj h).2
    rw [← h, leaveAsyncScope_weight]
    cases change with
    | same =>
      have := Indents.apply_same heq
      subst this
      exact Nat.le_add_right _ _
    | deeper =>
      obtain ⟨hd, hm⟩ := Indents.apply_deeper heq
      simp only [weight, hp, hd, hm, if_true, Bool.toNat_true, Bool.toNat_false]
      omega
    | shallower n =>
      have := Indents.apply_shallower heq
      simp only [weight, hp]
      omega

theorem measureLine_weight_le {lx lx' : Lexer} (h : lx.measureLine = (none, lx'))
    (hp : lx.pendingDedents = 0 ∧ lx.pendingIndent = false) : lx'.weight ≤ lx.weight := by
  unfold measureLine at h
  dsimp only at h
  generalize hbl : lx.cursor.rest.takeWhile Text.isLayout = blanks at h
  have hle : 3 * (lx.cursor.advance blanks).rest.length + 3 * blanks.length ≤
      3 * lx.cursor.rest.length := by
    rw [Cursor.rest_advance, List.length_drop, ← hbl]
    have := (List.takeWhile_prefix (p := Text.isLayout) (l := lx.cursor.rest)).length_le
    omega
  have hcol : ∀ m, m = Measure.ofBlanks blanks → (if 0 < m.column then 2 else 0) ≤
      3 * blanks.length := by
    rintro m rfl
    cases blanks with
    | nil => simp [Measure.ofBlanks, Measure.zero]
    | cons => simp only [List.length_cons]; split <;> omega
  split at h
  · split at h
    · obtain ⟨_, rfl⟩ := Prod.mk.inj h
      simp only [weight, advance] at *; omega
    · have := applyIndent_weight_le h hp
      simp only [weight, advance, Measure.zero, Nat.lt_irrefl, if_false] at *
      omega
  · split at h
    · obtain ⟨_, rfl⟩ := Prod.mk.inj h
      simp only [weight, advance] at *; omega
    · have h1 := applyIndent_weight_le h hp
      have h2 := hcol _ rfl
      simp only [weight, advance] at *
      omega

/-- A turn after which reading goes on makes the weight smaller. -/
theorem turn_weight_lt {lx lx' : Lexer} {o : Outcome} (h : lx.turn = (o, lx'))
    (ho : o.Continues) : lx'.weight < lx.weight := by
  unfold turn at h
  split at h
  · next hd =>
    obtain ⟨_, rfl⟩ := Prod.mk.inj h
    exact takeDue?_weight_lt hd
  · next hd =>
    split at h
    · obtain ⟨rfl, _⟩ := Prod.mk.inj h
      exact ho.elim
    · next ly hm =>
      have hle : ly.weight ≤ lx.weight := by
        split at hm
        · exact measureLine_weight_le hm (nothingDue hd)
        · exact Nat.le_of_eq (congrArg weight (Prod.mk.inj hm).2).symm
      split at h
      · next hd' =>
        obtain ⟨_, rfl⟩ := Prod.mk.inj h
        exact Nat.lt_of_lt_of_le (takeDue?_weight_lt hd') hle
      · exact Nat.lt_of_lt_of_le (body_weight_lt h ho) hle

theorem leaveLine_weight (lx : Lexer) : lx.leaveLine.weight = lx.weight := by
  unfold leaveLine
  split <;> rfl

end Offside.Lexer
