import Offside.Proofs.Lexer.Balance
import Offside.Proofs.Lexer.Places

/-!
Lines of pragmas. A comment goes on to the end of its line, and so a lexer that has handed out a
pragma is past everything on that line; the next pragma stands on a later one. The numbers of the
lines rise as long as there are numbers, and a text that holds a pragma has one for each line.
-/

namespace Offside

open Text Cursor

theorem Text.breakEndsFrom_ne_nil {c : Char} (h : isBreak c = true) (position : Nat)
    (rest : List Char) : breakEndsFrom position (c :: rest) ≠ [] := by
  rw [breakEndsFrom.eq_def]
  split
  · next heq => cases heq
  · exact List.cons_ne_nil _ _
  · next heq =>
    obtain ⟨rfl, rfl⟩ := List.cons.inj heq
    rw [if_pos h]
    exact List.cons_ne_nil _ _

namespace Cursor

variable {cur cur' : Cursor} {read : List Char} {line : Nat}

/-- There is a number for each line that is ahead of a cursor. -/
def HasNumbers (cur : Cursor) : Prop :=
  cur.line.toNat + (breakEndsFrom cur.offset cur.rest).length ≤ maxPosition

theorem Crosses.length_breakEnds (h : Crosses read cur cur') :
    (breakEndsFrom cur.offset cur.rest).length =
      (breakEndsFrom cur.offset read).length + (breakEndsFrom cur'.offset cur'.rest).length := by
  rw [h.rest, breakEndsFrom_append _ h.whole, List.length_append, h.offset]

theorem Crosses.line_eq (h : Crosses read cur cur') (hnumbers : cur.HasNumbers) :
    cur'.line.toNat = cur.line.toNat + (breakEndsFrom cur.offset read).length := by
  have hbreaks := h.length_breakEnds
  rw [HasNumbers, maxPosition] at hnumbers
  rw [h.moved, line_advance, UInt32.toNat_add, UInt32.toNat_ofNat', Nat.add_mod_mod]
  exact Nat.mod_eq_of_lt (by omega)

theorem HasNumbers.crosses (h : cur.HasNumbers) (hcrosses : Crosses read cur cur') :
    cur'.HasNumbers := by
  have hbreaks := hcrosses.length_breakEnds
  have hline := hcrosses.line_eq h
  rw [HasNumbers] at h ⊢
  omega

/-- Nothing of a line is left to a cursor but the break that ends it. -/
def IsPast (line : Nat) (cur : Cursor) : Prop :=
  line < cur.line.toNat ∨ line = cur.line.toNat ∧ ∀ c ∈ cur.rest.head?, isBreak c = true

/-- There is no other way on than over the break. -/
theorem IsPast.line_lt (h : IsPast line cur) (hnumbers : cur.HasNumbers)
    (hcrosses : Crosses read cur cur') (hread : read ≠ []) : line < cur'.line.toNat := by
  have hline := hcrosses.line_eq hnumbers
  rcases h with hlt | ⟨rfl, hend⟩
  · omega
  · obtain ⟨c, read, rfl⟩ := List.exists_cons_of_ne_nil hread
    have hbreak : isBreak c = true := by
      refine hend c ?_
      rw [hcrosses.rest]
      rfl
    have hpos := List.length_pos_iff.2 (breakEndsFrom_ne_nil hbreak cur.offset read)
    omega

theorem IsPast.crosses (h : IsPast line cur) (hnumbers : cur.HasNumbers)
    (hcrosses : Crosses read cur cur') : IsPast line cur' := by
  by_cases hread : read = []
  · subst hread
    obtain rfl : cur' = cur := by rw [hcrosses.moved, advance]
    exact h
  · exact Or.inl (h.line_lt hnumbers hcrosses hread)

end Cursor

namespace Lexer

variable {lx ly : Lexer} {cur : Cursor} {x : Lexeme} {xs : List Lexeme} {line : Nat}

/-- A pragma is handed out at the end of its comment, or with the line break behind it. -/
theorem isPast_afterPragma (h : IsPast line lx.cursor) (hnumbers : lx.cursor.HasNumbers) :
    IsPast line lx.afterPragma.cursor := by
  unfold afterPragma
  split
  · next br rest hbreak =>
    split
    · exact h.crosses hnumbers (crosses_lineBreak hbreak)
    · exact h
  · exact h

theorem isPast_pragma {front tag rest : List Char} (hended : lx.lineEnded = false)
    (hnumbers : lx.cursor.HasNumbers) (hrest : lx.cursor.rest = (front ++ tag) ++ rest)
    (hbody : IsComment (front ++ tag) rest) :
    IsPast ((lx.cursor.skip front).lexeme .typeIgnore tag).line
      (lx.advance (front ++ tag)).afterPragma.leaveLine.cursor := by
  obtain ⟨hfront, _⟩ := unbroken_append.1 hbody.unbroken
  have hcrosses : Crosses (front ++ tag) lx.cursor (lx.advance (front ++ tag)).cursor :=
    crosses_advance hrest (not_splits_of_unbroken hbody.unbroken rest)
  have hline : (lx.cursor.skip front).line = (lx.advance (front ++ tag)).cursor.line := by
    rw [← advance_of_unbroken hfront, line_advance, hcrosses.moved, line_advance,
      breakEndsFrom_of_unbroken _ hfront, breakEndsFrom_of_unbroken _ hbody.unbroken]
  have hended' : (lx.advance (front ++ tag)).lineEnded = false := hended
  rw [leaveLine_of_same_line (exists_tail_of_afterPragma hended').1]
  refine isPast_afterPragma ?_ (hnumbers.crosses hcrosses)
  refine Or.inr ⟨?_, ?_⟩
  · rw [line_lexeme, hline]
  · rw [rest_advance, hrest, List.drop_left]
    exact hbody.ends

theorem Piece.isPast {r : Outcome × Lexer} (h : Piece lx r) (hended : lx.lineEnded = false)
    (hnumbers : lx.cursor.HasNumbers) (hr : r = (.lexeme x, ly)) (hx : x.kind = .typeIgnore) :
    IsPast x.line ly.leaveLine.cursor := by
  have hother : ∀ {kind : Kind} {read : List Char} {lz : Lexer}, kind ≠ .typeIgnore →
      (Outcome.lexeme (lx.cursor.lexeme kind read), lz) = (.lexeme x, ly) → False := by
    intro kind read lz hkind heq
    obtain ⟨hlexeme, _⟩ := Prod.mk.inj heq
    rw [← Outcome.lexeme.inj hlexeme, kind_lexeme] at hx
    exact hkind hx
  cases h with
  | ended =>
    obtain ⟨hlexeme, _⟩ := Prod.mk.inj hr
    rw [← Outcome.lexeme.inj hlexeme] at hx
    cases hx
  | comment => cases hr
  | pragma hrest hbody =>
    obtain ⟨hlexeme, rfl⟩ := Prod.mk.inj hr
    obtain rfl := Outcome.lexeme.inj hlexeme
    exact isPast_pragma hended hnumbers hrest hbody
  | blankBreak => cases hr
  | newline => exact (hother (by decide) hr).elim
  | joined => cases hr
  | brokenOff => cases hr
  | stray => cases hr
  | literal => exact (hother (by decide) hr).elim
  | unended => cases hr
  | @plain kind kind' read rest lz _ hscan hclassify =>
    have hplain := isPlain_classify (Plain.plain_of_scan? hscan).1 read rest
      ((lx.advance read).nest kind)
    rw [hclassify] at hplain
    refine (hother ?_ hr).elim
    rintro rfl
    cases hplain
  | bad => cases hr

theorem isPast_of_turn (hended : lx.lineEnded = false) (hnumbers : lx.cursor.HasNumbers)
    (h : lx.turn = (.lexeme x, ly)) (hx : x.kind = .typeIgnore) :
    IsPast x.line ly.leaveLine.cursor := by
  have hdue : ∀ {lz lw : Lexer} {y : Lexeme}, lz.takeDue? = some (y, lw) →
      (Outcome.lexeme x, ly) = (.lexeme y, lw) → False := by
    intro lz lw y hdue hr
    obtain ⟨hlexeme, _⟩ := Prod.mk.inj hr
    rw [Outcome.lexeme.inj hlexeme] at hx
    rcases layout_of_takeDue? hdue with hkind | hkind <;> cases hkind.symm.trans hx
  have hturned := turned lx
  rw [h] at hturned
  generalize hr : (Outcome.lexeme x, ly) = r at hturned
  cases hturned with
  | due hdue' => exact (hdue hdue' hr).elim
  | misplaced => cases hr
  | indented _ _ hdue' => exact (hdue hdue' hr).elim
  | @read lz _ _ hsettles _ hpiece =>
    obtain ⟨gap, _, hcrosses, hended'⟩ := hsettles.passes hended
    have hended'' : lz.skipLayout.lineEnded = false := hended'
    have hnumbers' := (hnumbers.crosses hcrosses).crosses (crosses_skipLayout lz)
    exact hpiece.isPast hended'' hnumbers' hr.symm hx

/-- Behind a pragma a lexer is past the pragma's line. -/
theorem isPast_of_next (hnumbers : lx.leaveLine.cursor.HasNumbers) (h : lx.next = (.ok x, ly))
    (hx : x.kind = .typeIgnore) : IsPast x.line ly.leaveLine.cursor := by
  obtain ⟨lz, ⟨gap, _, hcrosses, hended⟩, hturn⟩ := exists_passes_of_next h
  exact isPast_of_turn hended (hnumbers.crosses hcrosses) hturn hx

/-- Some text is crossed before a pragma, the start of its comment at least. -/
theorem Hands.line_lt (h : Hands cur ly x) (hx : x.kind = .typeIgnore) (hnumbers : cur.HasNumbers)
    (hpast : IsPast line cur) : line < x.line := by
  cases h with
  | bare hkind =>
    obtain rfl : _ = Kind.typeIgnore := hx
    rcases hkind with h | h | h <;> cases h
  | @token kind gap read tail at' behind _ _ hpragma hcrosses _ _ _ =>
    rw [kind_lexeme] at hx
    obtain ⟨before, front, _, ⟨blanks, blanks', _, rfl⟩, rfl⟩ := hpragma hx
    rw [line_lexeme]
    exact hpast.line_lt hnumbers hcrosses
      (List.append_ne_nil_of_right_ne_nil _ (List.cons_ne_nil _ _))

/-- No pragma stands on a line that a lexer is past. -/
theorem Yields.line_lt (h : Yields lx xs ly) (hnumbers : lx.leaveLine.cursor.HasNumbers)
    (hpast : IsPast line lx.leaveLine.cursor) :
    ∀ x ∈ xs, x.kind = .typeIgnore → line < x.line := by
  induction h with
  | nil => exact fun _ hx => absurd hx List.not_mem_nil
  | cons hnext _ ih =>
    obtain ⟨read, hcrosses⟩ := (next_hands hnext).crosses
    intro y hy hkind
    rcases List.mem_cons.1 hy with rfl | hy
    · exact (next_hands hnext).line_lt hkind hnumbers hpast
    · exact ih (hnumbers.crosses hcrosses) (hpast.crosses hnumbers hcrosses) y hy hkind

/-- The lines of pragmas rise. -/
theorem Yields.pairwise_lines (h : Yields lx xs ly) (hnumbers : lx.leaveLine.cursor.HasNumbers) :
    (xs.filter fun x => x.kind = .typeIgnore).Pairwise fun x y => x.line < y.line := by
  induction h with
  | nil => exact List.Pairwise.nil
  | @cons lx ly lz x xs hnext hrest ih =>
    obtain ⟨read, hcrosses⟩ := (next_hands hnext).crosses
    have hnumbers' := hnumbers.crosses hcrosses
    by_cases hx : x.kind = .typeIgnore
    · rw [List.filter_cons_of_pos (by simpa using hx)]
      refine List.pairwise_cons.2 ⟨fun y hy => ?_, ih hnumbers'⟩
      obtain ⟨hmem, hkind⟩ := List.mem_filter.1 hy
      have hpast := isPast_of_next hnumbers hnext hx
      exact hrest.line_lt hnumbers' hpast y hmem (of_decide_eq_true hkind)
    · rw [List.filter_cons_of_neg (by simpa using hx)]
      exact ih hnumbers'

/-- A pragma starts with a hash, so the text is not line breaks from end to end. -/
theorem Yields.hash_mem (h : Yields lx xs ly) (hx : x ∈ xs) (hkind : x.kind = .typeIgnore) :
    '#' ∈ lx.leaveLine.cursor.rest := by
  induction h with
  | nil => exact absurd hx List.not_mem_nil
  | @cons lx ly lz y xs hnext _ ih =>
    have hhands := next_hands hnext
    obtain ⟨read, hread⟩ := hhands.crosses
    rcases List.mem_cons.1 hx with rfl | hx
    · cases hhands with
      | bare hbare =>
        obtain rfl : _ = Kind.typeIgnore := hkind
        rcases hbare with h | h | h <;> cases h
      | token _ _ hpragma hcrosses =>
        rw [kind_lexeme] at hkind
        obtain ⟨before, front, _, ⟨blanks, blanks', _, rfl⟩, rfl⟩ := hpragma hkind
        rw [hcrosses.rest]
        simp
    · rw [hread.rest]
      exact List.mem_append_right _ (ih hx)

/-- There are numbers for the lines of a text that holds something besides line breaks. -/
theorem hasNumbers_ofSource (asyncAlways : Bool) {s : Source} (hsize : s.text.length ≤ maxPosition)
    {c : Char} (hc : c ∈ s.text) (hbreak : isBreak c = false) :
    (ofSource asyncAlways s).leaveLine.cursor.HasNumbers := by
  show 1 + (breakEndsFrom 0 s.text).length ≤ maxPosition
  have hle := length_breakEndsFrom_le 0 s.text
  have hne : ¬s.text.length ≤ (breakEndsFrom 0 s.text).length := by
    intro hall
    rw [isBreak_of_length_le hall c hc] at hbreak
    cases hbreak
  omega

end Lexer
end Offside
