import Offside.Lexer.Indentation

/-!
The two columns of an indentation. A line is compared with the open levels by its wide column alone,
and its narrow one has to agree with a single level. The main statement is that this is enough:
whatever lines came before, with or without an error, the levels grow strictly in both columns, and
a line that fits stands to every level, closed ones included, in the same order by either column.
-/

namespace Offside.Indents

variable {m : Measure} {s s' : Indents}

/-- What a lexer does to its levels. -/
inductive Operation
  | apply (m : Measure)
  | reset

/-- The levels after an operation, also if the line fits nowhere. -/
def after (s : Indents) : Operation → Indents
  | .apply m => (s.apply m).2
  | .reset => empty

/-- All levels, innermost first and the outermost one among them. -/
def stack (s : Indents) : List Measure := s.levels ++ [Measure.zero]

/-- Where the levels start, outermost first. -/
def columns (s : Indents) : List Nat := (s.stack.map Measure.column).reverse

/-- Where they start when a tab is one column wide. -/
def narrowColumns (s : Indents) : List Nat := (s.stack.map Measure.narrow).reverse

/-- A level lies deeper than another in both columns. -/
def Deeper (inner outer : Measure) : Prop :=
  outer.column < inner.column ∧ outer.narrow < inner.narrow

/-- What all levels together keep to. -/
structure Nested (s : Indents) : Prop where
  deeper : s.stack.Pairwise Deeper
  length_le : s.stack.length ≤ maxLevels

theorem Deeper.trans {a b c : Measure} (h : Deeper a b) (h' : Deeper b c) : Deeper a c :=
  ⟨Nat.lt_trans h'.1 h.1, Nat.lt_trans h'.2 h.2⟩

theorem stack_eq_top_cons (s : Indents) : s.stack = s.top :: s.stack.tail := by
  obtain ⟨levels⟩ := s
  cases levels <;> rfl

theorem length_stack (s : Indents) : s.stack.length = s.depth + 1 := by
  simp only [stack, depth, List.length_append, List.length_singleton]

/-- Levels are closed from the innermost one on. -/
theorem exists_close_eq (column : Nat) (ms : List Measure) :
    ∃ closed rest, ms = closed ++ rest ∧ close column ms = (rest, closed.length) := by
  induction ms with
  | nil => exact ⟨[], [], rfl, rfl⟩
  | cons m ms ih =>
    by_cases hm : column < m.column
    · obtain ⟨closed, rest, hsplit, hclose⟩ := ih
      refine ⟨m :: closed, rest, ?_, ?_⟩
      · rw [hsplit, List.cons_append]
      · rw [close, if_pos hm, hclose, List.length_cons]
    · exact ⟨[], m :: ms, rfl, by rw [close, if_neg hm, List.length_nil]⟩

/-- All that a comparison can come to. A refusal closes levels or none, and opens none. -/
inductive Compared (m : Measure) (s : Indents) : Except LexError IndentChange × Indents → Prop
  | same (h : m = s.top) : Compared m s (.ok .same, s)
  | deeper (h : Deeper m s.top) (hroom : s.stack.length < maxLevels) :
      Compared m s (.ok .deeper, ⟨m :: s.levels⟩)
  | shallower {closed rest : List Measure} (hsplit : s.levels = closed ++ rest)
      (hclosed : closed ≠ []) (h : m = (⟨rest⟩ : Indents).top) :
      Compared m s (.ok (.shallower closed.length), ⟨rest⟩)
  | refused (e : LexError) {closed rest : List Measure} (hsplit : s.levels = closed ++ rest) :
      Compared m s (.error e, ⟨rest⟩)

theorem compared (m : Measure) (s : Indents) : Compared m s (s.apply m) := by
  have hkeep : s.levels = [] ++ s.levels := rfl
  have heq : ∀ level : Measure, m.column = level.column → m.narrow = level.narrow → m = level := by
    intro level hcolumn hnarrow
    obtain ⟨column, narrow⟩ := m
    obtain rfl : column = level.column := hcolumn
    obtain rfl : narrow = level.narrow := hnarrow
    rfl
  unfold apply
  dsimp only
  split
  · next hcolumn =>
    split
    · next hnarrow => exact .same (heq s.top hcolumn hnarrow)
    · exact .refused _ hkeep
  · split
    · next hdeeper =>
      split
      · exact .refused _ hkeep
      · next hroom =>
        split
        · exact .refused _ hkeep
        · next hnarrow =>
          refine .deeper ⟨hdeeper, by omega⟩ ?_
          rw [length_stack]
          omega
    · next hne _ =>
      obtain ⟨closed, rest, hsplit, hclose⟩ := exists_close_eq m.column s.levels
      rw [hclose]
      dsimp only
      split
      · exact .refused _ hsplit
      · next hcolumn =>
        split
        · exact .refused _ hsplit
        · next hnarrow =>
          refine .shallower hsplit ?_ (heq _ (by omega) (by omega))
          -- with no level closed the line would have fitted the top
          intro hnil
          subst hnil
          have htop : s.top = (⟨rest⟩ : Indents).top := congrArg (List.headD · Measure.zero) hsplit
          rw [htop] at hne
          omega

/-- What is left when inner levels are closed is nested as before. -/
theorem Nested.of_append {closed rest : List Measure} (h : s.Nested)
    (hsplit : s.levels = closed ++ rest) : Nested ⟨rest⟩ := by
  obtain ⟨hdeeper, hlength⟩ := h
  rw [stack, hsplit, List.append_assoc] at hdeeper hlength
  refine ⟨(List.pairwise_append.1 hdeeper).2.1, ?_⟩
  rw [List.length_append] at hlength
  exact Nat.le_trans (Nat.le_add_left _ _) hlength

/-- The top is the deepest level. -/
theorem Nested.deeper_of_mem_tail (h : s.Nested) {level : Measure} (hmem : level ∈ s.stack.tail) :
    Deeper s.top level := by
  have hdeeper := h.deeper
  rw [stack_eq_top_cons] at hdeeper
  exact (List.pairwise_cons.1 hdeeper).1 level hmem

theorem Nested.deeper_of_top (h : s.Nested) (hm : Deeper m s.top) {level : Measure}
    (hmem : level ∈ s.stack) : Deeper m level := by
  rw [stack_eq_top_cons, List.mem_cons] at hmem
  rcases hmem with rfl | hmem
  · exact hm
  · exact hm.trans (h.deeper_of_mem_tail hmem)

/-- No comparison spoils the nesting, whatever its answer. -/
theorem Nested.apply (h : s.Nested) (m : Measure) : (s.apply m).2.Nested := by
  have hcompared := compared m s
  generalize s.apply m = answer at hcompared
  cases hcompared with
  | same => exact h
  | deeper hdeeper hroom =>
    have hstack : stack ⟨m :: s.levels⟩ = m :: s.stack := rfl
    refine ⟨?_, ?_⟩
    · rw [hstack, List.pairwise_cons]
      exact ⟨fun level hmem => h.deeper_of_top hdeeper hmem, h.deeper⟩
    · rw [hstack, List.length_cons]
      omega
  | shallower hsplit => exact h.of_append hsplit
  | refused _ hsplit => exact h.of_append hsplit

theorem nested_empty : Nested empty :=
  ⟨List.pairwise_singleton _ _, by decide⟩

theorem Nested.after (h : s.Nested) (operation : Operation) : (s.after operation).Nested := by
  cases operation with
  | apply m => exact h.apply m
  | reset => exact nested_empty

theorem nested_of_operations (operations : List Operation) :
    (operations.foldl after empty).Nested := by
  suffices ∀ s : Indents, s.Nested → (operations.foldl after s).Nested from this _ nested_empty
  induction operations with
  | nil =>
    intro s h
    exact h
  | cons operation operations ih =>
    intro s h
    exact ih _ (h.after operation)

/-- A line stands to a level in one order by either column. -/
def Agrees (m level : Measure) : Prop :=
  compare m.column level.column = compare m.narrow level.narrow

theorem agrees_of_deeper {a b : Measure} (h : Deeper a b) : Agrees a b := by
  rw [Agrees, Nat.compare_eq_gt.2 h.1, Nat.compare_eq_gt.2 h.2]

theorem agrees_of_shallower {a b : Measure} (h : Deeper b a) : Agrees a b := by
  rw [Agrees, Nat.compare_eq_lt.2 h.1, Nat.compare_eq_lt.2 h.2]

theorem Nested.top_agrees (h : s.Nested) {level : Measure} (hmem : level ∈ s.stack) :
    Agrees s.top level := by
  rw [stack_eq_top_cons, List.mem_cons] at hmem
  rcases hmem with rfl | hmem
  · rw [Agrees, Nat.compare_eq_eq.2 rfl, Nat.compare_eq_eq.2 rfl]
  · exact agrees_of_deeper (h.deeper_of_mem_tail hmem)

/-- By how much a change moves the depth. -/
def Moves (before after : Nat) : IndentChange → Prop
  | .same => after = before
  | .deeper => after = before + 1
  | .shallower levels => 1 ≤ levels ∧ after + levels = before

/-- A line that fits is the new top, and agrees with all levels that there were. -/
structure Fits (m : Measure) (s : Indents) (change : IndentChange) (s' : Indents) : Prop where
  top_eq : s'.top = m
  moves : Moves s.depth s'.depth change
  agrees : ∀ level ∈ s.stack, Agrees m level

theorem Nested.fits (h : s.Nested) {change : IndentChange}
    (happly : s.apply m = (.ok change, s')) : Fits m s change s' := by
  have hcompared := compared m s
  rw [happly] at hcompared
  cases hcompared with
  | same htop =>
    subst htop
    exact ⟨rfl, rfl, fun level hmem => h.top_agrees hmem⟩
  | deeper hdeeper =>
    refine ⟨rfl, rfl, fun level hmem => ?_⟩
    exact agrees_of_deeper (h.deeper_of_top hdeeper hmem)
  | @shallower closed rest hsplit hclosed htop =>
    have hlength := List.length_pos_iff.2 hclosed
    have hrest : Nested ⟨rest⟩ := h.of_append hsplit
    have hstack : s.stack = closed ++ stack ⟨rest⟩ := by
      rw [stack, hsplit, List.append_assoc, stack]
    refine ⟨htop.symm, ⟨hlength, ?_⟩, fun level hmem => ?_⟩
    · simp only [depth, hsplit, List.length_append]
      omega
    · rw [hstack, List.mem_append] at hmem
      rcases hmem with hmem | hmem
      · -- a level that the line closes starts right of the one where the line ends up
        have hdeeper := h.deeper
        rw [hstack, List.pairwise_append] at hdeeper
        refine agrees_of_shallower (htop ▸ hdeeper.2.2 level hmem _ ?_)
        rw [stack_eq_top_cons]
        exact List.mem_cons_self
      · rw [htop]
        exact hrest.top_agrees hmem

/-- The levels as two columns of numbers. That the columns are of one length, are not empty and
start at zero holds of any levels: the two numbers of a level are kept together, and the outermost
level, which is never closed, is not listed. The bound and the order are what the operations
preserve. -/
structure Consistent (s : Indents) : Prop where
  length_eq : s.columns.length = s.narrowColumns.length
  length_pos : 1 ≤ s.columns.length
  length_le : s.columns.length ≤ 100
  starts : s.columns.head? = some 0 ∧ s.narrowColumns.head? = some 0
  columns_lt : s.columns.Pairwise (· < ·)
  narrowColumns_lt : s.narrowColumns.Pairwise (· < ·)

theorem Nested.consistent (h : s.Nested) : s.Consistent := by
  have hlength : s.columns.length = s.stack.length := by
    simp only [columns, List.length_reverse, List.length_map]
  have hpos := length_stack s
  refine ⟨?_, by omega, ?_, ⟨?_, ?_⟩, ?_, ?_⟩
  · simp only [columns, narrowColumns, List.length_reverse, List.length_map]
  · rw [hlength]
    exact h.length_le
  · simp [columns, stack, Measure.zero]
  · simp [narrowColumns, stack, Measure.zero]
  · rw [columns, List.pairwise_reverse, List.pairwise_map]
    exact h.deeper.imp fun hdeeper => hdeeper.1
  · rw [narrowColumns, List.pairwise_reverse, List.pairwise_map]
    exact h.deeper.imp fun hdeeper => hdeeper.2

/-- After any lines and resets, errors included, the levels grow strictly in both columns, from
zero, and there are at most a hundred. A further line that fits becomes the top, opens one level or
closes some as it says, and agrees with every level that it found. -/
theorem consistent_of_operations (operations : List Operation) :
    let s := operations.foldl after empty
    s.Consistent ∧
      ∀ m change s', s.apply m = (.ok change, s') → Fits m s change s' := by
  have hnested := nested_of_operations operations
  exact ⟨hnested.consistent, fun m change s' happly => hnested.fits happly⟩

/-- A line that fits nowhere closes the levels right of it all the same. -/
example : (⟨[⟨4, 4⟩]⟩ : Indents).apply ⟨2, 2⟩ = (.error .dedent, empty) := rfl

end Offside.Indents
