import Offside.TokenSource

/-!
Indentation. The blanks that start a line are measured twice: with tabs that advance to the next
multiple of eight, and with tabs one column wide. A line is compared with the open blocks by the
first measure, and the second has to agree, so that no block hangs on the width of a tab.
-/

namespace Offside

structure Measure where
  column : Nat
  narrow : Nat
  deriving DecidableEq, Inhabited

namespace Measure

def zero : Measure := ⟨0, 0⟩

def tabWidth : Nat := 8

/-- A form feed starts the line anew. -/
def step (m : Measure) (blank : Char) : Measure :=
  if blank = '\t' then ⟨(m.column / tabWidth + 1) * tabWidth, m.narrow + 1⟩
  else if blank = '\x0c' then zero
  else ⟨m.column + 1, m.narrow + 1⟩

/-- The measure of a run of blanks. -/
def ofBlanks (blanks : List Char) : Measure := blanks.foldl step zero

end Measure

/-- How a line relates to the block before it. -/
inductive IndentChange
  | same | deeper | shallower (levels : Nat)
  deriving DecidableEq, Inhabited

/-- The measures of the open blocks, innermost first. The outermost level, which is never
closed, has measure zero and is not listed. -/
structure Indents where
  levels : List Measure
  deriving DecidableEq, Inhabited

namespace Indents

def empty : Indents := ⟨[]⟩

/-- How many levels may be open, the outermost one among them. -/
def maxLevels : Nat := 100

def depth (s : Indents) : Nat := s.levels.length

def top (s : Indents) : Measure := s.levels.headD Measure.zero

/-- Closes the levels that start right of a column, and counts them. -/
def close (column : Nat) : List Measure → List Measure × Nat
  | [] => ([], 0)
  | m :: ms =>
    if column < m.column then
      let (rest, n) := close column ms
      (rest, n + 1)
    else (m :: ms, 0)

/-- Compares a line with the open levels and opens or closes levels to fit. When the line fits
nowhere the levels right of it are closed all the same. -/
def apply (m : Measure) (s : Indents) : Except LexError IndentChange × Indents :=
  let top := s.top
  if m.column = top.column then
    if m.narrow = top.narrow then (.ok .same, s) else (.error .tabSpace, s)
  else if top.column < m.column then
    if maxLevels ≤ s.depth + 1 then (.error .tooDeep, s)
    else if m.narrow ≤ top.narrow then (.error .tabSpace, s)
    else (.ok .deeper, ⟨m :: s.levels⟩)
  else
    let (levels, n) := close m.column s.levels
    let s' : Indents := ⟨levels⟩
    if m.column ≠ s'.top.column then (.error .dedent, s')
    else if m.narrow ≠ s'.top.narrow then (.error .tabSpace, s')
    else (.ok (.shallower n), s')

theorem length_close (column : Nat) (ms : List Measure) :
    (close column ms).1.length + (close column ms).2 = ms.length := by
  induction ms with
  | nil => rfl
  | cons m ms ih =>
    unfold close
    split
    · simp only [List.length_cons]; omega
    · simp

theorem apply_same {m : Measure} {s s' : Indents} (h : s.apply m = (.ok .same, s')) :
    s' = s := by
  unfold apply at h
  grind

theorem apply_deeper {m : Measure} {s s' : Indents} (h : s.apply m = (.ok .deeper, s')) :
    s'.depth = s.depth + 1 ∧ 0 < m.column := by
  unfold apply at h
  grind [depth]

theorem apply_shallower {m : Measure} {s s' : Indents} {n : Nat}
    (h : s.apply m = (.ok (.shallower n), s')) : s'.depth + n = s.depth := by
  have := length_close m.column s.levels
  unfold apply at h
  grind [depth]

end Indents
end Offside
