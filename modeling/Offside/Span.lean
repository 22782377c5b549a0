/-!
Half-open byte ranges. A span is stored in two 32-bit words, so a range is turned into one only
if both of its ends fit.
-/

namespace Offside

/-- The largest position a span can hold. -/
def maxPosition : Nat := 4294967295

structure Span where
  start : Nat
  stop : Nat
  deriving DecidableEq, Inhabited

inductive SpanError
  | startTooLarge (start : Nat)
  | endTooLarge (stop : Nat)
  deriving DecidableEq

def SpanError.message : SpanError → String
  | .startTooLarge n => "span start " ++ toString n ++ " exceeds u32::MAX"
  | .endTooLarge n => "span end " ++ toString n ++ " exceeds u32::MAX"

namespace Span

/-- The start is checked before the end. -/
def ofRange (start stop : Nat) : Except SpanError Span :=
  if maxPosition < start then .error (.startTooLarge start)
  else if maxPosition < stop then .error (.endTooLarge stop)
  else .ok ⟨start, stop⟩

def ofRange? (start stop : Nat) : Option Span := (ofRange start stop).toOption

/-- A range that runs backwards has no length. -/
def length? (s : Span) : Option Nat :=
  if s.start ≤ s.stop then some (s.stop - s.start) else none

def isEmpty (s : Span) : Bool := s.start == s.stop

def display (s : Span) : String := toString s.start ++ ".." ++ toString s.stop

theorem ofRange?_eq_some_iff (start stop : Nat) (s : Span) :
    ofRange? start stop = some s ↔
      start ≤ maxPosition ∧ stop ≤ maxPosition ∧ s = ⟨start, stop⟩ := by
  unfold ofRange? ofRange
  by_cases h₁ : maxPosition < start
  · simp only [h₁, if_true, Except.toOption, reduceCtorEq, false_iff, not_and]
    intro h; omega
  · by_cases h₂ : maxPosition < stop
    · simp only [h₁, h₂, if_true, if_false, Except.toOption, reduceCtorEq, false_iff, not_and]
      intro _ h; omega
    · simp only [h₁, h₂, if_false, Except.toOption, Option.some.injEq]
      constructor
      · rintro rfl; exact ⟨by omega, by omega, rfl⟩
      · rintro ⟨_, _, rfl⟩; rfl

end Span
end Offside
