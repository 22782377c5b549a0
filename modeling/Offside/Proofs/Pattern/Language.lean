import Offside.Grammar.Pattern
import Mathlib

/-!
Languages of patterns. `language` is what a pattern denotes. `reading` is what its automaton
accepts, which is more in one place: an option adds a way from the start of its automaton to
the stop, and where the stop lies on a cycle the words of that cycle, the `tail`, can then be read
alone. The main statements are that nothing is lost, and that nothing is gained where every option
is clear of such cycles.
-/

namespace Offside.Pattern

open Computability

variable {α : Type}

mutual

def language : Pattern α → Language α
  | leaf a => {[a]}
  | alt ps => languageOfChoice ps
  | seq ps => languageOfRow ps
  | opt p => 1 + language p
  | star p => (language p)∗
  | plus p => language p * (language p)∗

def languageOfChoice : List (Pattern α) → Language α
  | [] => 0
  | p :: ps => language p + languageOfChoice ps

def languageOfRow : List (Pattern α) → Language α
  | [] => 1
  | p :: ps => language p * languageOfRow ps

end

mutual

/-- The words that lead from the start of a pattern's automaton to its stop. -/
def reading : Pattern α → Language α
  | leaf a => {[a]}
  | alt ps => readingOfChoice ps
  | seq ps => readingOfRow ps
  | opt p => reading p + tail p
  | star p => (reading p)∗
  | plus p => reading p * (reading p)∗

/-- The words that lead from the stop of a pattern's automaton back to it. -/
def tail : Pattern α → Language α
  | leaf _ => 1
  | alt _ => 1
  | seq ps => tailOfRow ps
  | opt p => tail p
  | star p => (reading p)∗
  | plus p => tail p * (reading p)∗

def readingOfChoice : List (Pattern α) → Language α
  | [] => 0
  | p :: ps => reading p + readingOfChoice ps

def readingOfRow : List (Pattern α) → Language α
  | [] => 1
  | p :: ps => reading p * readingOfRow ps

def tailOfRow : List (Pattern α) → Language α
  | [] => 1
  | p :: ps => if ps.isEmpty then tail p else tailOfRow ps

end

mutual

theorem one_le_tail : ∀ p : Pattern α, 1 ≤ tail p
  | leaf _ => by simp only [tail, le_refl]
  | alt _ => by simp only [tail, le_refl]
  | seq ps => by simpa only [tail] using one_le_tailOfRow ps
  | opt p => by simpa only [tail] using one_le_tail p
  | star p => by simpa only [tail] using one_le_kstar
  | plus p => by simpa only [tail, mul_one] using mul_le_mul' (one_le_tail p) one_le_kstar

theorem one_le_tailOfRow : ∀ ps : List (Pattern α), 1 ≤ tailOfRow ps
  | [] => by simp only [tailOfRow, le_refl]
  | p :: ps => by
    unfold tailOfRow
    split
    · exact one_le_tail p
    · exact one_le_tailOfRow ps

end

mutual

/-- Every word that a pattern denotes is read. -/
theorem language_le_reading : ∀ p : Pattern α, language p ≤ reading p
  | leaf _ => by simp only [language, reading, le_refl]
  | alt ps => by simpa only [language, reading] using languageOfChoice_le ps
  | seq ps => by simpa only [language, reading] using languageOfRow_le ps
  | opt p => by
    simp only [language, reading]
    exact add_le (le_add_of_le_right (one_le_tail p)) (le_add_of_le_left (language_le_reading p))
  | star p => by
    simp only [language, reading]
    exact kstar_mono (language_le_reading p)
  | plus p => by
    simp only [language, reading]
    exact mul_le_mul' (language_le_reading p) (kstar_mono (language_le_reading p))

theorem languageOfChoice_le : ∀ ps : List (Pattern α), languageOfChoice ps ≤ readingOfChoice ps
  | [] => by simp only [languageOfChoice, readingOfChoice, le_refl]
  | p :: ps => by
    simp only [languageOfChoice, readingOfChoice]
    exact add_le_add (language_le_reading p) (languageOfChoice_le ps)

theorem languageOfRow_le : ∀ ps : List (Pattern α), languageOfRow ps ≤ readingOfRow ps
  | [] => by simp only [languageOfRow, readingOfRow, le_refl]
  | p :: ps => by
    simp only [languageOfRow, readingOfRow]
    exact mul_le_mul' (language_le_reading p) (languageOfRow_le ps)

end

mutual

/-- No option stands around a pattern that repeats its end, unless it may leave out as much. -/
def Clear : Pattern α → Prop
  | leaf _ => True
  | alt ps => ClearAll ps
  | seq ps => ClearAll ps
  | opt p => Clear p ∧ tail p ≤ 1 + language p
  | star p => Clear p
  | plus p => Clear p

def ClearAll : List (Pattern α) → Prop
  | [] => True
  | p :: ps => Clear p ∧ ClearAll ps

end

mutual

/-- A clear pattern is read as it is meant. -/
theorem Clear.reading_le : ∀ {p : Pattern α}, Clear p → reading p ≤ language p
  | leaf _, _ => by simp only [language, reading, le_refl]
  | alt ps, h => by
    simp only [language, reading]
    exact ClearAll.readingOfChoice_le (by simpa only [Clear] using h)
  | seq ps, h => by
    simp only [language, reading]
    exact ClearAll.readingOfRow_le (by simpa only [Clear] using h)
  | opt p, h => by
    simp only [language, reading]
    obtain ⟨hp, htail⟩ : Clear p ∧ tail p ≤ 1 + language p := by simpa only [Clear] using h
    exact add_le (le_add_of_le_right (Clear.reading_le hp)) htail
  | star p, h => by
    simp only [language, reading]
    exact kstar_mono (Clear.reading_le (by simpa only [Clear] using h))
  | plus p, h => by
    have hp : reading p ≤ language p := Clear.reading_le (by simpa only [Clear] using h)
    simp only [language, reading]
    exact mul_le_mul' hp (kstar_mono hp)

theorem ClearAll.readingOfChoice_le :
    ∀ {ps : List (Pattern α)}, ClearAll ps → readingOfChoice ps ≤ languageOfChoice ps
  | [], _ => by simp only [languageOfChoice, readingOfChoice, le_refl]
  | p :: ps, h => by
    obtain ⟨hp, hps⟩ : Clear p ∧ ClearAll ps := by simpa only [ClearAll] using h
    simp only [languageOfChoice, readingOfChoice]
    exact add_le_add (Clear.reading_le hp) (ClearAll.readingOfChoice_le hps)

theorem ClearAll.readingOfRow_le :
    ∀ {ps : List (Pattern α)}, ClearAll ps → readingOfRow ps ≤ languageOfRow ps
  | [], _ => by simp only [languageOfRow, readingOfRow, le_refl]
  | p :: ps, h => by
    obtain ⟨hp, hps⟩ : Clear p ∧ ClearAll ps := by simpa only [ClearAll] using h
    simp only [languageOfRow, readingOfRow]
    exact mul_le_mul' (Clear.reading_le hp) (ClearAll.readingOfRow_le hps)

end

end Offside.Pattern
