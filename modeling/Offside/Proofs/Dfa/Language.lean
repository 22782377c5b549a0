import Offside.Proofs.Dfa.Merge
import Offside.Proofs.Dfa.Subset
import Offside.Proofs.Nfa.Build

/-!
The language of the deterministic automaton of a pattern: `reading`, and so what the pattern
denotes as long as no option is given words to skip that do not belong to it.
-/

namespace Offside.Dfa

open Nfa Pattern

theorem start_lt_stateCount (p : Pattern Nat) :
    (Nfa.ofPattern p).start < stateCount (Nfa.ofPattern p) := by
  have hzero : (Nfa.ofPattern p).start = 0 := (build_reads p 0).start_eq
  rw [hzero]
  exact Nat.succ_pos _

theorem accepts_ofPattern (p : Pattern Nat) (w : List Nat) :
    accepts (ofPattern p) w = true ↔ w ∈ p.reading := by
  calc accepts (ofPattern p) w = true
      ↔ accepts (ofNfa (Nfa.ofPattern p)) w = true := by rw [ofPattern, accepts_simplify]
    _ ↔ Path (Nfa.ofPattern p).arcs (Nfa.ofPattern p).start w (Nfa.ofPattern p).stop :=
        accepts_ofNfa (start_lt_stateCount p) w
    _ ↔ w ∈ p.reading := by rw [← paths_ofPattern p, mem_paths]

/-- The construction keeps the language of a pattern exactly when the pattern reads no more than it
denotes; in any case it accepts what the pattern reads, and its states all differ. -/
theorem ofPattern_language (p : Pattern Nat) :
    ((∀ w, accepts (ofPattern p) w = true ↔ w ∈ p.language) ↔ p.reading ≤ p.language) ∧
      (∀ w, accepts (ofPattern p) w = true ↔ w ∈ p.reading) ∧ (ofPattern p).Nodup := by
  refine ⟨⟨fun h w hw => ?_, fun h w => ?_⟩, accepts_ofPattern p, simplify_nodup _⟩
  · exact (h w).1 ((accepts_ofPattern p w).2 hw)
  · rw [accepts_ofPattern]
    exact ⟨fun hw => h hw, fun hw => language_le_reading p hw⟩

/-- A repetition at the end of an option can be read without what stands before it. -/
theorem optional_repetition_read_alone :
    accepts (ofPattern (.opt (.seq [.leaf 0, .star (.leaf 1)]))) [1] = true ∧
      [1] ∉ (Pattern.opt (.seq [.leaf 0, .star (.leaf 1)])).language := by
  refine ⟨by decide +kernel, ?_⟩
  simp only [language, languageOfRow, mul_one]
  rintro (h | ⟨v, hv, w, _, h⟩)
  · exact absurd ((Language.mem_one _).1 h) (by decide)
  · obtain rfl : v = [0] := hv
    simp at h

theorem accepts_ofPattern_of_clear {p : Pattern Nat} (h : p.Clear) (w : List Nat) :
    accepts (ofPattern p) w = true ↔ w ∈ p.language := by
  rw [accepts_ofPattern]
  exact ⟨fun hw => h.reading_le hw, fun hw => language_le_reading p hw⟩

/-- A state is left on each label by one arc, and its arcs rise. -/
theorem ofPattern_ascending (p : Pattern Nat) :
    ∀ s ∈ ofPattern p, (s.arcs.map Prod.fst).Pairwise (· < ·) := by
  refine simplify_induction (motive := fun states =>
    ∀ s ∈ states, (s.arcs.map Prod.fst).Pairwise (· < ·)) _ (fun s hs => ?_) ?_
  · obtain ⟨all, _, _, hstates⟩ := ofNfa_spec (start_lt_stateCount p)
    obtain ⟨qs, _, hstate⟩ := exists_of_mem_right hstates hs
    rw [hstate.labels]
    exact Ascending.ofList_pairwise _
  · exact fun i j states _ _ h =>
      map_fst_arcs_merge (fun labels => labels.Pairwise (· < ·)) h

end Offside.Dfa
