import Offside.Proofs.Dfa.Language
import Offside.Proofs.Nfa.Live

/-!
Dead ends of deterministic automata. The search only meets sets with a live state in them, so
whatever has been read can be read on until it is accepted; and merging states keeps that.
-/

namespace Offside.Dfa

open Nfa Pattern

/-- Whatever is read from the first state can be continued by some of the letters, so that the
whole is accepted. -/
def Continues (letters : List Nat) (states : List DfaState) : Prop :=
  ∀ u q, run states 0 u = some q →
    ∃ v, acceptsFrom states q v = true ∧ ∀ a ∈ v, a ∈ letters

/-- A search that starts from a set with a live state in it meets no other sets. -/
theorem live_of_run {m : Nfa} {all : List (List Nat)} {states : List DfaState}
    (hstates : List.Forall₂ (StateOf m all) all states)
    (hlive : ∀ a ∈ m.arcs, Nfa.Leads m.arcs a.target m.stop) (u : List Nat) :
    ∀ {i j : Nat} {qs : List Nat}, all[i]? = some qs → (∃ q ∈ qs, Nfa.Leads m.arcs q m.stop) →
      run states i u = some j →
        ∃ rs, all[j]? = some rs ∧ ∃ r ∈ rs, Nfa.Leads m.arcs r m.stop := by
  induction u with
  | nil =>
    intro i j qs hi hqs hrun
    obtain rfl := Option.some.inj hrun
    exact ⟨qs, hi, hqs⟩
  | cons a u ih =>
    intro i j qs hi _ hrun
    rw [run_cons] at hrun
    obtain ⟨k, hnext, hrun⟩ := Option.bind_eq_some_iff.1 hrun
    obtain ⟨s, hs, hstate⟩ := getElem?_of_forall₂ hstates hi
    rw [next?, hs, Option.bind_some] at hnext
    have harc := mem_of_lookup hnext
    have ha : a ∈ m.labelsFrom qs := by
      rw [← hstate.labels]
      exact List.mem_map.2 ⟨(a, k), harc, rfl⟩
    obtain ⟨q, hq, r, hr⟩ := mem_labelsFrom.1 ha
    exact ih (hstate.targets _ harc) ⟨r, mem_move.2 ⟨q, hq, r, hr, .nil r⟩, hlive _ hr⟩ hrun

theorem continues_ofNfa {m : Nfa} {letters : List Nat} (hstart : m.start < stateCount m)
    (hlive : Live m.start m.stop m.arcs) (hreading : Nfa.Reading letters m.arcs) :
    Continues letters (ofNfa m) := by
  intro u q hrun
  obtain ⟨all, hknown, hzero, hstates⟩ := ofNfa_spec hstart
  have hfirst : m.start ∈ m.closure [m.start] :=
    mem_closure.2 ⟨m.start, List.mem_singleton_self _, .nil _⟩
  obtain ⟨rs, hrs, r, hr, v, hv⟩ :=
    live_of_run hstates hlive.target u hzero ⟨m.start, hfirst, hlive.start⟩ hrun
  exact ⟨v, (acceptsFrom_iff_path hknown hstates v hrs).2 ⟨r, hr, hv⟩,
    hv.mem_of_reading hreading⟩

theorem continues_merge {letters : List Nat} {i j : Nat} {states : List DfaState} (hlt : i < j)
    (heq : states[i]? = states[j]?) (h : Continues letters states) :
    Continues letters (merge i j states) := by
  intro u q hrun
  rw [← renumber_zero hlt, run_merge hlt heq] at hrun
  obtain ⟨r, hr, rfl⟩ := Option.map_eq_some_iff.1 hrun
  obtain ⟨v, hv, hletters⟩ := h u r hr
  exact ⟨v, by rw [acceptsFrom_merge hlt heq, hv], hletters⟩

/-- The automaton of a pattern without empty choices has no dead end, and needs no letters but the
leaves of the pattern. -/
theorem continues_ofPattern {p : Pattern Nat} (hp : p.Choosable) :
    Continues p.leaves (ofPattern p) :=
  simplify_induction (motive := Continues p.leaves) _
    (continues_ofNfa (start_lt_stateCount p) (build_live p 0 hp) (build_reading p 0))
    fun _ _ _ hlt heq h => continues_merge hlt heq h

end Offside.Dfa
