import Mathlib.Logic.Relation
import Offside.Proofs.Grammar.FirstSets

/-!
Left recursion. A rule is left-recursive if going down from rules to those that they can begin with
leads back to it. The search for first sets goes down in this way and keeps its way in mind: where
it fails it has come back, and where it succeeds the order in which the sets were found admits no
way back.
-/

namespace Offside.First

open Relation

variable {labels : List Label} {dfas : RuleDfas} {sets sets' : Sets} {s sub : Symbol}

/-- The start of a rule's automaton has an arc for another rule. -/
def StartsWith (labels : List Label) (dfas : RuleDfas) (s sub : Symbol) : Prop :=
  ∃ arc ∈ startArcs dfas s, labels[arc.1]? = some (.rule sub)

/-- Going down from a rule can lead back to it. -/
def LeftRecursive (labels : List Label) (dfas : RuleDfas) (s : Symbol) : Prop :=
  TransGen (StartsWith labels dfas) s s

/-- The search fails only where it comes back to a rule from which it has gone down. -/
theorem leftRecursive_of_add (path : List Symbol) (s : Symbol) {sets : Sets} {e : GrammarError}
    (hpath : ∀ x ∈ path, TransGen (StartsWith labels dfas) x s)
    (h : add labels dfas path s sets = .error e) :
    ∃ x, e = .leftRecursive x.name ∧ LeftRecursive labels dfas x := by
  rw [add] at h
  split at h
  · next hs =>
    cases h
    exact ⟨s, rfl, hpath s hs⟩
  · next hs =>
    split at h
    · cases h
    · rcases bind_eq_error.1 h with hfold | ⟨_, _, h⟩
      · obtain ⟨done, arc, todo, ⟨sets₁, first⟩, harcs, _, hstep⟩ :=
          exists_of_foldlM_eq_error hfold
        dsimp only at hstep
        split at hstep
        · next sub hsub =>
          have hstarts : StartsWith labels dfas s sub :=
            ⟨arc, by rw [harcs]; exact List.mem_append_right _ List.mem_cons_self, hsub⟩
          have hdown : ∀ x ∈ s :: path, TransGen (StartsWith labels dfas) x sub := by
            intro x hx
            rcases List.mem_cons.1 hx with rfl | hx
            · exact .single hstarts
            · exact (hpath x hx).tail hstarts
          rcases bind_eq_error.1 hstep with hadd | ⟨_, _, hstep⟩
          · have : room (s :: path) < room path := room_cons_lt hs
            exact leftRecursive_of_add (s :: path) sub hdown hadd
          · cases hstep
        · cases hstep
        · cases hstep
      · cases h
termination_by room path

theorem leftRecursive_of_compute {e : GrammarError} (h : compute labels dfas = .error e) :
    ∃ x, e = .leftRecursive x.name ∧ LeftRecursive labels dfas x := by
  obtain ⟨_, rule, _, _, _, _, hadd⟩ := exists_of_foldlM_eq_error h
  exact leftRecursive_of_add [] rule.1 (fun _ hx => absurd hx List.not_mem_nil) hadd

/-- Going down leads to rules that were found earlier. -/
theorem rank_lt_of_transGen (hcomputed : Computed labels dfas sets)
    (hsets : ∀ rule ∈ dfas, (sets.lookup rule.1).isSome)
    (h : TransGen (StartsWith labels dfas) s sub) : rank sets sub < rank sets s := by
  have hstep : ∀ {x y}, StartsWith labels dfas x y → rank sets y < rank sets x := by
    intro x y hxy
    obtain ⟨arc, harc, hy⟩ := hxy
    obtain ⟨rule, hrule, rfl⟩ := List.mem_map.1 (mem_keys_of_startArcs harc)
    exact hcomputed.rank_lt (hsets rule hrule) harc hy
  induction h with
  | single h => exact hstep h
  | tail _ h ih => exact Nat.lt_trans (hstep h) ih

theorem not_leftRecursive_of_compute (h : compute labels dfas = .ok sets) (s : Symbol) :
    ¬LeftRecursive labels dfas s := by
  obtain ⟨hcomputed, hsets⟩ := compute_spec h
  exact fun hs => Nat.lt_irrefl _ (rank_lt_of_transGen hcomputed hsets hs)

end Offside.First
