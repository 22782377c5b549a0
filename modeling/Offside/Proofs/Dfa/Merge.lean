import Offside.Proofs.Dfa.Run
import Offside.Proofs.Lookup

/-!
Merging equal states. Two states that are equal accept the same words, so leaving out the second
and renumbering the arcs changes no language; and merging stops only when all states differ.
-/

namespace Offside.Dfa

theorem twin?_eq {s : DfaState} {i j : Nat} {states : List DfaState}
    (h : twin? s i states = some j) : states[j - i]? = some s := by
  induction states generalizing i with
  | nil => simp [twin?] at h
  | cons t ts ih =>
    unfold twin? at h
    split at h
    · next heq =>
      obtain rfl := Option.some.inj h
      rw [Nat.sub_self, List.getElem?_cons_zero, heq]
    · have hlt := twin?_lt h
      obtain ⟨d, hd⟩ : ∃ d, j - i = d + 1 := ⟨j - (i + 1), by omega⟩
      have hsome := ih h
      rw [show j - (i + 1) = d by omega] at hsome
      rw [hd, List.getElem?_cons_succ, hsome]

theorem twin?_none {s : DfaState} {i : Nat} {states : List DfaState}
    (h : twin? s i states = none) : s ∉ states := by
  induction states generalizing i with
  | nil => exact List.not_mem_nil
  | cons t ts ih =>
    unfold twin? at h
    split at h
    · simp at h
    · next hne =>
      rw [List.mem_cons, not_or]
      exact ⟨hne, ih h⟩

theorem twins?_eq {k i j : Nat} {states : List DfaState} (h : twins? k states = some (i, j)) :
    states[i - k]? = states[j - k]? := by
  induction states generalizing k with
  | nil => simp [twins?] at h
  | cons s ss ih =>
    unfold twins? at h
    split at h
    · next j' hj =>
      obtain ⟨rfl, rfl⟩ : k = i ∧ j' = j := by simpa using h
      have hlt := twin?_lt hj
      obtain ⟨d, hd⟩ : ∃ d, j' - k = d + 1 := ⟨j' - (k + 1), by omega⟩
      have hsome := twin?_eq hj
      rw [show j' - (k + 1) = d by omega] at hsome
      rw [Nat.sub_self, hd, List.getElem?_cons_succ, List.getElem?_cons_zero, hsome]
    · have hlt := twins?_lt h
      obtain ⟨d, hd⟩ : ∃ d, i - k = d + 1 := ⟨i - (k + 1), by omega⟩
      obtain ⟨e, he⟩ : ∃ e, j - k = e + 1 := ⟨j - (k + 1), by omega⟩
      have heq := ih h
      rw [show i - (k + 1) = d by omega, show j - (k + 1) = e by omega] at heq
      rw [hd, he, List.getElem?_cons_succ, List.getElem?_cons_succ, heq]

theorem twins?_none {k : Nat} {states : List DfaState} (h : twins? k states = none) :
    states.Nodup := by
  induction states generalizing k with
  | nil => exact List.nodup_nil
  | cons s ss ih =>
    unfold twins? at h
    split at h
    · simp at h
    · next hs => exact List.nodup_cons.2 ⟨twin?_none hs, ih h⟩

/-- A state with the targets of its arcs renumbered. -/
def renumbered (i j : Nat) (s : DfaState) : DfaState :=
  { s with arcs := s.arcs.map fun a => (a.1, renumber i j a.2) }

variable {i j : Nat} {states : List DfaState}

theorem merge_eq : merge i j states = (states.eraseIdx j).map (renumbered i j) := rfl

theorem renumber_zero (hlt : i < j) : renumber i j 0 = 0 := by
  unfold renumber
  rw [if_neg (by omega), if_neg (by omega)]

/-- The new number of a state is that of the same state with new targets. -/
theorem getElem?_merge (hlt : i < j) (heq : states[i]? = states[j]?) (q : Nat) :
    (merge i j states)[renumber i j q]? = states[q]?.map (renumbered i j) := by
  rw [merge_eq, List.getElem?_map]
  congr 1
  unfold renumber
  by_cases hq : q = j
  · subst hq
    rw [if_pos rfl, List.getElem?_eraseIdx_of_lt hlt, heq]
  · by_cases hjq : j < q
    · rw [if_neg hq, if_pos hjq, List.getElem?_eraseIdx_of_ge (by omega)]
      congr 1
      omega
    · rw [if_neg hq, if_neg hjq, List.getElem?_eraseIdx_of_lt (by omega)]

theorem next?_merge (hlt : i < j) (heq : states[i]? = states[j]?) (q a : Nat) :
    next? (merge i j states) (renumber i j q) a = (next? states q a).map (renumber i j) := by
  unfold next?
  rw [getElem?_merge hlt heq]
  cases states[q]? with
  | none => rfl
  | some s => exact lookup_map_snd _ s.arcs a

theorem run_merge (hlt : i < j) (heq : states[i]? = states[j]?) (q : Nat) (w : List Nat) :
    run (merge i j states) (renumber i j q) w = (run states q w).map (renumber i j) := by
  induction w generalizing q with
  | nil => rfl
  | cons a w ih =>
    rw [run_cons, run_cons, next?_merge hlt heq]
    cases next? states q a with
    | none => rfl
    | some r => exact ih r

theorem acceptsFrom_merge (hlt : i < j) (heq : states[i]? = states[j]?) (q : Nat) (w : List Nat) :
    acceptsFrom (merge i j states) (renumber i j q) w = acceptsFrom states q w := by
  unfold acceptsFrom
  rw [run_merge hlt heq]
  cases run states q w with
  | none => rfl
  | some r =>
    simp only [Option.map_some, Option.getD_some, isAccepting]
    rw [getElem?_merge hlt heq]
    cases states[r]? with
    | none => rfl
    | some s => rfl

/-- What merging once does to the first state and to all others, merging again and again does. -/
theorem simplify_induction {motive : List DfaState → Prop} (states : List DfaState)
    (hstart : motive states)
    (hmerge : ∀ i j states, i < j → states[i]? = states[j]? → motive states →
      motive (merge i j states)) :
    motive (simplify states) := by
  fun_induction simplify states with
  | case1 states h => exact hstart
  | case2 states i j h hlt ih =>
    exact ih (hmerge i j states (twins?_lt h).2.1 (twins?_eq h) hstart)

theorem accepts_simplify (states : List DfaState) (w : List Nat) :
    accepts (simplify states) w = accepts states w := by
  refine simplify_induction (motive := fun new => accepts new w = accepts states w) states rfl ?_
  intro i j new hlt heq hnew
  calc accepts (merge i j new) w = acceptsFrom (merge i j new) (renumber i j 0) w := by
        rw [renumber_zero hlt, accepts]
    _ = accepts new w := acceptsFrom_merge hlt heq 0 w
    _ = accepts states w := hnew

/-- No two states are left with the same acceptance and the same arcs. -/
theorem simplify_nodup (states : List DfaState) : (simplify states).Nodup := by
  fun_induction simplify states with
  | case1 states h => exact twins?_none h
  | case2 states i j h hlt ih => exact ih

/-- Merging keeps the labels on which states are left. -/
theorem map_fst_arcs_merge (ok : List Nat → Prop) (h : ∀ s ∈ states, ok (s.arcs.map Prod.fst)) :
    ∀ s ∈ merge i j states, ok (s.arcs.map Prod.fst) := by
  intro s hs
  rw [merge_eq] at hs
  obtain ⟨t, ht, rfl⟩ := List.mem_map.1 hs
  have hfst : (renumbered i j t).arcs.map Prod.fst = t.arcs.map Prod.fst := by
    simp only [renumbered, List.map_map]
    rfl
  rw [hfst]
  exact h t (List.mem_of_mem_eraseIdx ht)

end Offside.Dfa
