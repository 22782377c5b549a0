import Offside.Grammar.Nfa
import Mathlib

/-!
Paths of a nondeterministic automaton and the languages between two of its states. A language
grows in a known way when a silent arc is added, and does not grow at all when the arcs that are
added cannot be reached.
-/

namespace Offside.Nfa

open Computability

/-- A word leads from one state to another. -/
inductive Path (arcs : List SilentArc) : Nat → List Nat → Nat → Prop
  | nil (q : Nat) : Path arcs q [] q
  | silent {q r s : Nat} {w : List Nat} (h : ⟨q, none, r⟩ ∈ arcs) (rest : Path arcs r w s) :
      Path arcs q w s
  | read {q r s a : Nat} {w : List Nat} (h : ⟨q, some a, r⟩ ∈ arcs) (rest : Path arcs r w s) :
      Path arcs q (a :: w) s

/-- All words that lead from one state to another. -/
def paths (arcs : List SilentArc) (q r : Nat) : Language Nat := {w | Path arcs q w r}

theorem mem_paths {arcs : List SilentArc} {q r : Nat} {w : List Nat} :
    w ∈ paths arcs q r ↔ Path arcs q w r := Iff.rfl

variable {arcs arcs' : List SilentArc} {q r s : Nat} {w v : List Nat}

theorem Path.append (h : Path arcs q w r) (h' : Path arcs r v s) : Path arcs q (w ++ v) s := by
  induction h with
  | nil q => exact h'
  | silent harc _ ih => exact .silent harc (ih h')
  | read harc _ ih => exact .read harc (ih h')

/-- A path that starts inside a set of states stays there if all arcs from the set do. -/
theorem Path.restrict (inside : Nat → Prop) (h : Path arcs q w r) (hq : inside q)
    (hstay : ∀ a ∈ arcs, inside a.source → a ∈ arcs' ∧ inside a.target) :
    Path arcs' q w r ∧ inside r := by
  induction h with
  | nil q => exact ⟨.nil q, hq⟩
  | silent harc _ ih =>
    obtain ⟨hmem, ht⟩ := hstay _ harc hq
    obtain ⟨hp, hr⟩ := ih ht
    exact ⟨.silent hmem hp, hr⟩
  | read harc _ ih =>
    obtain ⟨hmem, ht⟩ := hstay _ harc hq
    obtain ⟨hp, hr⟩ := ih ht
    exact ⟨.read hmem hp, hr⟩

theorem Path.mono (h : Path arcs q w r) (hsub : arcs ⊆ arcs') : Path arcs' q w r :=
  (h.restrict (fun _ => True) trivial fun _ ha _ => ⟨hsub ha, trivial⟩).1

theorem Path.eq_of_no_source (h : Path arcs q w r) (hq : ∀ a ∈ arcs, a.source ≠ q) :
    q = r ∧ w = [] := by
  cases h with
  | nil => exact ⟨rfl, rfl⟩
  | silent harc _ => exact absurd rfl (hq _ harc)
  | read harc _ => exact absurd rfl (hq _ harc)

theorem Path.eq_of_no_target (h : Path arcs q w r) (hr : ∀ a ∈ arcs, a.target ≠ r) :
    q = r ∧ w = [] := by
  induction h with
  | nil => exact ⟨rfl, rfl⟩
  | silent harc _ ih =>
    obtain ⟨rfl, _⟩ := ih hr
    exact absurd rfl (hr _ harc)
  | read harc _ ih =>
    obtain ⟨rfl, _⟩ := ih hr
    exact absurd rfl (hr _ harc)

theorem one_le_paths (arcs : List SilentArc) (q : Nat) : 1 ≤ paths arcs q q := by
  intro w hw
  rw [(Language.mem_one w).1 hw]
  exact .nil q

theorem paths_mul_le (arcs : List SilentArc) (q r s : Nat) :
    paths arcs q r * paths arcs r s ≤ paths arcs q s := by
  rintro _ ⟨w, hw, v, hv, rfl⟩
  exact Path.append hw hv

theorem paths_mono (hsub : arcs ⊆ arcs') (q r : Nat) : paths arcs q r ≤ paths arcs' q r :=
  fun _ h => Path.mono h hsub

theorem kstar_paths_self (arcs : List SilentArc) (q : Nat) :
    (paths arcs q q)∗ = paths arcs q q :=
  kstar_eq_self.2 ⟨le_antisymm (paths_mul_le arcs q q q)
    (by simpa only [mul_one] using mul_le_mul_right (one_le_paths arcs q) (paths arcs q q)),
    one_le_paths arcs q⟩

/-- A state that no arc leads to is reached only from itself. -/
theorem paths_le_one_of_no_target (hr : ∀ a ∈ arcs, a.target ≠ r) : paths arcs q r ≤ 1 :=
  fun _ h => (Path.eq_of_no_target h hr).2

theorem paths_eq_zero_of_no_target (hr : ∀ a ∈ arcs, a.target ≠ r) (hne : q ≠ r) :
    paths arcs q r = 0 :=
  Language.ext fun w =>
    ⟨fun h => absurd (Path.eq_of_no_target h hr).1 hne, fun h => absurd h (Language.notMem_zero w)⟩

theorem paths_self_of_no_source (hq : ∀ a ∈ arcs, a.source ≠ q) : paths arcs q q = 1 :=
  le_antisymm (fun _ h => (Path.eq_of_no_source h hq).2) (one_le_paths arcs q)

/-- A silent arc may be taken any number of times. -/
theorem paths_cons_silent (arcs : List SilentArc) (u v q r : Nat) :
    paths (⟨u, none, v⟩ :: arcs) q r =
      paths arcs q r + paths arcs q u * (paths arcs v u)∗ * paths arcs v r := by
  apply le_antisymm
  · intro w h
    induction h with
    | nil q => exact Or.inl (.nil q)
    | @silent q s r w harc _ ih =>
      rcases List.mem_cons.1 harc with heq | harc
      · -- The word continues at `v`; what it does there makes one more round.
        obtain ⟨rfl, rfl⟩ : q = u ∧ s = v := by simpa using heq
        right
        have hone := one_le_paths arcs q
        rcases ih with hw | hw
        · have hle : paths arcs s r ≤ paths arcs q q * (paths arcs s q)∗ * paths arcs s r := by
            simpa only [one_mul] using
              mul_le_mul' (mul_le_mul' hone (one_le_kstar (a := paths arcs s q))) le_rfl
          exact hle hw
        · have hle : paths arcs s q * (paths arcs s q)∗ * paths arcs s r ≤
              paths arcs q q * (paths arcs s q)∗ * paths arcs s r := by
            refine mul_le_mul' ?_ le_rfl
            simpa only [one_mul] using mul_le_mul' hone (mul_kstar_le_kstar (a := paths arcs s q))
          exact hle hw
      · rcases ih with hw | ⟨_, ⟨x, hx, y, hy, rfl⟩, z, hz, rfl⟩
        · exact Or.inl (.silent harc hw)
        · exact Or.inr ⟨_, ⟨x, .silent harc hx, y, hy, rfl⟩, z, hz, rfl⟩
    | @read q s r a w harc _ ih =>
      rcases List.mem_cons.1 harc with heq | harc
      · simp at heq
      · rcases ih with hw | ⟨_, ⟨x, hx, y, hy, rfl⟩, z, hz, rfl⟩
        · exact Or.inl (.read harc hw)
        · exact Or.inr ⟨_, ⟨a :: x, .read harc hx, y, hy, rfl⟩, z, hz, rfl⟩
  · have hsub : arcs ⊆ ⟨u, none, v⟩ :: arcs := List.subset_cons_self _ _
    have harc : 1 ≤ paths (⟨u, none, v⟩ :: arcs) u v := by
      intro w hw
      rw [(Language.mem_one w).1 hw]
      exact .silent List.mem_cons_self (.nil v)
    have hround : paths (⟨u, none, v⟩ :: arcs) q u * (paths arcs v u)∗ ≤
        paths (⟨u, none, v⟩ :: arcs) q u := by
      refine mul_kstar_le_self ?_
      calc paths (⟨u, none, v⟩ :: arcs) q u * paths arcs v u
          ≤ paths (⟨u, none, v⟩ :: arcs) q u * (paths (⟨u, none, v⟩ :: arcs) u v *
              paths (⟨u, none, v⟩ :: arcs) v u) := by
            refine mul_le_mul' le_rfl ?_
            simpa only [one_mul] using mul_le_mul' harc (paths_mono hsub v u)
        _ ≤ paths (⟨u, none, v⟩ :: arcs) q u * paths (⟨u, none, v⟩ :: arcs) u u :=
            mul_le_mul' le_rfl (paths_mul_le _ u v u)
        _ ≤ paths (⟨u, none, v⟩ :: arcs) q u := paths_mul_le _ q u u
    refine add_le (paths_mono hsub q r) ?_
    calc paths arcs q u * (paths arcs v u)∗ * paths arcs v r
        ≤ paths (⟨u, none, v⟩ :: arcs) q u * (paths arcs v u)∗ *
            (paths (⟨u, none, v⟩ :: arcs) u v * paths (⟨u, none, v⟩ :: arcs) v r) := by
          refine mul_le_mul' (mul_le_mul' (paths_mono hsub q u) le_rfl) ?_
          simpa only [one_mul] using mul_le_mul' harc (paths_mono hsub v r)
      _ ≤ paths (⟨u, none, v⟩ :: arcs) q u * paths (⟨u, none, v⟩ :: arcs) u r :=
          mul_le_mul' hround (paths_mul_le _ u v r)
      _ ≤ paths (⟨u, none, v⟩ :: arcs) q r := paths_mul_le _ q u r

end Offside.Nfa
