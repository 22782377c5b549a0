import Offside.Proofs.Dfa.Run
import Offside.Proofs.Lookup
import Offside.Proofs.Nfa.Closure
import Offside.Proofs.Outcome
import Mathlib

/-!
The subset construction. The sets that the search meets are numbered without repetition; each
state it gives is that of the set with its number, and there is fuel for every set there can be.
So a word is accepted from a state when it leads out of the state's set to the stop.
-/

namespace Offside.Dfa

open Nfa

/-- The sets of a search: all different, each of them ascending, bounded and closed. -/
structure Known (m : Nfa) (known : List (List Nat)) : Prop where
  nodup : known.Nodup
  ascending : ∀ qs ∈ known, qs.Pairwise (· < ·)
  bounded : ∀ qs ∈ known, ∀ q ∈ qs, q < stateCount m
  closed : ∀ qs ∈ known, m.Closed qs

/-- The state of a set, when sets have the numbers that `known` gives them. -/
structure StateOf (m : Nfa) (known : List (List Nat)) (qs : List Nat) (s : DfaState) : Prop where
  accepting : s.accepting = qs.contains m.stop
  labels : s.arcs.map Prod.fst = m.labelsFrom qs
  targets : ∀ arc ∈ s.arcs, known[arc.2]? = some (m.move qs arc.1)

theorem le_foldl_max (ns : List Nat) (n : Nat) :
    n ≤ ns.foldl max n ∧ ∀ k ∈ ns, k ≤ ns.foldl max n := by
  induction ns generalizing n with
  | nil => simp
  | cons m ns ih =>
    obtain ⟨hle, hall⟩ := ih (max n m)
    rw [List.foldl_cons]
    refine ⟨by omega, fun k hk => ?_⟩
    rcases List.mem_cons.1 hk with rfl | hk
    · omega
    · exact hall k hk

theorem target_lt_stateCount {m : Nfa} {arc : SilentArc} (h : arc ∈ m.arcs) :
    arc.target < stateCount m := by
  have hle := (le_foldl_max (m.arcs.map fun a => max a.source a.target) 0).2
    (max arc.source arc.target) (List.mem_map.2 ⟨arc, h, rfl⟩)
  unfold stateCount
  omega

theorem path_lt_stateCount {m : Nfa} {q r : Nat} {w : List Nat} (h : Path m.arcs q w r)
    (hq : q < stateCount m) : r < stateCount m := by
  induction h with
  | nil => exact hq
  | silent harc _ ih => exact ih (target_lt_stateCount harc)
  | read harc _ ih => exact ih (target_lt_stateCount harc)

theorem closure_ascending (m : Nfa) (qs : List Nat) : (m.closure qs).Pairwise (· < ·) :=
  Ascending.ofList_pairwise _

theorem move_lt_stateCount {m : Nfa} {qs : List Nat} {a r : Nat} (h : r ∈ m.move qs a) :
    r < stateCount m := by
  obtain ⟨q, _, s, harc, hpath⟩ := mem_move.1 h
  exact path_lt_stateCount hpath (target_lt_stateCount harc)

theorem known_start {m : Nfa} (hstart : m.start < stateCount m) :
    Known m [m.closure [m.start]] :=
  { nodup := List.nodup_singleton _
    ascending := fun qs h => by
      rw [List.mem_singleton.1 h]
      exact closure_ascending m _
    bounded := fun qs h q hq => by
      rw [List.mem_singleton.1 h] at hq
      obtain ⟨s, hs, hpath⟩ := mem_closure.1 hq
      rw [List.mem_singleton.1 hs] at hpath
      exact path_lt_stateCount hpath hstart
    closed := fun qs h => by
      rw [List.mem_singleton.1 h]
      exact closure_closed m _ }

theorem Known.concat_move {m : Nfa} {known : List (List Nat)} {qs : List Nat} {a : Nat}
    (h : Known m known) (hnew : m.move qs a ∉ known) : Known m (known ++ [m.move qs a]) := by
  refine
    { nodup := List.nodup_append.2 ⟨h.nodup, List.nodup_singleton _, ?_⟩
      ascending := ?_
      bounded := ?_
      closed := ?_ }
  · intro x hx y hy heq
    rw [List.mem_singleton.1 hy] at heq
    exact hnew (heq ▸ hx)
  · intro x hx
    rcases List.mem_append.1 hx with hx | hx
    · exact h.ascending x hx
    · rw [List.mem_singleton.1 hx]
      exact closure_ascending m _
  · intro x hx q hq
    rcases List.mem_append.1 hx with hx | hx
    · exact h.bounded x hx q hq
    · rw [List.mem_singleton.1 hx] at hq
      exact move_lt_stateCount hq
  · intro x hx
    rcases List.mem_append.1 hx with hx | hx
    · exact h.closed x hx
    · rw [List.mem_singleton.1 hx]
      exact closure_closed m _

/-- There are no more sets than subsets of the states. -/
theorem Known.length_le {m : Nfa} {known : List (List Nat)} (h : Known m known) :
    known.length ≤ 2 ^ stateCount m := by
  have hsub : known ⊆ (List.range (stateCount m)).sublists := fun qs hqs =>
    List.mem_sublists.2 <| List.sublist_of_subperm_of_pairwise
      (List.subperm_of_subset ((h.ascending qs hqs).imp Nat.ne_of_lt)
        fun q hq => List.mem_range.2 (h.bounded qs hqs q hq))
      (h.ascending qs hqs) List.pairwise_lt_range
  calc known.length ≤ ((List.range (stateCount m)).sublists).length :=
        (List.subperm_of_subset h.nodup hsub).length_le
    _ = 2 ^ stateCount m := by rw [List.length_sublists, List.length_range]

theorem getElem?_of_extends {known known' : List (List Nat)} {i : Nat} {qs : List Nat}
    (hsub : known <+: known') (h : known[i]? = some qs) : known'[i]? = some qs := by
  obtain ⟨more, rfl⟩ := hsub
  obtain ⟨hlt, _⟩ := List.getElem?_eq_some_iff.1 h
  rw [List.getElem?_append_left hlt, h]

/-- Numbering the targets of a set only adds sets that are new, and numbers each target. -/
theorem arcsOf_spec (m : Nfa) (qs labels : List Nat) (known : List (List Nat))
    (h : Known m known) :
    known <+: (arcsOf m qs labels known).2 ∧ Known m (arcsOf m qs labels known).2 ∧
      (arcsOf m qs labels known).1.map Prod.fst = labels ∧
      ∀ arc ∈ (arcsOf m qs labels known).1,
        (arcsOf m qs labels known).2[arc.2]? = some (m.move qs arc.1) := by
  induction labels generalizing known with
  | nil => exact ⟨List.prefix_refl _, h, rfl, fun _ harc => absurd harc List.not_mem_nil⟩
  | cons label labels ih =>
    unfold arcsOf
    dsimp only
    split
    · next i hi =>
      obtain ⟨hsub, hknown, hlabels, htargets⟩ := ih known h
      refine ⟨hsub, hknown, by rw [List.map_cons, hlabels], fun arc harc => ?_⟩
      rcases List.mem_cons.1 harc with rfl | harc
      · refine getElem?_of_extends hsub ?_
        obtain ⟨hlt, heq, _⟩ := List.idxOf?_eq_some_iff.1 hi
        rw [List.getElem?_eq_getElem hlt, heq]
      · exact htargets arc harc
    · next hi =>
      have hnew : m.move qs label ∉ known := List.idxOf?_eq_none_iff.1 hi
      obtain ⟨hsub, hknown, hlabels, htargets⟩ :=
        ih (known ++ [m.move qs label]) (h.concat_move hnew)
      refine ⟨(List.prefix_append _ _).trans hsub, hknown, by rw [List.map_cons, hlabels],
        fun arc harc => ?_⟩
      rcases List.mem_cons.1 harc with rfl | harc
      · refine getElem?_of_extends hsub ?_
        rw [List.getElem?_append_right (Nat.le_refl _), Nat.sub_self, List.getElem?_cons_zero]
      · exact htargets arc harc

theorem StateOf.mono {m : Nfa} {known known' : List (List Nat)} {qs : List Nat} {s : DfaState}
    (h : StateOf m known qs s) (hsub : known <+: known') : StateOf m known' qs s :=
  { h with targets := fun arc harc => getElem?_of_extends hsub (h.targets arc harc) }

/-- A search ends with all the sets that it met and the state of each from the first one on that
it had not looked at. -/
theorem explore_spec (m : Nfa) (fuel i : Nat) (known : List (List Nat)) (h : Known m known)
    (hi : i ≤ known.length) (hfuel : 2 ^ stateCount m ≤ fuel + i) :
    ∃ all, known <+: all ∧ Known m all ∧
      List.Forall₂ (StateOf m all) (all.drop i) (explore m fuel i known) := by
  induction fuel generalizing i known with
  | zero =>
    have hle := h.length_le
    refine ⟨known, List.prefix_refl _, h, ?_⟩
    rw [List.drop_eq_nil_of_le (by omega)]
    exact .nil
  | succ fuel ih =>
    unfold explore
    split
    · next hnone =>
      have hle := List.getElem?_eq_none_iff.1 hnone
      refine ⟨known, List.prefix_refl _, h, ?_⟩
      rw [List.drop_eq_nil_of_le hle]
      exact .nil
    · next qs hqs =>
      obtain ⟨hlt, _⟩ := List.getElem?_eq_some_iff.1 hqs
      obtain ⟨hsub, hknown, hlabels, htargets⟩ := arcsOf_spec m qs (m.labelsFrom qs) known h
      have hlen := hsub.length_le
      obtain ⟨all, hall, hknown', hstates⟩ := ih (i + 1) _ hknown (by omega) (by omega)
      refine ⟨all, hsub.trans hall, hknown', ?_⟩
      obtain ⟨hlt', heq⟩ := List.getElem?_eq_some_iff.1 (getElem?_of_extends (hsub.trans hall) hqs)
      rw [List.drop_eq_getElem_cons hlt', heq]
      exact .cons (StateOf.mono ⟨rfl, hlabels, htargets⟩ hall) hstates

theorem ofNfa_spec {m : Nfa} (hstart : m.start < stateCount m) :
    ∃ all, Known m all ∧ all[0]? = some (m.closure [m.start]) ∧
      List.Forall₂ (StateOf m all) all (ofNfa m) := by
  obtain ⟨all, hsub, hknown, hstates⟩ :=
    explore_spec m (1 <<< stateCount m) 0 _ (known_start hstart) (Nat.zero_le _)
      (Nat.one_shiftLeft _).ge
  rw [List.drop_zero] at hstates
  exact ⟨all, hknown, getElem?_of_extends hsub rfl, hstates⟩

/-- From the state of a set a word is accepted exactly if it leads out of the set to the stop. -/
theorem acceptsFrom_iff_path {m : Nfa} {all : List (List Nat)} {states : List DfaState}
    (hknown : Known m all) (hstates : List.Forall₂ (StateOf m all) all states) (w : List Nat) :
    ∀ {i : Nat} {qs : List Nat}, all[i]? = some qs →
      (acceptsFrom states i w = true ↔ ∃ q ∈ qs, Path m.arcs q w m.stop) := by
  induction w with
  | nil =>
    intro i qs hi
    obtain ⟨s, hs, hstate⟩ := getElem?_of_forall₂ hstates hi
    have hclosed := hknown.closed qs (List.mem_of_getElem? hi)
    rw [acceptsFrom_nil, isAccepting, hs, Option.map_some, Option.getD_some, hstate.accepting,
      List.contains_iff_mem]
    constructor
    · exact fun h => ⟨_, h, .nil _⟩
    · rintro ⟨q, hq, hpath⟩
      exact hpath.mem_of_closed rfl hq hclosed
  | cons a w ih =>
    intro i qs hi
    obtain ⟨s, hs, hstate⟩ := getElem?_of_forall₂ hstates hi
    have hclosed := hknown.closed qs (List.mem_of_getElem? hi)
    have hnext : next? states i a = s.arcs.lookup a := by rw [next?, hs, Option.bind_some]
    rw [acceptsFrom_cons, hnext]
    by_cases ha : a ∈ m.labelsFrom qs
    · rw [← hstate.labels] at ha
      obtain ⟨j, hj, hmem⟩ := exists_lookup_of_mem_keys ha
      rw [hj, Option.map_some, Option.getD_some, ih (hstate.targets _ hmem)]
      exact (exists_path_cons_iff hclosed).symm
    · rw [lookup_eq_none_of_keys (hstate.labels ▸ ha)]
      constructor
      · intro h
        simp at h
      · rintro ⟨q, hq, hpath⟩
        exact absurd hpath (not_path_of_not_mem_labelsFrom hclosed hq ha)

/-- The subset construction keeps the language. -/
theorem accepts_ofNfa {m : Nfa} (hstart : m.start < stateCount m) (w : List Nat) :
    accepts (ofNfa m) w = true ↔ Path m.arcs m.start w m.stop := by
  obtain ⟨all, hknown, hzero, hstates⟩ := ofNfa_spec hstart
  rw [accepts, acceptsFrom_iff_path hknown hstates w hzero]
  constructor
  · rintro ⟨q, hq, hpath⟩
    obtain ⟨s, hs, hsilent⟩ := mem_closure.1 hq
    rw [List.mem_singleton.1 hs] at hsilent
    exact hsilent.append hpath
  · exact fun h => ⟨_, mem_closure.2 ⟨_, List.mem_singleton_self _, .nil _⟩, h⟩

end Offside.Dfa
