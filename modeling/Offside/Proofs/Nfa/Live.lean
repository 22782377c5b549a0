import Offside.Proofs.Nfa.Path
import Offside.Proofs.Pattern.Choices

/-!
Dead ends. A state of a nondeterministic automaton is live if some word leads from it to the stop.
The automaton of a pattern without empty choices has no dead end: its start is live, and so is
whatever an arc leads to. Its arcs read nothing but leaves of the pattern.
-/

namespace Offside.Nfa

open Pattern

/-- Some word leads from one state to another. -/
def Leads (arcs : List SilentArc) (q r : Nat) : Prop := ∃ w, Path arcs q w r

variable {arcs arcs' : List SilentArc} {q r s stop : Nat}

theorem leads_refl (arcs : List SilentArc) (q : Nat) : Leads arcs q q := ⟨[], .nil q⟩

theorem Leads.trans (h : Leads arcs q r) (h' : Leads arcs r s) : Leads arcs q s := by
  obtain ⟨w, hw⟩ := h
  obtain ⟨v, hv⟩ := h'
  exact ⟨w ++ v, hw.append hv⟩

theorem Leads.mono (h : Leads arcs q r) (hsub : arcs ⊆ arcs') : Leads arcs' q r :=
  h.imp fun _ hw => hw.mono hsub

theorem leads_of_silent (h : ⟨q, none, r⟩ ∈ arcs) : Leads arcs q r := ⟨[], .silent h (.nil r)⟩

/-- No dead end can be entered: the start is live, and so is every state that an arc leads to. -/
structure Live (start stop : Nat) (arcs : List SilentArc) : Prop where
  start : Leads arcs start stop
  target : ∀ a ∈ arcs, Leads arcs a.target stop

theorem join_subset {pairs : List (Nat × Nat)} : arcs ⊆ join pairs arcs :=
  List.subset_append_right _ _

theorem leads_join {pairs : List (Nat × Nat)} (h : (q, r) ∈ pairs) :
    Leads (join pairs arcs) q r :=
  leads_of_silent (List.mem_append_left _ (List.mem_map.2 ⟨(q, r), h, rfl⟩))

theorem mem_join {pairs : List (Nat × Nat)} {a : SilentArc} :
    a ∈ join pairs arcs ↔ (∃ p ∈ pairs, a = ⟨p.1, none, p.2⟩) ∨ a ∈ arcs := by
  rw [join, List.mem_append, List.mem_map]
  simp only [eq_comm]

theorem live_leaf (a fresh : Nat) : Live fresh (fresh + 1) [⟨fresh, some a, fresh + 1⟩] where
  start := ⟨[a], .read List.mem_cons_self (.nil _)⟩
  target := by
    intro arc harc
    rw [List.mem_singleton.1 harc]
    exact leads_refl _ _

section

variable {m : Nfa} (h : Live m.start m.stop m.arcs)

include h

theorem live_opt : Live m.start m.stop (join [(m.start, m.stop)] m.arcs) where
  start := h.start.mono join_subset
  target := by
    intro a ha
    rcases mem_join.1 ha with ⟨p, hp, rfl⟩ | ha
    · rw [List.mem_singleton.1 hp]
      exact leads_refl _ _
    · exact (h.target a ha).mono join_subset

theorem live_plus : Live m.start m.stop (join [(m.stop, m.start)] m.arcs) where
  start := h.start.mono join_subset
  target := by
    intro a ha
    rcases mem_join.1 ha with ⟨p, hp, rfl⟩ | ha
    · rw [List.mem_singleton.1 hp]
      exact h.start.mono join_subset
    · exact (h.target a ha).mono join_subset

theorem live_star : Live m.start m.start (join [(m.stop, m.start)] m.arcs) where
  start := leads_refl _ _
  target := fun a ha =>
    ((live_plus h).target a ha).trans (leads_join List.mem_cons_self)

/-- One more automaton beside others between two states. -/
theorem live_choice_cons {start : Nat} (htarget : ∀ a ∈ arcs, Leads arcs a.target stop) :
    Live start stop (join [(start, m.start), (m.stop, stop)] m.arcs ++ arcs) := by
  have hfirst : join [(start, m.start), (m.stop, stop)] m.arcs ⊆
      join [(start, m.start), (m.stop, stop)] m.arcs ++ arcs := List.subset_append_left _ _
  have hinside (q : Nat) (hq : Leads m.arcs q m.stop) :
      Leads (join [(start, m.start), (m.stop, stop)] m.arcs ++ arcs) q stop :=
    ((hq.mono join_subset).trans (leads_join (by simp))).mono hfirst
  refine ⟨((leads_join (by simp)).mono hfirst).trans (hinside _ h.start), fun a ha => ?_⟩
  rcases List.mem_append.1 ha with ha | ha
  · rcases mem_join.1 ha with ⟨p, hp, rfl⟩ | ha
    · simp only [List.mem_cons, List.not_mem_nil, or_false] at hp
      rcases hp with rfl | rfl
      · exact hinside _ h.start
      · exact leads_refl _ _
    · exact hinside _ (h.target a ha)
  · exact (htarget a ha).mono (List.subset_append_right _ _)

/-- One more automaton in front of others. -/
theorem live_row_cons {start : Nat} (hrest : Live m.stop stop arcs) :
    Live start stop (join [(start, m.start)] m.arcs ++ arcs) := by
  have hfirst : join [(start, m.start)] m.arcs ⊆ join [(start, m.start)] m.arcs ++ arcs :=
    List.subset_append_left _ _
  have hinside (q : Nat) (hq : Leads m.arcs q m.stop) :
      Leads (join [(start, m.start)] m.arcs ++ arcs) q stop :=
    (hq.mono fun _ ha => hfirst (join_subset ha)).trans
      (hrest.start.mono (List.subset_append_right _ _))
  refine ⟨((leads_join (by simp)).mono hfirst).trans (hinside _ h.start), fun a ha => ?_⟩
  rcases List.mem_append.1 ha with ha | ha
  · rcases mem_join.1 ha with ⟨p, hp, rfl⟩ | ha
    · rw [List.mem_singleton.1 hp]
      exact hinside _ h.start
    · exact hinside _ (h.target a ha)
  · exact (hrest.target a ha).mono (List.subset_append_right _ _)

end

mutual

/-- Where every choice has an alternative no dead end can be entered. -/
theorem build_live : ∀ (p : Pattern Nat) (fresh : Nat), p.Choosable →
    Live (build fresh p).1.start (build fresh p).1.stop (build fresh p).1.arcs
  | .leaf a, fresh, _ => live_leaf a fresh
  | .alt [], _, hp => absurd rfl (choosable_alt.1 hp).1
  | .alt (p :: ps), fresh, hp => by
    obtain ⟨hp, hps⟩ := List.forall_mem_cons.1 (choosable_alt.1 hp).2
    rw [build, buildChoice]
    exact live_choice_cons (build_live p _ hp) (buildChoice_live ps _ _ _ hps)
  | .seq ps, fresh, hp => by
    rw [build]
    exact buildRow_live ps fresh (fresh + 1) (choosable_seq.1 hp)
  | .opt p, fresh, hp => by
    rw [build]
    exact live_opt (build_live p fresh (choosable_opt.1 hp))
  | .star p, fresh, hp => by
    rw [build]
    exact live_star (build_live p fresh (choosable_star.1 hp))
  | .plus p, fresh, hp => by
    rw [build]
    exact live_plus (build_live p fresh (choosable_plus.1 hp))

theorem buildChoice_live : ∀ (ps : List (Pattern Nat)) (start stop fresh : Nat),
    (∀ p ∈ ps, p.Choosable) → ∀ a ∈ (buildChoice start stop fresh ps).1,
      Leads (buildChoice start stop fresh ps).1 a.target stop
  | [], _, _, _, _ => by simp [buildChoice]
  | p :: ps, start, stop, fresh, hps => by
    obtain ⟨hp, hps⟩ := List.forall_mem_cons.1 hps
    rw [buildChoice]
    exact (live_choice_cons (build_live p fresh hp) (buildChoice_live ps _ _ _ hps)).target

theorem buildRow_live : ∀ (ps : List (Pattern Nat)) (start fresh : Nat),
    (∀ p ∈ ps, p.Choosable) →
      Live start (buildRow start fresh ps).2.1 (buildRow start fresh ps).1
  | [], start, fresh, _ => by
    rw [buildRow]
    exact ⟨leads_refl _ _, by simp⟩
  | p :: ps, start, fresh, hps => by
    obtain ⟨hp, hps⟩ := List.forall_mem_cons.1 hps
    rw [buildRow]
    exact live_row_cons (build_live p fresh hp) (buildRow_live ps _ _ hps)

end

/-- Arcs read nothing but certain leaves. -/
def Reading (leaves : List Nat) (arcs : List SilentArc) : Prop :=
  ∀ arc ∈ arcs, ∀ a, arc.label? = some a → a ∈ leaves

theorem Reading.join {leaves : List Nat} (h : Reading leaves arcs) (pairs : List (Nat × Nat)) :
    Reading leaves (join pairs arcs) := by
  intro arc harc a ha
  rcases mem_join.1 harc with ⟨p, _, rfl⟩ | harc
  · cases ha
  · exact h arc harc a ha

theorem Reading.append {leaves leaves' : List Nat} (h : Reading leaves arcs)
    (h' : Reading leaves' arcs') : Reading (leaves ++ leaves') (arcs ++ arcs') := by
  intro arc harc a ha
  rcases List.mem_append.1 harc with harc | harc
  · exact List.mem_append_left _ (h arc harc a ha)
  · exact List.mem_append_right _ (h' arc harc a ha)

mutual

theorem build_reading : ∀ (p : Pattern Nat) (fresh : Nat),
    Reading p.leaves (build fresh p).1.arcs
  | .leaf a, fresh => by
    intro arc harc b hb
    rw [build, List.mem_singleton] at harc
    rw [harc] at hb
    rw [leaves, List.mem_singleton]
    exact (Option.some.inj hb).symm
  | .alt ps, fresh => by
    rw [build, leaves]
    exact buildChoice_reading ps _ _ _
  | .seq ps, fresh => by
    rw [build, leaves]
    exact buildRow_reading ps _ _
  | .opt p, fresh => by
    rw [build, leaves]
    exact (build_reading p fresh).join _
  | .star p, fresh => by
    rw [build, leaves]
    exact (build_reading p fresh).join _
  | .plus p, fresh => by
    rw [build, leaves]
    exact (build_reading p fresh).join _

theorem buildChoice_reading : ∀ (ps : List (Pattern Nat)) (start stop fresh : Nat),
    Reading (leavesAll ps) (buildChoice start stop fresh ps).1
  | [], _, _, _ => fun _ harc => absurd harc List.not_mem_nil
  | p :: ps, start, stop, fresh => by
    rw [buildChoice, leavesAll]
    exact ((build_reading p fresh).join _).append (buildChoice_reading ps _ _ _)

theorem buildRow_reading : ∀ (ps : List (Pattern Nat)) (start fresh : Nat),
    Reading (leavesAll ps) (buildRow start fresh ps).1
  | [], _, _ => fun _ harc => absurd harc List.not_mem_nil
  | p :: ps, start, fresh => by
    rw [buildRow, leavesAll]
    exact ((build_reading p fresh).join _).append (buildRow_reading ps _ _)

end

/-- What a path reads its arcs read. -/
theorem Path.mem_of_reading {leaves : List Nat} {w : List Nat} (h : Path arcs q w r)
    (hreading : Reading leaves arcs) : ∀ a ∈ w, a ∈ leaves := by
  induction h with
  | nil => exact fun _ h => absurd h List.not_mem_nil
  | silent _ _ ih => exact ih
  | read harc _ ih => exact List.forall_mem_cons.2 ⟨hreading _ harc _ rfl, ih⟩

end Offside.Nfa
