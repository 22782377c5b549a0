import Offside.Proofs.Nfa.Path

/-!
Closures. A search that follows every silent arc once gives all states that silent arcs lead to,
so a set of states knows what its members can read: it reads a word as its moves do.
-/

namespace Offside.Nfa

theorem mem_silentTargets {m : Nfa} {q r : Nat} :
    r ∈ m.silentTargets q ↔ ⟨q, none, r⟩ ∈ m.arcs := by
  simp only [silentTargets, List.mem_filterMap, Option.ite_none_right_eq_some, Option.some.injEq]
  constructor
  · rintro ⟨⟨q', l?, r'⟩, ha, ⟨rfl, rfl⟩, rfl⟩
    exact ha
  · intro h
    exact ⟨_, h, ⟨rfl, rfl⟩, rfl⟩

/-- The arcs out of states that a search has not met. -/
def unmet (m : Nfa) (seen : List Nat) : Nat := (m.arcs.filter fun a => a.source ∉ seen).length

/-- Meeting a state uses up at least the silent arcs out of it. -/
theorem length_silentTargets_add_unmet_le (m : Nfa) {q : Nat} {seen : List Nat} (hq : q ∉ seen) :
    (m.silentTargets q).length + m.unmet (q :: seen) ≤ m.unmet seen := by
  unfold silentTargets unmet
  simp only [List.mem_cons, not_or]
  induction m.arcs with
  | nil => simp
  | cons a arcs ih =>
    by_cases hs : a.source = q
    · have hfresh : a.source ∉ seen := hs ▸ hq
      by_cases hl : a.label? = none
      · simp only [List.filterMap_cons, List.filter_cons, hs, hl, hq, and_self, if_true,
          not_true, false_and, decide_false, Bool.false_eq_true, if_false,
          not_false_eq_true, decide_true, List.length_cons]
        omega
      · simp only [List.filterMap_cons, List.filter_cons, hs, hl, hq, and_false, if_false,
          not_true, false_and, decide_false, Bool.false_eq_true,
          not_false_eq_true, decide_true, if_true, List.length_cons]
        omega
    · by_cases hm : a.source ∈ seen
      · simpa only [List.filterMap_cons, List.filter_cons, hs, hm, false_and, if_false,
          not_true, and_false, decide_false, Bool.false_eq_true] using ih
      · simp only [List.filterMap_cons, List.filter_cons, hs, hm, false_and, if_false,
          and_self, not_false_eq_true, decide_true, if_true, List.length_cons]
        omega

/-- With enough fuel for the arcs and the work that are left, a search loses nothing that it has
and follows every silent arc. -/
theorem reach_closed (m : Nfa) {fuel : Nat} {work seen : List Nat}
    (hfuel : work.length + m.unmet seen ≤ fuel)
    (hseen : ∀ q ∈ seen, ∀ r, ⟨q, none, r⟩ ∈ m.arcs → r ∈ seen ∨ r ∈ work) :
    (∀ q, q ∈ seen ∨ q ∈ work → q ∈ m.reach fuel work seen) ∧
      ∀ q ∈ m.reach fuel work seen, ∀ r, ⟨q, none, r⟩ ∈ m.arcs → r ∈ m.reach fuel work seen := by
  fun_induction reach m fuel work seen with
  | case1 work seen =>
    obtain rfl : work = [] := List.length_eq_zero_iff.1 (by omega)
    simpa using hseen
  | case2 _ seen => simpa using hseen
  | case3 seen fuel q work hq ih =>
    obtain ⟨hkeep, hclosed⟩ := ih (by simp only [List.length_cons] at hfuel; omega)
      (fun x hx r hr => by
        rcases hseen x hx r hr with h | h
        · exact Or.inl h
        · rcases List.mem_cons.1 h with rfl | h
          · exact Or.inl hq
          · exact Or.inr h)
    refine ⟨fun x hx => hkeep x ?_, hclosed⟩
    rcases hx with hx | hx
    · exact Or.inl hx
    · rcases List.mem_cons.1 hx with rfl | hx
      · exact Or.inl hq
      · exact Or.inr hx
  | case4 seen fuel q work hq ih =>
    have hle := length_silentTargets_add_unmet_le m hq
    obtain ⟨hkeep, hclosed⟩ := ih
      (by simp only [List.length_append, List.length_cons] at hfuel ⊢; omega)
      (fun x hx r hr => by
        rcases List.mem_cons.1 hx with rfl | hx
        · exact Or.inr (List.mem_append_left _ (mem_silentTargets.2 hr))
        · rcases hseen x hx r hr with h | h
          · exact Or.inl (List.mem_cons_of_mem _ h)
          · rcases List.mem_cons.1 h with rfl | h
            · exact Or.inl List.mem_cons_self
            · exact Or.inr (List.mem_append_right _ h))
    refine ⟨fun x hx => hkeep x ?_, hclosed⟩
    rcases hx with hx | hx
    · exact Or.inl (List.mem_cons_of_mem _ hx)
    · rcases List.mem_cons.1 hx with rfl | hx
      · exact Or.inl List.mem_cons_self
      · exact Or.inr (List.mem_append_right _ hx)

/-- A search meets nothing but what silent arcs lead to. -/
theorem reach_sound (m : Nfa) {fuel : Nat} {work seen from_ : List Nat}
    (hseen : ∀ q ∈ seen, ∃ s ∈ from_, Path m.arcs s [] q)
    (hwork : ∀ q ∈ work, ∃ s ∈ from_, Path m.arcs s [] q) :
    ∀ q ∈ m.reach fuel work seen, ∃ s ∈ from_, Path m.arcs s [] q := by
  fun_induction reach m fuel work seen with
  | case1 => exact hseen
  | case2 => exact hseen
  | case3 _ _ _ _ _ ih => exact ih hseen fun q hq => hwork q (List.mem_cons_of_mem _ hq)
  | case4 fuel q work seen hq ih =>
    have hq' := hwork q List.mem_cons_self
    refine ih (fun x hx => ?_) fun x hx => ?_
    · rcases List.mem_cons.1 hx with rfl | hx
      · exact hq'
      · exact hseen x hx
    · rcases List.mem_append.1 hx with hx | hx
      · obtain ⟨s, hs, hp⟩ := hq'
        exact ⟨s, hs, hp.append (.silent (mem_silentTargets.1 hx) (.nil x))⟩
      · exact hwork x (List.mem_cons_of_mem _ hx)

theorem Path.mem_of_closed {m : Nfa} {qs : List Nat} {q r : Nat} {w : List Nat}
    (h : Path m.arcs q w r) (hw : w = []) (hq : q ∈ qs)
    (hclosed : ∀ q ∈ qs, ∀ r, ⟨q, none, r⟩ ∈ m.arcs → r ∈ qs) : r ∈ qs := by
  induction h with
  | nil => exact hq
  | silent harc _ ih => exact ih hw (hclosed _ hq _ harc)
  | read => simp at hw

/-- The closure of a set holds what silent arcs lead to from its members. -/
theorem mem_closure {m : Nfa} {qs : List Nat} {r : Nat} :
    r ∈ m.closure qs ↔ ∃ q ∈ qs, Path m.arcs q [] r := by
  have hunmet : m.unmet [] = m.arcs.length := by simp [unmet]
  have hfuel : qs.length + m.unmet [] ≤ m.arcs.length + qs.length + 1 := by omega
  obtain ⟨hkeep, hclosed⟩ := reach_closed m hfuel fun _ h => absurd h List.not_mem_nil
  rw [closure, Ascending.mem_ofList]
  constructor
  · exact fun h => reach_sound m (fun _ h => absurd h List.not_mem_nil)
      (fun q hq => ⟨q, hq, .nil q⟩) r h
  · rintro ⟨q, hq, hp⟩
    exact hp.mem_of_closed rfl (hkeep q (Or.inr hq)) hclosed

/-- A set of states that silent arcs do not leave. -/
def Closed (m : Nfa) (qs : List Nat) : Prop := ∀ q ∈ qs, ∀ r, ⟨q, none, r⟩ ∈ m.arcs → r ∈ qs

theorem closure_closed (m : Nfa) (qs : List Nat) : m.Closed (m.closure qs) := by
  intro q hq r harc
  obtain ⟨s, hs, hp⟩ := mem_closure.1 hq
  exact mem_closure.2 ⟨s, hs, hp.append (.silent harc (.nil r))⟩

theorem mem_move {m : Nfa} {qs : List Nat} {a r : Nat} :
    r ∈ m.move qs a ↔ ∃ q ∈ qs, ∃ s, ⟨q, some a, s⟩ ∈ m.arcs ∧ Path m.arcs s [] r := by
  simp only [move, mem_closure, List.mem_filterMap, Option.ite_none_right_eq_some,
    Option.some.injEq]
  constructor
  · rintro ⟨s, ⟨⟨q, l?, t⟩, harc, ⟨hq, rfl⟩, rfl⟩, hp⟩
    exact ⟨q, hq, t, harc, hp⟩
  · rintro ⟨q, hq, s, harc, hp⟩
    exact ⟨s, ⟨_, harc, ⟨hq, rfl⟩, rfl⟩, hp⟩

theorem mem_labelsFrom {m : Nfa} {qs : List Nat} {a : Nat} :
    a ∈ m.labelsFrom qs ↔ ∃ q ∈ qs, ∃ s, ⟨q, some a, s⟩ ∈ m.arcs := by
  simp only [labelsFrom, Ascending.mem_ofList, List.mem_filterMap, Option.ite_none_right_eq_some]
  constructor
  · rintro ⟨⟨q, l?, t⟩, harc, hq, rfl⟩
    exact ⟨q, hq, t, harc⟩
  · rintro ⟨q, hq, s, harc⟩
    exact ⟨_, harc, hq, rfl⟩

/-- Reading a label from a closed set and going on is to move and go on. -/
theorem exists_path_cons_iff {m : Nfa} {qs : List Nat} {a r : Nat} {w : List Nat}
    (hclosed : m.Closed qs) :
    (∃ q ∈ qs, Path m.arcs q (a :: w) r) ↔ ∃ q ∈ m.move qs a, Path m.arcs q w r := by
  constructor
  · rintro ⟨q, hq, hp⟩
    generalize hv : a :: w = v at hp
    induction hp with
    | nil => simp at hv
    | silent harc _ ih => exact ih (hclosed _ hq _ harc) hv
    | @read q s _ b _ harc rest _ =>
      obtain ⟨rfl, rfl⟩ := List.cons.inj hv
      exact ⟨s, mem_move.2 ⟨q, hq, s, harc, .nil s⟩, rest⟩
  · rintro ⟨r', hr', hp⟩
    obtain ⟨q, hq, s, harc, hs⟩ := mem_move.1 hr'
    exact ⟨q, hq, .read harc (hs.append hp)⟩

/-- A label on which no member of a set can be left leads nowhere. -/
theorem not_path_of_not_mem_labelsFrom {m : Nfa} {qs : List Nat} {a q r : Nat} {w : List Nat}
    (hclosed : m.Closed qs) (hq : q ∈ qs) (ha : a ∉ m.labelsFrom qs) :
    ¬Path m.arcs q (a :: w) r := by
  intro hp
  obtain ⟨p, hp', _⟩ := (exists_path_cons_iff hclosed).1 ⟨q, hq, hp⟩
  obtain ⟨q', hq', s, harc, _⟩ := mem_move.1 hp'
  exact ha (mem_labelsFrom.2 ⟨q', hq', s, harc⟩)

end Offside.Nfa
