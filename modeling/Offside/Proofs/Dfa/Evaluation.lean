import Offside.Grammar.Dfa

/-!
Automata by recursors and tests of numbers. The kernel takes far fewer steps for these than for
decidable propositions, and it keeps what it finds in every step. So the automata of a whole
grammar are evaluated in this form, which is proved to be the same.
-/

namespace Offside.Evaluation

noncomputable section

def has (q : Nat) (qs : List Nat) : Bool :=
  List.rec false (fun a _ found => Bool.rec found true (Nat.beq a q)) qs

def silentOnto (q : Nat) (work : List Nat) (arcs : List SilentArc) : List Nat :=
  List.rec work (fun a _ more =>
    Option.rec (Bool.rec more (a.target :: more) (Nat.beq a.source q)) (fun _ => more) a.label?)
    arcs

def reach (m : Nfa) (fuel : Nat) : List Nat → List Nat → List Nat :=
  Nat.rec (fun _ seen => seen) (fun _ go work seen =>
    List.rec seen (fun q work _ =>
      Bool.rec (go (silentOnto q work m.arcs) (q :: seen)) (go work seen) (has q seen)) work) fuel

def closure (m : Nfa) (qs : List Nat) : List Nat :=
  Ascending.ofList (reach m (m.arcs.length + qs.length + 1) qs [])

def labelsOf (qs : List Nat) (arcs : List SilentArc) : List Nat :=
  List.rec [] (fun a _ more =>
    Option.rec more (fun l => Bool.rec more (l :: more) (has a.source qs)) a.label?) arcs

def targets (qs : List Nat) (label : Nat) (arcs : List SilentArc) : List Nat :=
  List.rec [] (fun a _ more =>
    Option.rec more (fun l =>
      Bool.rec more (Bool.rec more (a.target :: more) (has a.source qs)) (Nat.beq l label))
      a.label?) arcs

def arcsOf (m : Nfa) (qs : List Nat) :
    List Nat → List (List Nat) → List (Nat × Nat) × List (List Nat)
  | [], known => ([], known)
  | label :: labels, known =>
    let target := closure m (targets qs label m.arcs)
    match known.idxOf? target with
    | some i =>
      let (arcs, known) := arcsOf m qs labels known
      ((label, i) :: arcs, known)
    | none =>
      let (arcs, known') := arcsOf m qs labels (known ++ [target])
      ((label, known.length) :: arcs, known')

def explore (m : Nfa) : Nat → Nat → List (List Nat) → List DfaState
  | 0, _, _ => []
  | fuel + 1, i, known =>
    match known[i]? with
    | none => []
    | some qs =>
      let (arcs, known) := arcsOf m qs (Ascending.ofList (labelsOf qs m.arcs)) known
      ⟨has m.stop qs, arcs⟩ :: explore m fuel (i + 1) known

def ofPattern (p : Pattern Nat) : List DfaState :=
  let m := Nfa.ofPattern p
  Dfa.simplify (explore m (1 <<< Dfa.stateCount m) 0 [closure m [m.start]])

end

/-! ### The same automata -/

theorem beq_eq (a b : Nat) : Nat.beq a b = decide (a = b) := by
  cases h : Nat.beq a b with
  | true => simp [Nat.eq_of_beq_eq_true h]
  | false => simp [Nat.ne_of_beq_eq_false h]

theorem has_eq (q : Nat) (qs : List Nat) : has q qs = decide (q ∈ qs) := by
  induction qs with
  | nil => rfl
  | cons a qs ih =>
    have hstep : has q (a :: qs) = Bool.rec (has q qs) true (Nat.beq a q) := rfl
    rw [hstep, ih, beq_eq]
    by_cases h : a = q
    · simp [h]
    · simp [h, Ne.symm h]

theorem silentOnto_eq (q : Nat) (work : List Nat) (arcs : List SilentArc) :
    silentOnto q work arcs = (arcs.filterMap fun a =>
      if a.source = q ∧ a.label? = none then some a.target else none) ++ work := by
  induction arcs with
  | nil => rfl
  | cons a arcs ih =>
    obtain ⟨source, _ | l, target⟩ := a
    · have hstep : silentOnto q work (⟨source, none, target⟩ :: arcs) =
        Bool.rec (silentOnto q work arcs) (target :: silentOnto q work arcs)
          (Nat.beq source q) := rfl
      rw [hstep, ih, beq_eq]
      by_cases h : source = q <;> simp [h]
    · have hstep : silentOnto q work (⟨source, some l, target⟩ :: arcs) =
        silentOnto q work arcs := rfl
      rw [hstep, ih]
      simp

theorem reach_eq (m : Nfa) (fuel : Nat) (work seen : List Nat) :
    reach m fuel work seen = m.reach fuel work seen := by
  induction fuel generalizing work seen with
  | zero => rfl
  | succ fuel ih =>
    cases work with
    | nil => rfl
    | cons q work =>
      have hstep : reach m (fuel + 1) (q :: work) seen =
        Bool.rec (reach m fuel (silentOnto q work m.arcs) (q :: seen)) (reach m fuel work seen)
          (has q seen) := rfl
      rw [hstep, ih, ih, has_eq, silentOnto_eq, Nfa.reach]
      by_cases h : q ∈ seen <;> simp [h, Nfa.silentTargets]

theorem closure_eq (m : Nfa) (qs : List Nat) : closure m qs = m.closure qs := by
  rw [closure, reach_eq, Nfa.closure]

theorem labelsOf_eq (qs : List Nat) (arcs : List SilentArc) :
    labelsOf qs arcs = arcs.filterMap fun a => if a.source ∈ qs then a.label? else none := by
  induction arcs with
  | nil => rfl
  | cons a arcs ih =>
    obtain ⟨source, _ | l, target⟩ := a
    · have hstep : labelsOf qs (⟨source, none, target⟩ :: arcs) = labelsOf qs arcs := rfl
      rw [hstep, ih]
      simp
    · have hstep : labelsOf qs (⟨source, some l, target⟩ :: arcs) =
        Bool.rec (labelsOf qs arcs) (l :: labelsOf qs arcs) (has source qs) := rfl
      rw [hstep, ih, has_eq]
      by_cases h : source ∈ qs <;> simp [h]

theorem targets_eq (qs : List Nat) (label : Nat) (arcs : List SilentArc) :
    targets qs label arcs = arcs.filterMap fun a =>
      if a.source ∈ qs ∧ a.label? = some label then some a.target else none := by
  induction arcs with
  | nil => rfl
  | cons a arcs ih =>
    obtain ⟨source, _ | l, target⟩ := a
    · have hstep : targets qs label (⟨source, none, target⟩ :: arcs) =
        targets qs label arcs := rfl
      rw [hstep, ih]
      simp
    · have hstep : targets qs label (⟨source, some l, target⟩ :: arcs) =
        Bool.rec (targets qs label arcs)
          (Bool.rec (targets qs label arcs) (target :: targets qs label arcs) (has source qs))
          (Nat.beq l label) := rfl
      rw [hstep, ih, has_eq, beq_eq]
      by_cases h : source ∈ qs <;> by_cases hl : l = label <;> simp [h, hl]

theorem arcsOf_eq (m : Nfa) (qs labels : List Nat) (known : List (List Nat)) :
    arcsOf m qs labels known = Dfa.arcsOf m qs labels known := by
  induction labels generalizing known with
  | nil => rfl
  | cons label labels ih =>
    have hmove : closure m (targets qs label m.arcs) = m.move qs label := by
      rw [closure_eq, targets_eq, Nfa.move]
    rw [arcsOf, Dfa.arcsOf]
    dsimp only
    rw [hmove]
    cases known.idxOf? (m.move qs label) <;> simp only [ih]

theorem explore_eq (m : Nfa) (fuel i : Nat) (known : List (List Nat)) :
    explore m fuel i known = Dfa.explore m fuel i known := by
  induction fuel generalizing i known with
  | zero => rfl
  | succ fuel ih =>
    rw [explore, Dfa.explore]
    cases known[i]? with
    | none => rfl
    | some qs =>
      simp only [arcsOf_eq, ih, labelsOf_eq, has_eq, Nfa.labelsFrom, List.contains_eq_mem]

/-- A pattern has the same automaton. -/
theorem ofPattern_eq (p : Pattern Nat) : ofPattern p = Dfa.ofPattern p := by
  simp only [ofPattern, Dfa.ofPattern, Dfa.ofNfa, explore_eq, closure_eq]

end Offside.Evaluation
