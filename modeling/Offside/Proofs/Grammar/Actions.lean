import Offside.Grammar
import Offside.Proofs.Lookup
import Offside.Proofs.Outcome

/-!
Actions. The actions of a state are found by going through its arcs; each arc offers some, no two
of them for one label. So an action is looked up exactly if an arc offers it.
-/

namespace Offside.Grammar

/-- Actions in the order of their labels. -/
def Sorted (actions : List (Nat × Action)) : Prop := (actions.map Prod.fst).Pairwise (· < ·)

/-- What an arc lets a state do with a terminal. -/
def Offers (labels : List Label) (first : Symbol → List Nat) (arc : Nat × Nat) (l : Nat)
    (a : Action) : Prop :=
  match labels[arc.1]? with
  | some (.rule s) => a = .push s arc.2 ∧ l ∈ first s
  | some _ => a = .shift arc.2 ∧ l = arc.1
  | none => False

theorem sorted_cons {l : Nat} {a : Action} {actions : List (Nat × Action)} :
    Sorted ((l, a) :: actions) ↔ (∀ x ∈ actions, l < x.1) ∧ Sorted actions := by
  unfold Sorted
  rw [List.map_cons, List.pairwise_cons]
  simp only [List.mem_map, forall_exists_index, and_imp, forall_apply_eq_imp_iff₂]

theorem insertAction_spec {l : Nat} {a : Action} {actions actions' : List (Nat × Action)}
    (hsorted : Sorted actions) (h : insertAction l a actions = some actions') :
    Sorted actions' ∧ ∀ x, x ∈ actions' ↔ x = (l, a) ∨ x ∈ actions := by
  induction actions generalizing actions' with
  | nil =>
    obtain rfl := Option.some.inj h
    exact ⟨List.pairwise_singleton _ _, by simp⟩
  | cons head rest ih =>
    obtain ⟨l', b⟩ := head
    obtain ⟨hlt, hrest⟩ := sorted_cons.1 hsorted
    unfold insertAction at h
    split at h
    · next hlabel =>
      obtain rfl := Option.some.inj h
      refine ⟨sorted_cons.2 ⟨fun x hx => ?_, hsorted⟩, by simp⟩
      rcases List.mem_cons.1 hx with rfl | hx
      · exact hlabel
      · exact Nat.lt_trans hlabel (hlt x hx)
    · split at h
      · simp at h
      · next hge hne =>
        obtain ⟨rest', hrest', rfl⟩ := Option.map_eq_some_iff.1 h
        obtain ⟨hsorted', hmem⟩ := ih hrest hrest'
        refine ⟨sorted_cons.2 ⟨fun x hx => ?_, hsorted'⟩, fun x => ?_⟩
        · rcases (hmem x).1 hx with rfl | hx
          · dsimp only; omega
          · exact hlt x hx
        · rw [List.mem_cons, List.mem_cons, hmem x]
          exact or_left_comm

theorem insertActions_spec {ls : List Nat} {a : Action} {actions actions' : List (Nat × Action)}
    (hsorted : Sorted actions) (h : insertActions a ls actions = .ok actions') :
    Sorted actions' ∧ ∀ l b, (l, b) ∈ actions' ↔ (b = a ∧ l ∈ ls) ∨ (l, b) ∈ actions := by
  induction ls generalizing actions with
  | nil =>
    cases h
    exact ⟨hsorted, by simp⟩
  | cons label ls ih =>
    unfold insertActions at h
    split at h
    · next actions₁ h₁ =>
      obtain ⟨hsorted₁, hmem₁⟩ := insertAction_spec hsorted h₁
      obtain ⟨hsorted', hmem'⟩ := ih hsorted₁ h
      refine ⟨hsorted', fun l b => ?_⟩
      rw [hmem', hmem₁, Prod.mk.injEq, List.mem_cons]
      constructor
      · rintro (⟨rfl, hl⟩ | ⟨rfl, rfl⟩ | hold)
        · exact Or.inl ⟨rfl, Or.inr hl⟩
        · exact Or.inl ⟨rfl, Or.inl rfl⟩
        · exact Or.inr hold
      · rintro (⟨rfl, rfl | hl⟩ | hold)
        · exact Or.inr (Or.inl ⟨rfl, rfl⟩)
        · exact Or.inl ⟨rfl, hl⟩
        · exact Or.inr (Or.inr hold)
    · simp at h

theorem addArc_spec {labels : List Label} {firsts : First.Sets} {arc : Nat × Nat}
    {actions actions' : List (Nat × Action)} (hsorted : Sorted actions)
    (h : addArc labels firsts actions arc = .ok actions') :
    Sorted actions' ∧
      ∀ l b, (l, b) ∈ actions' ↔ Offers labels (First.get firsts) arc l b ∨ (l, b) ∈ actions := by
  unfold addArc at h
  split at h
  · next s hs =>
    obtain ⟨hsorted', hmem⟩ := insertActions_spec hsorted h
    refine ⟨hsorted', fun l b => ?_⟩
    simp only [hmem l b, Offers, hs]
  · next lab hrule hlab =>
    obtain ⟨hsorted', hmem⟩ := insertActions_spec hsorted h
    refine ⟨hsorted', fun l b => ?_⟩
    rw [hmem l b, List.mem_singleton, Offers, hlab]
    cases lab with
    | token => exact Iff.rfl
    | keyword => exact Iff.rfl
    | rule s => exact absurd rfl (hrule s)
  · next hnone =>
    cases h
    refine ⟨hsorted, fun l b => ?_⟩
    simp only [Offers, hnone, false_or]

theorem lookup_iff_mem {actions : List (Nat × Action)} (hsorted : Sorted actions) {l : Nat}
    {a : Action} : actions.lookup l = some a ↔ (l, a) ∈ actions :=
  ⟨mem_of_lookup, lookup_of_mem (hsorted.imp Nat.ne_of_lt)⟩

/-- The actions of several arcs are those that they offer. -/
theorem foldlM_addArc_spec {labels : List Label} {firsts : First.Sets} {arcs : List (Nat × Nat)}
    {actions : List (Nat × Action)} (h : arcs.foldlM (addArc labels firsts) [] = .ok actions) :
    Sorted actions ∧
      ∀ l a, (l, a) ∈ actions ↔ ∃ arc ∈ arcs, Offers labels (First.get firsts) arc l a := by
  refine foldlM_induction
    (motive := fun done acts => Sorted acts ∧
      ∀ l a, (l, a) ∈ acts ↔ ∃ arc ∈ done, Offers labels (First.get firsts) arc l a)
    h ⟨List.Pairwise.nil, by simp⟩ ?_
  rintro done arc acts acts' _ ⟨hsorted, hmem⟩ hstep
  obtain ⟨hsorted', hmem'⟩ := addArc_spec hsorted hstep
  refine ⟨hsorted', fun l a => ?_⟩
  rw [hmem', hmem]
  constructor
  · rintro (hoffer | ⟨arc', harc', hoffer⟩)
    · exact ⟨arc, List.mem_append_right _ (List.mem_singleton_self arc), hoffer⟩
    · exact ⟨arc', List.mem_append_left _ harc', hoffer⟩
  · rintro ⟨arc', harc', hoffer⟩
    rcases List.mem_append.1 harc' with harc' | harc'
    · exact Or.inr ⟨arc', harc', hoffer⟩
    · rw [List.mem_singleton.1 harc'] at hoffer
      exact Or.inl hoffer

/-- A state of a table has the arcs of its automaton, and the actions that they offer. -/
theorem tableState_spec {labels : List Label} {firsts : First.Sets} {s : Symbol}
    {state : DfaState} {entry : TableState} (h : tableState labels firsts s state = .ok entry) :
    entry.accepting = state.accepting ∧ entry.arcs = state.arcs ∧
      ∀ l a, entry.action? l = some a ↔
        ∃ arc ∈ state.arcs, Offers labels (First.get firsts) arc l a := by
  unfold tableState at h
  split at h
  · next actions hactions =>
    cases h
    obtain ⟨hsorted, hmem⟩ := foldlM_addArc_spec hactions
    refine ⟨rfl, rfl, fun l a => ?_⟩
    rw [TableState.action?, lookup_iff_mem hsorted, hmem]
  · simp at h

end Offside.Grammar
