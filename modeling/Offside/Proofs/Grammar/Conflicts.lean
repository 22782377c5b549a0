import Offside.Proofs.Grammar.Lawful

/-!
Conflicts. A state is contested at a terminal that two of its arcs can consume. Such a state gets no
actions; every other state does, because first sets name no terminal twice and only terminals.
-/

namespace Offside

namespace First

variable {labels : List Label} {dfas : RuleDfas}

/-- The number of a label that is no rule. -/
def IsTerminal (labels : List Label) (l : Nat) : Prop :=
  ∃ label, labels[l]? = some label ∧ label.isTerminal = true

/-- A first set as it ought to be: terminals by rising numbers. -/
structure Proper (labels : List Label) (first : List Nat) : Prop where
  ascending : first.Pairwise (· < ·)
  terminal : ∀ l ∈ first, IsTerminal labels l

theorem proper_nil : Proper labels [] := ⟨List.Pairwise.nil, fun _ h => absurd h List.not_mem_nil⟩

theorem Proper.union {ns ms : List Nat} (hns : Proper labels ns) (hms : Proper labels ms) :
    Proper labels (Ascending.union ns ms) :=
  ⟨Ascending.union_pairwise hms.ascending,
    fun l hl => (Ascending.mem_union.1 hl).elim (hns.terminal l) (hms.terminal l)⟩

theorem Proper.insert {n : Nat} {ms : List Nat} (hn : IsTerminal labels n)
    (hms : Proper labels ms) : Proper labels (Ascending.insert n ms) :=
  ⟨Ascending.insert_pairwise hms.ascending,
    fun l hl => (Ascending.mem_insert.1 hl).elim (fun h => h ▸ hn) (hms.terminal l)⟩

theorem isTerminal_of_not_rule {l : Nat} {label : Label} (hlabel : labels[l]? = some label)
    (hrule : ∀ s, label = .rule s → False) : IsTerminal labels l := by
  refine ⟨label, hlabel, ?_⟩
  cases label with
  | token => rfl
  | keyword => rfl
  | rule s => exact absurd rfl (hrule s)

theorem proper_get_cons {sets : Sets} {s : Symbol} {first : List Nat}
    (hsets : ∀ x, Proper labels (get sets x)) (hfirst : Proper labels first) (x : Symbol) :
    Proper labels (get ((s, first) :: sets) x) := by
  by_cases hx : x = s
  · subst hx
    rw [get, List.lookup_cons_self]
    exact hfirst
  · rw [get, List.lookup_cons, beq_false_of_ne hx]
    exact hsets x

theorem proper_of_add (path : List Symbol) (s : Symbol) {sets sets' : Sets}
    (hsets : ∀ x, Proper labels (get sets x)) (h : add labels dfas path s sets = .ok sets') :
    ∀ x, Proper labels (get sets' x) := by
  rw [add] at h
  split at h
  · cases h
  · next hs =>
    split at h
    · cases h
      exact hsets
    · obtain ⟨⟨sets₁, first⟩, hfold, h⟩ := bind_eq_ok.1 h
      cases h
      obtain ⟨hsets₁, hfirst⟩ := foldlM_induction
        (motive := fun _ (acc : Sets × List Nat) =>
          (∀ x, Proper labels (get acc.1 x)) ∧ Proper labels acc.2)
        hfold ⟨hsets, proper_nil⟩ (by
          rintro _ arc ⟨sets₂, first₂⟩ ⟨sets₃, first₃⟩ _ ⟨hsets₂, hfirst₂⟩ hstep
          dsimp only at hsets₂ hfirst₂ hstep ⊢
          split at hstep
          · next sub _ =>
            obtain ⟨sets₄, hadd, hstep⟩ := bind_eq_ok.1 hstep
            cases hstep
            have : room (s :: path) < room path := room_cons_lt hs
            have hsets₄ := proper_of_add (s :: path) sub hsets₂ hadd
            exact ⟨hsets₄, (hsets₄ sub).union hfirst₂⟩
          · next label hrule hlabel =>
            cases hstep
            exact ⟨hsets₂, .insert (isTerminal_of_not_rule hlabel hrule) hfirst₂⟩
          · cases hstep
            exact ⟨hsets₂, hfirst₂⟩)
      exact proper_get_cons hsets₁ hfirst
termination_by room path

theorem proper_of_compute {sets : Sets} (h : compute labels dfas = .ok sets) (s : Symbol) :
    Proper labels (get sets s) :=
  foldlM_induction (motive := fun _ sets => ∀ x, Proper labels (get sets x)) h
    (fun _ => proper_nil) (fun _ rule _ _ _ hsets hadd => proper_of_add [] rule.1 hsets hadd) s

end First

namespace Grammar

variable {labels : List Label} {firsts : First.Sets} {state : DfaState}

/-- What an arc can consume: its own label, or all that its rule can begin with. -/
def Consumes (labels : List Label) (firsts : First.Sets) (arc : Nat × Nat) (l : Nat) : Prop :=
  match labels[arc.1]? with
  | some (.rule s) => l ∈ First.get firsts s
  | some _ => l = arc.1
  | none => False

/-- Two arcs of a state can consume the same terminal. -/
structure Contested (labels : List Label) (firsts : First.Sets) (state : DfaState) (l : Nat) :
    Prop where
  terminal : First.IsTerminal labels l
  arcs : ∃ arc ∈ state.arcs, ∃ arc' ∈ state.arcs, arc ≠ arc' ∧ Consumes labels firsts arc l ∧
    Consumes labels firsts arc' l

theorem consumes_iff_offers {arc : Nat × Nat} {l : Nat} :
    Consumes labels firsts arc l ↔ ∃ a, Offers labels (First.get firsts) arc l a := by
  have hbegins := @begins_iff_offers labels firsts [arc] l
  simp only [First.Begins, List.mem_singleton, exists_eq_left] at hbegins
  exact hbegins

theorem Consumes.isTerminal (hproper : ∀ s, First.Proper labels (First.get firsts s))
    {arc : Nat × Nat} {l : Nat} (h : Consumes labels firsts arc l) : First.IsTerminal labels l := by
  unfold Consumes at h
  split at h
  · next s _ => exact (hproper s).terminal l h
  · next label hrule hlabel =>
    rw [h]
    exact First.isTerminal_of_not_rule hlabel hrule
  · exact h.elim

/-- An action on a terminal tells the arc that offers it. -/
theorem eq_of_offers (hlabels : labels.Nodup) {first : Symbol → List Nat} {arc arc' : Nat × Nat}
    {l : Nat} {a : Action} (h : Offers labels first arc l a) (h' : Offers labels first arc' l a) :
    arc = arc' := by
  unfold Offers at h h'
  split at h
  · next s hs =>
    split at h'
    · next s' hs' =>
      obtain ⟨rfl, hnext⟩ := Action.push.inj (h.1.symm.trans h'.1)
      have hlt := (List.getElem?_eq_some_iff.1 hs).1
      exact Prod.ext ((List.getElem?_inj hlt hlabels).1 (hs.trans hs'.symm)) hnext
    · cases h.1.symm.trans h'.1
    · exact h'.elim
  · split at h'
    · cases h.1.symm.trans h'.1
    · exact Prod.ext (h.2.symm.trans h'.2) (Action.shift.inj (h.1.symm.trans h'.1))
    · exact h'.elim
  · exact h.elim

theorem mem_keys_of_insertAction {l : Nat} {a : Action} {actions : List (Nat × Action)}
    (h : insertAction l a actions = none) : l ∈ actions.map Prod.fst := by
  induction actions with
  | nil => cases h
  | cons head rest ih =>
    obtain ⟨l', b⟩ := head
    unfold insertAction at h
    split at h
    · cases h
    · split at h
      · next heq =>
        rw [heq]
        exact List.mem_cons_self
      · exact List.mem_cons_of_mem _ (ih (Option.map_eq_none_iff.1 h))

/-- Terminals that are all different are in the way only of actions that were there before. -/
theorem mem_keys_of_insertActions {ls : List Nat} {a : Action} {actions : List (Nat × Action)}
    {l : Nat} (hnodup : ls.Nodup) (hsorted : Sorted actions)
    (h : insertActions a ls actions = .error l) : l ∈ ls ∧ l ∈ actions.map Prod.fst := by
  induction ls generalizing actions with
  | nil => cases h
  | cons label ls ih =>
    obtain ⟨hlabel, hnodup⟩ := List.nodup_cons.1 hnodup
    unfold insertActions at h
    split at h
    · next actions₁ hinsert =>
      obtain ⟨hsorted₁, hmem₁⟩ := insertAction_spec hsorted hinsert
      obtain ⟨hl, hkey⟩ := ih hnodup hsorted₁ h
      refine ⟨List.mem_cons_of_mem _ hl, ?_⟩
      obtain ⟨x, hx, rfl⟩ := List.mem_map.1 hkey
      rcases (hmem₁ x).1 hx with rfl | hx
      · exact absurd hl hlabel
      · exact List.mem_map_of_mem hx
    · next hinsert =>
      cases h
      exact ⟨List.mem_cons_self, mem_keys_of_insertAction hinsert⟩

theorem mem_keys_of_addArc (hproper : ∀ s, First.Proper labels (First.get firsts s))
    {arc : Nat × Nat} {actions : List (Nat × Action)} {l : Nat} (hsorted : Sorted actions)
    (h : addArc labels firsts actions arc = .error l) :
    Consumes labels firsts arc l ∧ l ∈ actions.map Prod.fst := by
  unfold addArc at h
  split at h
  · next s hs =>
    have hnodup := (hproper s).ascending.imp Nat.ne_of_lt
    obtain ⟨hl, hkey⟩ := mem_keys_of_insertActions hnodup hsorted h
    exact ⟨by simpa only [Consumes, hs] using hl, hkey⟩
  · next label hrule hlabel =>
    obtain ⟨hl, hkey⟩ := mem_keys_of_insertActions (List.nodup_singleton _) hsorted h
    refine ⟨?_, hkey⟩
    unfold Consumes
    rw [hlabel]
    cases label with
    | token => exact List.mem_singleton.1 hl
    | keyword => exact List.mem_singleton.1 hl
    | rule s => exact absurd rfl (hrule s)
  · cases h

/-- Where a state gets no actions it is contested. -/
theorem contested_of_tableState (hproper : ∀ s, First.Proper labels (First.get firsts s))
    (harcs : state.arcs.Nodup) {s : Symbol} {e : GrammarError}
    (h : tableState labels firsts s state = .error e) :
    ∃ l, e = .ambiguous s.name (labelText labels l) ∧ Contested labels firsts state l := by
  unfold tableState at h
  split at h
  · cases h
  · next l herror =>
    cases h
    obtain ⟨done, arc, todo, actions, hsplit, hdone, hstep⟩ := exists_of_foldlM_eq_error herror
    obtain ⟨hsorted, hmem⟩ := foldlM_addArc_spec hdone
    obtain ⟨hconsumes, hkey⟩ := mem_keys_of_addArc hproper hsorted hstep
    obtain ⟨⟨l, a⟩, hkept, rfl⟩ := List.mem_map.1 hkey
    obtain ⟨arc', harc', hoffers⟩ := (hmem l a).1 hkept
    have hconsumes' := consumes_iff_offers.2 ⟨a, hoffers⟩
    refine ⟨l, rfl, hconsumes.isTerminal hproper, arc', ?_, arc, ?_, ?_, hconsumes', hconsumes⟩
    · rw [hsplit]
      exact List.mem_append_left _ harc'
    · rw [hsplit]
      exact List.mem_append_right _ List.mem_cons_self
    · rw [hsplit] at harcs
      exact (List.nodup_append.1 harcs).2.2 _ harc' _ List.mem_cons_self

theorem not_contested_of_tableState (hlabels : labels.Nodup) {s : Symbol} {entry : TableState}
    (h : tableState labels firsts s state = .ok entry) (l : Nat) :
    ¬Contested labels firsts state l := by
  rintro ⟨_, arc, harc, arc', harc', hne, hconsumes, hconsumes'⟩
  obtain ⟨_, _, haction⟩ := tableState_spec h
  obtain ⟨a, ha⟩ := consumes_iff_offers.1 hconsumes
  obtain ⟨a', ha'⟩ := consumes_iff_offers.1 hconsumes'
  have hfound := (haction l a).2 ⟨arc, harc, ha⟩
  have hfound' := (haction l a').2 ⟨arc', harc', ha'⟩
  obtain rfl := Option.some.inj (hfound.symm.trans hfound')
  exact hne (eq_of_offers hlabels ha ha')

end Grammar
end Offside
