import Offside.Grammar.First
import Offside.Proofs.Lookup
import Offside.Proofs.Outcome
import Mathlib.Data.List.Perm.Subperm

/-!
First sets. The search adds the set of a rule after those of all rules that it can begin with, so
sets that are found satisfy the equations of first sets, and the order in which they were found
is one along which no rule begins with itself.
-/

namespace Offside.First

theorem mem_keys_of_startArcs {dfas : RuleDfas} {s : Symbol} {arc : Nat × Nat}
    (h : arc ∈ startArcs dfas s) : s ∈ dfas.map Prod.fst := by
  unfold startArcs at h
  split at h
  · next hlookup => exact List.mem_map_of_mem (mem_of_lookup hlookup)
  · cases h

/-- A terminal that one of some arcs can begin with, when sets are as found. -/
def Begins (labels : List Label) (sets : Sets) (arcs : List (Nat × Nat)) (l : Nat) : Prop :=
  ∃ arc ∈ arcs, match labels[arc.1]? with
    | some (.rule s) => l ∈ get sets s
    | some _ => l = arc.1
    | none => False

/-- Rules that one of some arcs begins with have their sets. -/
def Ready (labels : List Label) (sets : Sets) (arcs : List (Nat × Nat)) : Prop :=
  ∀ arc ∈ arcs, ∀ s, labels[arc.1]? = some (.rule s) → (sets.lookup s).isSome

/-- Sets in an order in which they can be found, the last one first. -/
inductive Computed (labels : List Label) (dfas : RuleDfas) : Sets → Prop
  | nil : Computed labels dfas []
  | cons {sets : Sets} {s : Symbol} {first : List Nat} (hrest : Computed labels dfas sets)
      (hnew : sets.lookup s = none) (hready : Ready labels sets (startArcs dfas s))
      (hfirst : ∀ l, l ∈ first ↔ Begins labels sets (startArcs dfas s) l) :
      Computed labels dfas ((s, first) :: sets)

/-- Sets that are found stay as they are. -/
def Extends (sets sets' : Sets) : Prop := ∀ s first, sets.lookup s = some first →
  sets'.lookup s = some first

theorem Extends.refl (sets : Sets) : Extends sets sets := fun _ _ h => h

theorem Extends.trans {sets sets' sets'' : Sets} (h : Extends sets sets')
    (h' : Extends sets' sets'') : Extends sets sets'' := fun s first hs => h' s first (h s first hs)

theorem Extends.isSome {sets sets' : Sets} (h : Extends sets sets') {s : Symbol}
    (hs : (sets.lookup s).isSome) : (sets'.lookup s).isSome := by
  obtain ⟨first, hfirst⟩ := Option.isSome_iff_exists.1 hs
  rw [h s first hfirst]
  rfl

theorem Extends.get_eq {sets sets' : Sets} (h : Extends sets sets') {s : Symbol}
    (hs : (sets.lookup s).isSome) : get sets' s = get sets s := by
  obtain ⟨first, hfirst⟩ := Option.isSome_iff_exists.1 hs
  rw [get, get, h s first hfirst, hfirst]

theorem extends_cons {sets : Sets} {s : Symbol} {first : List Nat} (hnew : sets.lookup s = none) :
    Extends sets ((s, first) :: sets) := by
  intro x first' hx
  have hne : x ≠ s := by
    rintro rfl
    rw [hnew] at hx
    cases hx
  rw [List.lookup_cons, beq_false_of_ne hne]
  exact hx

theorem Ready.mono {labels : List Label} {sets sets' : Sets} {arcs : List (Nat × Nat)}
    (h : Ready labels sets arcs) (hsub : Extends sets sets') : Ready labels sets' arcs :=
  fun arc harc s hs => hsub.isSome (h arc harc s hs)

theorem begins_congr {labels : List Label} {sets sets' : Sets} {arcs : List (Nat × Nat)}
    (hready : Ready labels sets arcs) (hsub : Extends sets sets') (l : Nat) :
    Begins labels sets' arcs l ↔ Begins labels sets arcs l := by
  refine exists_congr fun arc => and_congr_right fun harc => ?_
  cases hlab : labels[arc.1]? with
  | none => rfl
  | some lab =>
    cases lab with
    | token => rfl
    | keyword => rfl
    | rule s => simp only [hsub.get_eq (hready arc harc s hlab)]

theorem begins_concat {labels : List Label} {sets : Sets} {arcs : List (Nat × Nat)}
    {arc : Nat × Nat} {l : Nat} :
    Begins labels sets (arcs ++ [arc]) l ↔
      Begins labels sets arcs l ∨ Begins labels sets [arc] l := by
  unfold Begins
  simp only [List.mem_append, or_and_right, exists_or]

/-- What a search for the set of one rule does to the sets found before it. -/
structure Added (labels : List Label) (dfas : RuleDfas) (path : List Symbol) (sets sets' : Sets) :
    Prop where
  computed : Computed labels dfas sets'
  extends_ : Extends sets sets'
  /-- the rules that are under way stay without a set -/
  path : ∀ x ∈ path, sets.lookup x = none → sets'.lookup x = none

theorem add_spec (labels : List Label) (dfas : RuleDfas) (path : List Symbol) (s : Symbol)
    {sets sets' : Sets} (hsets : Computed labels dfas sets)
    (h : add labels dfas path s sets = .ok sets') :
    Added labels dfas path sets sets' ∧ (sets'.lookup s).isSome := by
  rw [add] at h
  split at h
  · cases h
  · next hs =>
    split at h
    · next hsome =>
      cases h
      exact ⟨⟨hsets, Extends.refl _, fun _ _ h => h⟩, hsome⟩
    · next hnone =>
      obtain ⟨⟨sets₁, first⟩, hfold, h⟩ := bind_eq_ok.1 h
      cases h
      have hnew : sets.lookup s = none := Option.not_isSome_iff_eq_none.1 hnone
      obtain ⟨hadded, hready, hfirst⟩ := foldlM_induction
        (motive := fun done (acc : Sets × List Nat) => Added labels dfas (s :: path) sets acc.1 ∧
          Ready labels acc.1 done ∧ ∀ l, l ∈ acc.2 ↔ Begins labels acc.1 done l)
        hfold ⟨⟨hsets, Extends.refl _, fun _ _ h => h⟩, by simp [Ready], by simp [Begins]⟩ (by
          rintro done arc ⟨sets₁, first⟩ ⟨sets₂, first'⟩ _ ⟨hadded, hready, hfirst⟩ hstep
          dsimp only at hadded hready hfirst hstep ⊢
          split at hstep
          · next sub hsub =>
            obtain ⟨sets₃, hsets₃, hstep⟩ := bind_eq_ok.1 hstep
            cases hstep
            have : room (s :: path) < room path := room_cons_lt hs
            obtain ⟨hmore, hsome⟩ := add_spec labels dfas (s :: path) sub hadded.computed hsets₃
            refine ⟨⟨hmore.computed, hadded.extends_.trans hmore.extends_,
              fun x hx hxs => hmore.path x hx (hadded.path x hx hxs)⟩, ?_, fun l => ?_⟩
            · intro a ha x hx
              rcases List.mem_append.1 ha with ha | ha
              · exact hready.mono hmore.extends_ a ha x hx
              · obtain rfl := List.mem_singleton.1 ha
                obtain rfl : sub = x := by simpa [hsub] using hx
                exact hsome
            · rw [Ascending.mem_union, begins_concat, begins_congr hready hmore.extends_, hfirst]
              have harc : Begins labels sets₂ [arc] l ↔ l ∈ get sets₂ sub := by
                simp [Begins, hsub]
              rw [harc]
              exact or_comm
          · next lab hrule hlab =>
            cases hstep
            refine ⟨hadded, ?_, fun l => ?_⟩
            · intro a ha x hx
              rcases List.mem_append.1 ha with ha | ha
              · exact hready a ha x hx
              · obtain rfl := List.mem_singleton.1 ha
                rw [hlab] at hx
                exact absurd (Option.some.inj hx) (hrule x)
            · have harc : Begins labels sets₁ [arc] l ↔ l = arc.1 := by
                cases lab with
                | token => simp [Begins, hlab]
                | keyword => simp [Begins, hlab]
                | rule x => exact absurd rfl (hrule x)
              rw [Ascending.mem_insert, begins_concat, hfirst, harc]
              exact or_comm
          · next hnone =>
            cases hstep
            refine ⟨hadded, ?_, fun l => ?_⟩
            · intro a ha x hx
              rcases List.mem_append.1 ha with ha | ha
              · exact hready a ha x hx
              · obtain rfl := List.mem_singleton.1 ha
                rw [hnone] at hx
                cases hx
            · have harc : ¬Begins labels sets₁ [arc] l := by simp [Begins, hnone]
              rw [begins_concat, hfirst]
              exact (or_iff_left harc).symm)
      have hnew' := hadded.path s List.mem_cons_self hnew
      refine ⟨⟨.cons hadded.computed hnew' hready hfirst,
        hadded.extends_.trans (extends_cons hnew'), fun x hx hxs => ?_⟩, by simp⟩
      have hne : x ≠ s := by
        rintro rfl
        exact hs hx
      rw [List.lookup_cons, beq_false_of_ne hne]
      exact hadded.path x (List.mem_cons_of_mem _ hx) hxs
termination_by room path

/-- All rules get their first sets. -/
theorem compute_spec {labels : List Label} {dfas : RuleDfas} {sets : Sets}
    (h : compute labels dfas = .ok sets) :
    Computed labels dfas sets ∧ ∀ rule ∈ dfas, (sets.lookup rule.1).isSome := by
  refine foldlM_induction (motive := fun done sets =>
    Computed labels dfas sets ∧ ∀ rule ∈ done, (sets.lookup rule.1).isSome) h
    ⟨.nil, fun _ h => absurd h List.not_mem_nil⟩ ?_
  rintro done rule sets₁ sets₂ _ ⟨hcomputed, hdone⟩ hstep
  obtain ⟨hadded, hsome⟩ := add_spec labels dfas [] rule.1 hcomputed hstep
  refine ⟨hadded.computed, fun r hr => ?_⟩
  rcases List.mem_append.1 hr with hr | hr
  · exact hadded.extends_.isSome (hdone r hr)
  · rw [List.mem_singleton.1 hr]
    exact hsome

theorem Computed.ready {labels : List Label} {dfas : RuleDfas} {sets : Sets}
    (h : Computed labels dfas sets) {s : Symbol} (hs : (sets.lookup s).isSome) :
    Ready labels sets (startArcs dfas s) := by
  induction h with
  | nil => cases hs
  | @cons sets x first hrest hnew hready hfirst ih =>
    by_cases hsx : s = x
    · subst hsx
      exact hready.mono (extends_cons hnew)
    · rw [List.lookup_cons, beq_false_of_ne hsx] at hs
      exact (ih hs).mono (extends_cons hnew)

/-- A first set holds what the arcs of the start can begin with. -/
theorem Computed.mem_get_iff {labels : List Label} {dfas : RuleDfas} {sets : Sets}
    (h : Computed labels dfas sets) {s : Symbol} (hs : (sets.lookup s).isSome) (l : Nat) :
    l ∈ get sets s ↔ Begins labels sets (startArcs dfas s) l := by
  induction h with
  | nil => cases hs
  | @cons sets x first hrest hnew hready hfirst ih =>
    by_cases hsx : s = x
    · subst hsx
      rw [begins_congr hready (extends_cons hnew), get, List.lookup_cons_self]
      exact hfirst l
    · rw [List.lookup_cons, beq_false_of_ne hsx] at hs
      rw [begins_congr (hrest.ready hs) (extends_cons hnew), ← ih hs,
        (extends_cons hnew).get_eq hs]

/-- How many sets were found before that of a rule. -/
def rank : Sets → Symbol → Nat
  | [], _ => 0
  | (x, _) :: sets, s => if s = x then sets.length else rank sets s

theorem rank_lt_length {sets : Sets} {s : Symbol} (hs : (sets.lookup s).isSome) :
    rank sets s < sets.length := by
  induction sets with
  | nil => cases hs
  | cons head sets ih =>
    obtain ⟨x, first⟩ := head
    unfold rank
    split
    · exact Nat.lt_succ_self _
    · next hsx =>
      rw [List.lookup_cons, beq_false_of_ne hsx] at hs
      exact Nat.lt_succ_of_lt (ih hs)

theorem rank_eq_zero {sets : Sets} {s : Symbol} (hs : ¬(sets.lookup s).isSome) :
    rank sets s = 0 := by
  induction sets with
  | nil => rfl
  | cons head sets ih =>
    obtain ⟨x, first⟩ := head
    unfold rank
    split
    · next hsx =>
      rw [hsx, List.lookup_cons_self] at hs
      exact absurd rfl hs
    · next hsx =>
      rw [List.lookup_cons, beq_false_of_ne hsx] at hs
      exact ih hs

/-- A rule has a higher rank than those that it can begin with. -/
theorem Computed.rank_lt {labels : List Label} {dfas : RuleDfas} {sets : Sets}
    (h : Computed labels dfas sets) {s sub : Symbol} (hs : (sets.lookup s).isSome)
    {arc : Nat × Nat} (harc : arc ∈ startArcs dfas s) (hsub : labels[arc.1]? = some (.rule sub)) :
    rank sets sub < rank sets s := by
  induction h with
  | nil => cases hs
  | @cons sets x first hrest hnew hready hfirst ih =>
    have hne : ∀ {y : Symbol}, (sets.lookup y).isSome → y ≠ x := by
      rintro y hy rfl
      rw [hnew] at hy
      cases hy
    by_cases hsx : s = x
    · subst hsx
      have hsome := hready arc harc sub hsub
      rw [rank, rank, if_pos rfl, if_neg (hne hsome)]
      exact rank_lt_length hsome
    · rw [List.lookup_cons, beq_false_of_ne hsx] at hs
      have hsome := hrest.ready hs arc harc sub hsub
      rw [rank, rank, if_neg hsx, if_neg (hne hsome)]
      exact ih hs

theorem Computed.length_le {labels : List Label} {dfas : RuleDfas} {sets : Sets}
    (h : Computed labels dfas sets) : sets.length ≤ Symbol.all.length := by
  have hnodup : (sets.map Prod.fst).Nodup := by
    induction h with
    | nil => exact List.nodup_nil
    | @cons sets x first _ hnew _ _ ih =>
      refine List.nodup_cons.2 ⟨fun hmem => ?_, ih⟩
      obtain ⟨⟨y, first'⟩, hy, rfl⟩ := List.mem_map.1 hmem
      have := List.lookup_eq_none_iff.1 hnew _ hy
      simp at this
  have hle := (List.subperm_of_subset hnodup fun s _ => Symbol.mem_all s).length_le
  rwa [List.length_map] at hle

end Offside.First
