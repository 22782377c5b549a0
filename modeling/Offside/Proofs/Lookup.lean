import Mathlib.Data.List.Basic

/-!
Association lists: what looking up finds, mostly where no key is repeated.
-/

namespace Offside

variable {α β γ : Type} [DecidableEq α]

/-- Where keys differ every entry is found. -/
theorem lookup_of_mem {entries : List (α × β)} (hnodup : (entries.map Prod.fst).Nodup) {a : α}
    {b : β} (h : (a, b) ∈ entries) : entries.lookup a = some b := by
  induction entries with
  | nil => cases h
  | cons entry entries ih =>
    obtain ⟨x, y⟩ := entry
    rw [List.map_cons, List.nodup_cons] at hnodup
    rcases List.mem_cons.1 h with heq | hmem
    · obtain ⟨rfl, rfl⟩ := Prod.mk.inj heq
      exact List.lookup_cons_self
    · have hne : a ≠ x := by
        rintro rfl
        exact hnodup.1 (List.mem_map.2 ⟨(a, b), hmem, rfl⟩)
      rw [List.lookup_cons, beq_false_of_ne hne]
      exact ih hnodup.2 hmem

theorem mem_of_lookup {entries : List (α × β)} {a : α} {b : β}
    (h : entries.lookup a = some b) : (a, b) ∈ entries := by
  induction entries with
  | nil => cases h
  | cons entry entries ih =>
    obtain ⟨x, y⟩ := entry
    by_cases hax : a = x
    · subst hax
      rw [List.lookup_cons_self] at h
      obtain rfl := Option.some.inj h
      exact List.mem_cons_self
    · rw [List.lookup_cons, beq_false_of_ne hax] at h
      exact List.mem_cons_of_mem _ (ih h)

theorem exists_lookup_of_mem_keys {entries : List (α × β)} {a : α}
    (h : a ∈ entries.map Prod.fst) : ∃ b, entries.lookup a = some b ∧ (a, b) ∈ entries := by
  induction entries with
  | nil => cases h
  | cons entry entries ih =>
    obtain ⟨x, y⟩ := entry
    by_cases hax : a = x
    · subst hax
      exact ⟨y, List.lookup_cons_self, List.mem_cons_self⟩
    · obtain ⟨b, hb, hmem⟩ := ih (by simpa [hax] using h)
      rw [List.lookup_cons, beq_false_of_ne hax]
      exact ⟨b, hb, List.mem_cons_of_mem _ hmem⟩

theorem lookup_eq_none_of_keys {entries : List (α × β)} {a : α}
    (h : a ∉ entries.map Prod.fst) : entries.lookup a = none := by
  rw [List.lookup_eq_none_iff]
  intro entry hentry
  have hne : a ≠ entry.1 := fun heq => h (heq ▸ List.mem_map_of_mem hentry)
  simpa using hne

theorem lookup_map_snd (f : β → γ) (entries : List (α × β)) (a : α) :
    (entries.map fun entry => (entry.1, f entry.2)).lookup a = (entries.lookup a).map f := by
  induction entries with
  | nil => rfl
  | cons entry entries ih =>
    rw [List.map_cons, List.lookup_cons, List.lookup_cons]
    cases a == entry.1 with
    | true => rfl
    | false => exact ih

end Offside
