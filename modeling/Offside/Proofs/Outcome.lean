import Mathlib.Data.List.Forall2

/-!
Computations that may fail. What is known of a chain of them that does not fail is known of each
of its steps.
-/

namespace Offside

variable {ε α β σ : Type}

theorem bind_eq_ok {x : Except ε α} {f : α → Except ε β} {b : β} :
    (x >>= f) = .ok b ↔ ∃ a, x = .ok a ∧ f a = .ok b := by
  cases x with
  | error e =>
    constructor
    · intro h
      cases h
    · rintro ⟨_, h, _⟩
      cases h
  | ok a =>
    constructor
    · exact fun h => ⟨a, rfl, h⟩
    · rintro ⟨a', h, h'⟩
      cases h
      exact h'

/-- Whatever is done to its errors, a value was one before. -/
theorem mapError_eq_ok {ε' : Type} {x : Except ε α} {f : ε → ε'} {a : α}
    (h : x.mapError f = .ok a) : x = .ok a := by
  cases x with
  | error e => cases h
  | ok b => exact congrArg Except.ok (Except.ok.inj h)

theorem map_eq_ok {x : Except ε α} {f : α → β} {b : β} (h : x.map f = .ok b) :
    ∃ a, x = .ok a ∧ f a = b := by
  cases x with
  | error e => cases h
  | ok a => exact ⟨a, rfl, Except.ok.inj h⟩

/-- What holds at the start and is kept by each step holds when all steps are done. -/
theorem foldlM_induction {motive : List α → σ → Prop} {step : σ → α → Except ε σ} {as : List α}
    {s s' : σ} (h : as.foldlM step s = .ok s') (hstart : motive [] s)
    (hstep : ∀ done a s₁ s₂, a ∈ as → motive done s₁ → step s₁ a = .ok s₂ →
      motive (done ++ [a]) s₂) : motive as s' := by
  suffices hall : ∀ (todo done : List α) (s : σ), (∀ a ∈ todo, a ∈ as) → motive done s →
      todo.foldlM step s = .ok s' → motive (done ++ todo) s' from
    hall as [] s (fun _ ha => ha) hstart h
  intro todo
  induction todo with
  | nil =>
    intro done s _ hdone hok
    cases hok
    rwa [List.append_nil]
  | cons a todo ih =>
    intro done s hsub hdone hok
    rw [List.foldlM_cons] at hok
    obtain ⟨s₁, hs₁, hok⟩ := bind_eq_ok.1 hok
    have hmem := hsub a List.mem_cons_self
    have := ih (done ++ [a]) s₁ (fun b hb => hsub b (List.mem_cons_of_mem _ hb))
      (hstep done a s s₁ hmem hdone hs₁) hok
    rwa [List.append_assoc] at this

theorem bind_eq_error {x : Except ε α} {f : α → Except ε β} {e : ε} :
    (x >>= f) = .error e ↔ x = .error e ∨ ∃ a, x = .ok a ∧ f a = .error e := by
  cases x with
  | error e' =>
    constructor
    · intro h
      cases h
      exact Or.inl rfl
    · rintro (h | ⟨_, h, _⟩)
      · cases h
        rfl
      · cases h
  | ok a =>
    refine ⟨fun h => Or.inr ⟨a, rfl, h⟩, ?_⟩
    rintro (h | ⟨a', h, h'⟩)
    · cases h
    · cases h
      exact h'

/-- A chain that fails fails at one of its steps, and not before. -/
theorem exists_of_foldlM_eq_error {step : σ → α → Except ε σ} {as : List α} {s : σ} {e : ε}
    (h : as.foldlM step s = .error e) :
    ∃ done a todo s₁, as = done ++ a :: todo ∧ done.foldlM step s = .ok s₁ ∧
      step s₁ a = .error e := by
  induction as generalizing s with
  | nil => cases h
  | cons a as ih =>
    rw [List.foldlM_cons] at h
    rcases bind_eq_error.1 h with ha | ⟨s₁, hs₁, h⟩
    · exact ⟨[], a, as, s, rfl, rfl, ha⟩
    · obtain ⟨done, b, todo, s₂, rfl, hdone, hb⟩ := ih h
      refine ⟨a :: done, b, todo, s₂, rfl, ?_, hb⟩
      rw [List.foldlM_cons, hs₁]
      exact hdone

theorem exists_of_mapM_eq_error {f : α → Except ε β} {as : List α} {e : ε}
    (h : as.mapM f = .error e) : ∃ a ∈ as, f a = .error e := by
  induction as with
  | nil =>
    rw [List.mapM_nil] at h
    cases h
  | cons a as ih =>
    rw [List.mapM_cons] at h
    rcases bind_eq_error.1 h with ha | ⟨b, _, h⟩
    · exact ⟨a, List.mem_cons_self, ha⟩
    · rcases bind_eq_error.1 h with has | ⟨bs, _, h⟩
      · obtain ⟨a', ha', hfails⟩ := ih has
        exact ⟨a', List.mem_cons_of_mem _ ha', hfails⟩
      · cases h

theorem exists_of_forM_eq_error {f : α → Except ε Unit} {as : List α} {e : ε}
    (h : as.forM f = .error e) : ∃ a ∈ as, f a = .error e := by
  induction as with
  | nil => cases h
  | cons a as ih =>
    rcases bind_eq_error.1 h with ha | ⟨_, _, h⟩
    · exact ⟨a, List.mem_cons_self, ha⟩
    · obtain ⟨a', ha', hfails⟩ := ih h
      exact ⟨a', List.mem_cons_of_mem _ ha', hfails⟩

theorem forall₂_of_mapM {f : α → Except ε β} {as : List α} {bs : List β}
    (h : as.mapM f = .ok bs) : List.Forall₂ (fun a b => f a = .ok b) as bs := by
  induction as generalizing bs with
  | nil =>
    rw [List.mapM_nil] at h
    cases h
    exact .nil
  | cons a as ih =>
    rw [List.mapM_cons] at h
    obtain ⟨b, hb, h⟩ := bind_eq_ok.1 h
    obtain ⟨bs', hbs, h⟩ := bind_eq_ok.1 h
    cases h
    exact .cons hb (ih hbs)

theorem ok_of_forM {f : α → Except ε Unit} {as : List α} (h : as.forM f = .ok ()) :
    ∀ a ∈ as, f a = .ok () := by
  induction as with
  | nil => exact fun _ ha => absurd ha List.not_mem_nil
  | cons a as ih =>
    obtain ⟨_, ha, h⟩ := bind_eq_ok.1 h
    intro b hb
    rcases List.mem_cons.1 hb with rfl | hb
    · exact ha
    · exact ih h b hb

theorem exists_of_mem_right {rel : α → β → Prop} {as : List α} {bs : List β} {b : β}
    (h : List.Forall₂ rel as bs) (hb : b ∈ bs) : ∃ a ∈ as, rel a b := by
  induction h with
  | nil => exact absurd hb List.not_mem_nil
  | @cons a _ as _ hrel _ ih =>
    rcases List.mem_cons.1 hb with rfl | hb
    · exact ⟨a, List.mem_cons_self, hrel⟩
    · obtain ⟨a', ha', hrel'⟩ := ih hb
      exact ⟨a', List.mem_cons_of_mem _ ha', hrel'⟩

theorem exists_of_mem_left {rel : α → β → Prop} {as : List α} {bs : List β} {a : α}
    (h : List.Forall₂ rel as bs) (ha : a ∈ as) : ∃ b ∈ bs, rel a b :=
  exists_of_mem_right h.flip ha

/-- What has a place on the left has a counterpart in the same place on the right. -/
theorem getElem?_of_forall₂ {rel : α → β → Prop} {as : List α} {bs : List β} {i : Nat} {a : α}
    (h : List.Forall₂ rel as bs) (ha : as[i]? = some a) : ∃ b, bs[i]? = some b ∧ rel a b := by
  induction h generalizing i with
  | nil => simp at ha
  | cons hrel _ ih =>
    cases i with
    | zero =>
      obtain rfl : _ = a := by simpa using ha
      exact ⟨_, rfl, hrel⟩
    | succ i => exact ih ha

end Offside
