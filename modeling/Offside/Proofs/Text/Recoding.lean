import Offside.Proofs.Text.Breaks

/-!
Texts with other line breaks. A text whose lines end with line feeds is turned into one whose lines
end with carriage returns, or with carriage returns and line feeds. Within a line nothing changes,
and a line ends where it ended.
-/

namespace Offside.Text

/-- The line breaks that start with a carriage return. -/
def IsReturn (br : List Char) : Prop := br = ['\r', '\n'] ∨ br = ['\r']

instance (br : List Char) : Decidable (IsReturn br) :=
  inferInstanceAs (Decidable (br = ['\r', '\n'] ∨ br = ['\r']))

/-- The text with another line break in the place of every line feed. -/
def recode (br text : List Char) : List Char := text.flatMap fun c => if c = '\n' then br else [c]

variable {br text : List Char}

@[simp] theorem recode_nil (br : List Char) : recode br [] = [] := rfl

@[simp] theorem recode_feed (br text : List Char) :
    recode br ('\n' :: text) = br ++ recode br text := rfl

theorem recode_cons {c : Char} (hc : c ≠ '\n') (br text : List Char) :
    recode br (c :: text) = c :: recode br text := by
  rw [recode, List.flatMap_cons, if_neg hc]
  rfl

@[simp] theorem recode_append (br a b : List Char) :
    recode br (a ++ b) = recode br a ++ recode br b := List.flatMap_append

theorem recode_of_unbroken (h : Unbroken text) (br : List Char) : recode br text = text := by
  induction text with
  | nil => rfl
  | cons c text ih =>
    obtain ⟨hc, htext⟩ := unbroken_cons.1 h
    have hfeed : c ≠ '\n' := by
      rintro rfl
      cases hc
    rw [recode_cons hfeed, ih htext]

/-- A character of a text without carriage returns is a break only if it is a line feed. -/
theorem eq_feed_of_isBreak {c : Char} (hreturn : c ≠ '\r') (h : isBreak c = true) : c = '\n' := by
  simp only [isBreak, Bool.or_eq_true, beq_iff_eq] at h
  exact h.resolve_right hreturn

namespace IsReturn

theorem exists_cons (h : IsReturn br) : ∃ more, br = '\r' :: more := by
  rcases h with rfl | rfl
  · exact ⟨_, rfl⟩
  · exact ⟨_, rfl⟩

/-- No text starts with a line feed any more. -/
theorem head?_recode (h : IsReturn br) (text : List Char) : (recode br text).head? ≠ some '\n' := by
  cases text with
  | nil => simp
  | cons c text =>
    by_cases hc : c = '\n'
    · obtain ⟨more, rfl⟩ := h.exists_cons
      simp [hc]
    · rw [recode_cons hc, List.head?_cons]
      intro hsome
      exact hc (Option.some.inj hsome)

theorem not_splits_recode (h : IsReturn br) (before text : List Char) :
    ¬Splits before (recode br text) := fun hsplits => h.head?_recode text hsplits.2

/-- The new line break is read as one. -/
theorem lineBreak?_append (h : IsReturn br) (text : List Char) :
    lineBreak? (br ++ recode br text) = some (br, recode br text) := by
  rcases h with hbr | hbr
  · subst hbr
    rfl
  · have hhead := head?_recode (Or.inr hbr) text
    subst hbr
    rw [List.singleton_append, lineBreak?.eq_2]
    intro rest hrest
    rw [hrest] at hhead
    exact hhead rfl

/-- What a text starts with: a line break for a line feed, and anything else for itself. -/
theorem exists_cons_recode (h : IsReturn br) (c : Char) (text : List Char) :
    ∃ d more, recode br (c :: text) = d :: more ∧ (c = '\n' ∧ d = '\r' ∨ d = c) := by
  by_cases hc : c = '\n'
  · obtain ⟨more, rfl⟩ := h.exists_cons
    exact ⟨'\r', _, by rw [hc]; rfl, Or.inl ⟨hc, rfl⟩⟩
  · exact ⟨c, _, recode_cons hc br text, Or.inr rfl⟩

theorem takeWhile_recode (h : IsReturn br) {p : Char → Bool} (hfeed : p '\n' = false)
    (hreturn : p '\r' = false) (text : List Char) :
    (recode br text).takeWhile p = text.takeWhile p := by
  induction text with
  | nil => rfl
  | cons c text ih =>
    by_cases hc : c = '\n'
    · obtain ⟨more, rfl⟩ := h.exists_cons
      simp [hc, hfeed, hreturn]
    · rw [recode_cons hc, List.takeWhile_cons, List.takeWhile_cons, ih]

/-- A line ends where it ended, with the new line break. -/
theorem lineBreak?_recode (h : IsReturn br) (hclean : '\r' ∉ text) :
    lineBreak? (recode br text) = (lineBreak? text).map fun x => (br, recode br x.2) := by
  cases text with
  | nil => rfl
  | cons c text =>
    by_cases hc : c = '\n'
    · subst hc
      exact h.lineBreak?_append text
    · have hreturn : c ≠ '\r' := fun hc' => hclean (hc' ▸ List.mem_cons_self)
      rw [recode_cons hc]
      simp [lineBreak?, hc, hreturn]

theorem byteLength_le (h : IsReturn br) (text : List Char) :
    byteLength text ≤ byteLength (recode br text) := by
  induction text with
  | nil => exact Nat.le_refl _
  | cons c text ih =>
    by_cases hc : c = '\n'
    · obtain ⟨more, rfl⟩ := h.exists_cons
      have hfeed : '\n'.utf8Size = 1 := rfl
      have hreturn : '\r'.utf8Size = 1 := rfl
      rw [hc, recode_feed, List.cons_append, byteLength_cons, byteLength_cons, byteLength_append,
        hfeed, hreturn]
      omega
    · rw [recode_cons hc, byteLength_cons, byteLength_cons]
      omega

end IsReturn

/-- A text without carriage returns is one line, or starts with a line that a line feed ends. -/
theorem exists_line (hclean : '\r' ∉ text) :
    ∃ line, Unbroken line ∧ (text = line ∨ ∃ more, text = line ++ '\n' :: more) := by
  induction text with
  | nil => exact ⟨[], unbroken_nil, Or.inl rfl⟩
  | cons c text ih =>
    rw [List.mem_cons, not_or] at hclean
    cases hc : isBreak c with
    | true =>
      obtain rfl := eq_feed_of_isBreak (Ne.symm hclean.1) hc
      exact ⟨[], unbroken_nil, Or.inr ⟨text, rfl⟩⟩
    | false =>
      obtain ⟨line, hline, htext⟩ := ih hclean.2
      refine ⟨c :: line, unbroken_cons.2 ⟨hc, hline⟩, ?_⟩
      rcases htext with rfl | ⟨more, rfl⟩
      · exact Or.inl rfl
      · exact Or.inr ⟨more, rfl⟩

/-- Without carriage returns, lines end with line feeds. -/
theorem eq_feed_of_lineBreak? {rest : List Char} (hclean : '\r' ∉ text)
    (h : lineBreak? text = some (br, rest)) : br = ['\n'] ∧ text = '\n' :: rest := by
  obtain ⟨rfl, _, rfl | rfl | rfl⟩ := lineBreak?_eq_some h
  · exact absurd (List.mem_cons_self ..) hclean
  · exact absurd (List.mem_cons_self ..) hclean
  · exact ⟨rfl, rfl⟩

end Offside.Text
