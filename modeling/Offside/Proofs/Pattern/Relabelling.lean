import Offside.Proofs.Pattern.Choices
import Offside.Proofs.Pattern.Language

/-!
Patterns with other leaves. A rule is written with items and its automaton is made from numbers.
The numbers are got by a function of the items, so the words that are read correspond letter by
letter, and no word has letters that are no leaves.
-/

namespace Offside

namespace Pattern

open Computability

variable {α β : Type}

mutual

theorem reading_map (f : α → β) : ∀ p : Pattern α, reading (map f p) = Language.map f (reading p)
  | leaf a => by
    rw [map, reading, reading]
    show ({[f a]} : Set (List β)) = List.map f '' {[a]}
    rw [Set.image_singleton, List.map_singleton]
  | alt ps => by
    rw [map, reading, reading]
    exact readingOfChoice_mapAll f ps
  | seq ps => by
    rw [map, reading, reading]
    exact readingOfRow_mapAll f ps
  | opt p => by
    rw [map, reading, reading, map_add, reading_map f p, tail_map f p]
  | star p => by
    rw [map, reading, reading, Language.map_kstar, reading_map f p]
  | plus p => by
    rw [map, reading, reading, map_mul, Language.map_kstar, reading_map f p]

theorem tail_map (f : α → β) : ∀ p : Pattern α, tail (map f p) = Language.map f (tail p)
  | leaf a => by rw [map, tail, tail, map_one]
  | alt ps => by rw [map, tail, tail, map_one]
  | seq ps => by
    rw [map, tail, tail]
    exact tailOfRow_mapAll f ps
  | opt p => by
    rw [map, tail, tail]
    exact tail_map f p
  | star p => by
    rw [map, tail, tail, Language.map_kstar, reading_map f p]
  | plus p => by
    rw [map, tail, tail, map_mul, Language.map_kstar, reading_map f p, tail_map f p]

theorem readingOfChoice_mapAll (f : α → β) :
    ∀ ps : List (Pattern α), readingOfChoice (mapAll f ps) = Language.map f (readingOfChoice ps)
  | [] => by rw [mapAll, readingOfChoice, readingOfChoice, map_zero]
  | p :: ps => by
    rw [mapAll, readingOfChoice, readingOfChoice, map_add, reading_map f p,
      readingOfChoice_mapAll f ps]

theorem readingOfRow_mapAll (f : α → β) :
    ∀ ps : List (Pattern α), readingOfRow (mapAll f ps) = Language.map f (readingOfRow ps)
  | [] => by rw [mapAll, readingOfRow, readingOfRow, map_one]
  | p :: ps => by
    rw [mapAll, readingOfRow, readingOfRow, map_mul, reading_map f p, readingOfRow_mapAll f ps]

theorem tailOfRow_mapAll (f : α → β) :
    ∀ ps : List (Pattern α), tailOfRow (mapAll f ps) = Language.map f (tailOfRow ps)
  | [] => by rw [mapAll, tailOfRow, tailOfRow, map_one]
  | p :: ps => by
    have hempty : (mapAll f ps).isEmpty = ps.isEmpty := by cases ps <;> rfl
    rw [mapAll, tailOfRow, tailOfRow, hempty]
    split
    · exact tail_map f p
    · exact tailOfRow_mapAll f ps

end

/-- The words over some letters. -/
def wordsOver (letters : List α) : Language α := {w | ∀ a ∈ w, a ∈ letters}

theorem wordsOver_mono {as bs : List α} (h : as ⊆ bs) : wordsOver as ≤ wordsOver bs :=
  fun _ hw a ha => h (hw a ha)

theorem one_le_wordsOver (letters : List α) : 1 ≤ wordsOver letters := by
  rintro w hw a ha
  rw [(Language.mem_one w).1 hw] at ha
  exact absurd ha List.not_mem_nil

theorem mul_le_wordsOver {as : List α} {l m : Language α} (hl : l ≤ wordsOver as)
    (hm : m ≤ wordsOver as) : l * m ≤ wordsOver as := by
  rintro _ ⟨v, hv, w, hw, rfl⟩ a ha
  rcases List.mem_append.1 ha with ha | ha
  · exact hl hv a ha
  · exact hm hw a ha

theorem kstar_le_wordsOver {as : List α} {l : Language α} (hl : l ≤ wordsOver as) :
    l∗ ≤ wordsOver as := by
  rintro _ ⟨ws, rfl, hws⟩ a ha
  obtain ⟨w, hw, ha⟩ := List.mem_flatten.1 ha
  exact hl (hws w hw) a ha

mutual

/-- What is read consists of leaves. -/
theorem reading_le_wordsOver : ∀ p : Pattern α, reading p ≤ wordsOver (leaves p)
  | leaf a => by
    rw [reading, leaves]
    rintro w rfl
    exact fun _ h => h
  | alt ps => by
    rw [reading, leaves]
    exact readingOfChoice_le_wordsOver ps
  | seq ps => by
    rw [reading, leaves]
    exact readingOfRow_le_wordsOver ps
  | opt p => by
    rw [reading, leaves]
    exact add_le (reading_le_wordsOver p) (tail_le_wordsOver p)
  | star p => by
    rw [reading, leaves]
    exact kstar_le_wordsOver (reading_le_wordsOver p)
  | plus p => by
    rw [reading, leaves]
    exact mul_le_wordsOver (reading_le_wordsOver p) (kstar_le_wordsOver (reading_le_wordsOver p))

theorem tail_le_wordsOver : ∀ p : Pattern α, tail p ≤ wordsOver (leaves p)
  | leaf a => by
    rw [tail]
    exact one_le_wordsOver _
  | alt ps => by
    rw [tail]
    exact one_le_wordsOver _
  | seq ps => by
    rw [tail, leaves]
    exact tailOfRow_le_wordsOver ps
  | opt p => by
    rw [tail, leaves]
    exact tail_le_wordsOver p
  | star p => by
    rw [tail, leaves]
    exact kstar_le_wordsOver (reading_le_wordsOver p)
  | plus p => by
    rw [tail, leaves]
    exact mul_le_wordsOver (tail_le_wordsOver p) (kstar_le_wordsOver (reading_le_wordsOver p))

theorem readingOfChoice_le_wordsOver :
    ∀ ps : List (Pattern α), readingOfChoice ps ≤ wordsOver (leavesAll ps)
  | [] => by
    rw [readingOfChoice]
    exact bot_le
  | p :: ps => by
    rw [readingOfChoice, leavesAll]
    exact add_le ((reading_le_wordsOver p).trans (wordsOver_mono (List.subset_append_left _ _)))
      ((readingOfChoice_le_wordsOver ps).trans (wordsOver_mono (List.subset_append_right _ _)))

theorem readingOfRow_le_wordsOver :
    ∀ ps : List (Pattern α), readingOfRow ps ≤ wordsOver (leavesAll ps)
  | [] => by
    rw [readingOfRow]
    exact one_le_wordsOver _
  | p :: ps => by
    rw [readingOfRow, leavesAll]
    exact mul_le_wordsOver
      ((reading_le_wordsOver p).trans (wordsOver_mono (List.subset_append_left _ _)))
      ((readingOfRow_le_wordsOver ps).trans (wordsOver_mono (List.subset_append_right _ _)))

theorem tailOfRow_le_wordsOver : ∀ ps : List (Pattern α), tailOfRow ps ≤ wordsOver (leavesAll ps)
  | [] => by
    rw [tailOfRow]
    exact one_le_wordsOver _
  | p :: ps => by
    rw [tailOfRow, leavesAll]
    split
    · exact (tail_le_wordsOver p).trans (wordsOver_mono (List.subset_append_left _ _))
    · exact (tailOfRow_le_wordsOver ps).trans (wordsOver_mono (List.subset_append_right _ _))

end

end Pattern

namespace Label

open Pattern

variable {labels labels' : List Label}

/-- The number of an item's label. -/
def numberOf (labels : List Label) (item : Item) : Nat :=
  match ofItem item with
  | .ok l => labels.idxOf l
  | .error _ => 0

/-- An item has a label that is numbered. -/
def Known (labels : List Label) (item : Item) : Prop := ∃ l ∈ labels, ofItem item = .ok l

theorem Known.mono {item : Item} (h : Known labels item) (hsub : labels <+: labels') :
    Known labels' item := by
  obtain ⟨l, hl, hitem⟩ := h
  exact ⟨l, hsub.subset hl, hitem⟩

theorem numberOf_eq {item : Item} {l : Label} (h : ofItem item = .ok l) :
    numberOf labels item = labels.idxOf l := by rw [numberOf, h]

theorem getElem?_numberOf {item : Item} {l : Label} (hl : l ∈ labels) (h : ofItem item = .ok l) :
    labels[numberOf labels item]? = some l := by
  have hlt := List.idxOf_lt_length_of_mem hl
  rw [numberOf_eq h, List.getElem?_eq_getElem hlt, List.getElem_idxOf hlt]

theorem idxOf_of_prefix {l : Label} (hl : l ∈ labels) (h : labels <+: labels') :
    labels'.idxOf l = labels.idxOf l := by
  obtain ⟨more, rfl⟩ := h
  exact List.idxOf_append_of_mem hl

theorem mem_intern (labels : List Label) (l : Label) : l ∈ (intern labels l).2 := by
  unfold intern
  split
  · next i hi =>
    by_contra hmem
    rw [List.idxOf?_eq_none_iff.2 hmem] at hi
    cases hi
  · exact List.mem_append_right _ List.mem_cons_self

theorem idxOf_intern (labels : List Label) (l : Label) :
    (intern labels l).2.idxOf l = (intern labels l).1 := by
  unfold intern
  split
  · next i hi => rw [List.idxOf_eq_getD_idxOf?, hi, Option.getD_some]
  · next hnone =>
    rw [List.idxOf_append_of_notMem (List.idxOf?_eq_none_iff.1 hnone), List.idxOf_cons_self]
    rfl

mutual

/-- Numbering the items of a pattern gives them the numbers that they have among any labels that
come to hold those found so far. -/
theorem number_eq_map {labels labels₁ labels₂ : List Label} (hsub : labels₁ <+: labels₂) :
    ∀ {p : Pattern Item} {p' : Pattern Nat}, number labels p = .ok (p', labels₁) →
      labels <+: labels₁ ∧ p' = p.map (numberOf labels₂) ∧
        ∀ item ∈ p.leaves, Known labels₁ item
  | .leaf item, _, h => by
    rw [number] at h
    obtain ⟨l, hitem, h⟩ := bind_eq_ok.1 h
    cases h
    have hl := mem_intern labels l
    rw [Pattern.map, numberOf_eq hitem, idxOf_of_prefix hl hsub, idxOf_intern]
    refine ⟨prefix_intern labels l, rfl, fun item' hmem => ?_⟩
    rw [Pattern.leaves, List.mem_singleton] at hmem
    rw [hmem]
    exact ⟨l, hl, hitem⟩
  | .alt ps, _, h => by
    rw [number] at h
    obtain ⟨⟨ps', _⟩, hps, h⟩ := bind_eq_ok.1 h
    cases h
    obtain ⟨hmore, rfl, hleaves⟩ := numberAll_eq_map hsub hps
    rw [Pattern.map, Pattern.leaves]
    exact ⟨hmore, rfl, hleaves⟩
  | .seq ps, _, h => by
    rw [number] at h
    obtain ⟨⟨ps', _⟩, hps, h⟩ := bind_eq_ok.1 h
    cases h
    obtain ⟨hmore, rfl, hleaves⟩ := numberAll_eq_map hsub hps
    rw [Pattern.map, Pattern.leaves]
    exact ⟨hmore, rfl, hleaves⟩
  | .opt p, _, h => by
    rw [number] at h
    obtain ⟨⟨p', _⟩, hp, h⟩ := bind_eq_ok.1 h
    cases h
    obtain ⟨hmore, rfl, hleaves⟩ := number_eq_map hsub hp
    rw [Pattern.map, Pattern.leaves]
    exact ⟨hmore, rfl, hleaves⟩
  | .star p, _, h => by
    rw [number] at h
    obtain ⟨⟨p', _⟩, hp, h⟩ := bind_eq_ok.1 h
    cases h
    obtain ⟨hmore, rfl, hleaves⟩ := number_eq_map hsub hp
    rw [Pattern.map, Pattern.leaves]
    exact ⟨hmore, rfl, hleaves⟩
  | .plus p, _, h => by
    rw [number] at h
    obtain ⟨⟨p', _⟩, hp, h⟩ := bind_eq_ok.1 h
    cases h
    obtain ⟨hmore, rfl, hleaves⟩ := number_eq_map hsub hp
    rw [Pattern.map, Pattern.leaves]
    exact ⟨hmore, rfl, hleaves⟩

theorem numberAll_eq_map {labels labels₁ labels₂ : List Label} (hsub : labels₁ <+: labels₂) :
    ∀ {ps : List (Pattern Item)} {ps' : List (Pattern Nat)},
      numberAll labels ps = .ok (ps', labels₁) →
        labels <+: labels₁ ∧ ps' = mapAll (numberOf labels₂) ps ∧
          ∀ item ∈ leavesAll ps, Known labels₁ item
  | [], _, h => by
    cases h
    exact ⟨List.prefix_refl _, rfl, fun _ h => absurd h List.not_mem_nil⟩
  | p :: ps, _, h => by
    rw [numberAll] at h
    obtain ⟨⟨p', labels₃⟩, hp, h⟩ := bind_eq_ok.1 h
    obtain ⟨⟨ps', _⟩, hps, h⟩ := bind_eq_ok.1 h
    cases h
    obtain ⟨hrest, rfl, hleavesAll⟩ := numberAll_eq_map hsub hps
    obtain ⟨hfirst, rfl, hleaves⟩ := number_eq_map (hrest.trans hsub) hp
    rw [mapAll, leavesAll]
    refine ⟨hfirst.trans hrest, rfl, fun item hmem => ?_⟩
    rcases List.mem_append.1 hmem with hmem | hmem
    · exact (hleaves item hmem).mono hrest
    · exact hleavesAll item hmem

end

end Label
end Offside
