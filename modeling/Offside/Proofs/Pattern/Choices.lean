import Offside.Grammar.Label
import Offside.Proofs.Outcome

/-!
Choices of rules as they are read. An alternative is completed only if something stands in it, so
no right-hand side has a choice between nothing; and replacing items by the numbers of their labels
keeps the choices and gives no number that stands for no label.
-/

namespace Offside

namespace Pattern

variable {α : Type}

mutual

/-- Every choice in the pattern has an alternative. -/
def Choosable : Pattern α → Prop
  | leaf _ => True
  | alt ps => ps ≠ [] ∧ ChoosableAll ps
  | seq ps => ChoosableAll ps
  | opt p => Choosable p
  | star p => Choosable p
  | plus p => Choosable p

def ChoosableAll : List (Pattern α) → Prop
  | [] => True
  | p :: ps => Choosable p ∧ ChoosableAll ps

end

@[simp] theorem choosable_leaf (a : α) : Choosable (leaf a) := by
  rw [Choosable]
  trivial

@[simp] theorem choosable_opt {p : Pattern α} : Choosable (opt p) ↔ Choosable p := by
  rw [Choosable]

@[simp] theorem choosable_star {p : Pattern α} : Choosable (star p) ↔ Choosable p := by
  rw [Choosable]

@[simp] theorem choosable_plus {p : Pattern α} : Choosable (plus p) ↔ Choosable p := by
  rw [Choosable]

theorem choosableAll_iff {ps : List (Pattern α)} : ChoosableAll ps ↔ ∀ p ∈ ps, Choosable p := by
  induction ps with
  | nil => simp [ChoosableAll]
  | cons p ps ih => rw [ChoosableAll, ih, List.forall_mem_cons]

theorem choosable_alt {ps : List (Pattern α)} :
    Choosable (alt ps) ↔ ps ≠ [] ∧ ∀ p ∈ ps, Choosable p := by
  rw [Choosable, choosableAll_iff]

theorem choosable_seq {ps : List (Pattern α)} : Choosable (seq ps) ↔ ∀ p ∈ ps, Choosable p := by
  rw [Choosable, choosableAll_iff]

theorem choosable_ofRow {ps : List (Pattern α)} (h : ∀ p ∈ ps, Choosable p) :
    Choosable (ofRow ps) := by
  unfold ofRow
  split
  · exact h _ List.mem_cons_self
  · exact choosable_seq.2 h

theorem choosable_ofChoice {ps : List (Pattern α)} (hne : ps ≠ []) (h : ∀ p ∈ ps, Choosable p) :
    Choosable (ofChoice ps) := by
  unfold ofChoice
  split
  · exact h _ List.mem_cons_self
  · exact choosable_alt.2 ⟨hne, h⟩

theorem mem_leavesAll {ps : List (Pattern α)} {a : α} :
    a ∈ leavesAll ps ↔ ∃ p ∈ ps, a ∈ leaves p := by
  induction ps with
  | nil => simp [leavesAll]
  | cons p ps ih => simp [leavesAll, ih]

end Pattern

namespace Rule

open Pattern

/-- The patterns that a choice has read so far are choosable. -/
structure Choice.Sound (c : Choice) : Prop where
  alternatives : ∀ p ∈ c.alternatives, p.Choosable
  row : ∀ p ∈ c.row, p.Choosable

namespace Choice

theorem sound_empty : empty.Sound :=
  ⟨fun _ h => absurd h List.not_mem_nil, fun _ h => absurd h List.not_mem_nil⟩

theorem Sound.add {c : Choice} (h : c.Sound) {p : Pattern Item} (hp : p.Choosable)
    (repeatable : Bool) : (c.add p repeatable).Sound :=
  ⟨h.alternatives, List.forall_mem_cons.2 ⟨hp, h.row⟩⟩

theorem Sound.wrapLast {c : Choice} (h : c.Sound) {f : Pattern Item → Pattern Item}
    (hf : ∀ p, p.Choosable → (f p).Choosable) : (c.wrapLast f).Sound := by
  unfold Choice.wrapLast
  split
  · exact h
  · next p row hrow =>
    have hall := h.row
    rw [hrow, List.forall_mem_cons] at hall
    exact ⟨h.alternatives, List.forall_mem_cons.2 ⟨hf p hall.1, hall.2⟩⟩

/-- A completed alternative is one more of a sound choice. -/
theorem Sound.bar {c c' : Choice} (h : c.Sound) (hbar : c.bar = .ok c') :
    c'.Sound ∧ c'.alternatives ≠ [] := by
  unfold Choice.bar at hbar
  split at hbar
  · cases hbar
  · cases hbar
    have hrow : (ofRow c.row.reverse).Choosable :=
      choosable_ofRow fun p hp => h.row p (List.mem_reverse.1 hp)
    exact ⟨⟨List.forall_mem_cons.2 ⟨hrow, h.alternatives⟩,
      fun _ h => absurd h List.not_mem_nil⟩, List.cons_ne_nil _ _⟩

theorem Sound.close {c : Choice} {p : Pattern Item} (h : c.Sound) (hclose : c.close = .ok p) :
    p.Choosable := by
  obtain ⟨c', hbar, hp⟩ := bind_eq_ok.1 hclose
  cases hp
  obtain ⟨hsound, hne⟩ := h.bar hbar
  exact choosable_ofChoice (by simpa using hne)
    fun p hp => hsound.alternatives p (List.mem_reverse.1 hp)

end Choice

/-- Whatever is read in sound choices is choosable. -/
theorem choosable_of_readBody {pieces : List Piece} :
    ∀ {around : List (Bracket × Choice)} {c : Choice} {p : Pattern Item},
      (∀ b ∈ around, b.2.Sound) → c.Sound → readBody around c pieces = .ok p → p.Choosable := by
  induction pieces with
  | nil =>
    intro around c p _ hc hread
    obtain ⟨q, hclose, hread⟩ := bind_eq_ok.1 hread
    split at hread
    · cases hread
      exact hc.close hclose
    · cases hread
  | cons piece rest ih =>
    intro around c p haround hc hread
    rw [readBody] at hread
    split at hread
    · exact ih haround (hc.add (choosable_leaf _) _) hread
    · exact ih haround (hc.add (choosable_leaf _) _) hread
    · exact ih (List.forall_mem_cons.2 ⟨hc, haround⟩) Choice.sound_empty hread
    · exact ih (List.forall_mem_cons.2 ⟨hc, haround⟩) Choice.sound_empty hread
    · exact ih haround (hc.wrapLast fun _ => choosable_star.2) hread
    · exact ih haround (hc.wrapLast fun _ => choosable_plus.2) hread
    · obtain ⟨c', hbar, hread⟩ := bind_eq_ok.1 hread
      exact ih haround (hc.bar hbar).1 hread
    · obtain ⟨q, hclose, hread⟩ := bind_eq_ok.1 hread
      have hq := hc.close hclose
      split at hread
      · cases hread
      · exact ih (List.forall_mem_cons.1 haround).2
          ((List.forall_mem_cons.1 haround).1.add hq _) hread
      · exact ih (List.forall_mem_cons.1 haround).2
          ((List.forall_mem_cons.1 haround).1.add (choosable_opt.2 hq) _) hread
      · cases hread

/-- No rule has a choice between nothing. -/
theorem choosable_of_readAll {text : List Char} {rules : List Rule} (h : readAll text = .ok rules) :
    ∀ r ∈ rules, r.body.Choosable := by
  intro r hr
  obtain ⟨b, _, hb⟩ := exists_of_mem_right (forall₂_of_mapM h) hr
  unfold ofBlock at hb
  split at hb
  · next r' hok =>
    cases hb
    obtain ⟨pieces, _, hok⟩ := bind_eq_ok.1 hok
    unfold ofPieces at hok
    split at hok
    · cases hok
    · split at hok
      · cases hok
      · split at hok
        · cases hok
        · split at hok
          · cases hok
          · obtain ⟨body, hbody, hok⟩ := bind_eq_ok.1 hok
            cases hok
            exact choosable_of_readBody (fun _ h => absurd h List.not_mem_nil)
              Choice.sound_empty hbody
  · cases hb

end Rule

namespace Label

theorem prefix_intern (labels : List Label) (l : Label) : labels <+: (intern labels l).2 := by
  unfold intern
  split
  · exact List.prefix_refl _
  · exact List.prefix_append _ _

theorem intern_lt (labels : List Label) (l : Label) :
    (intern labels l).1 < (intern labels l).2.length := by
  unfold intern
  split
  · next i hi => exact (List.idxOf?_eq_some_iff.1 hi).1
  · rw [List.length_append, List.length_singleton]
    exact Nat.lt_succ_self _

/-- What numbering the items of choosable patterns gives: more labels, if any, and choosable
patterns of numbers below their count. -/
structure Numbered (labels labels' : List Label) (ps : List (Pattern Nat)) : Prop where
  labels : labels <+: labels'
  choosable : ∀ p ∈ ps, p.Choosable
  leaves : ∀ p ∈ ps, ∀ a ∈ p.leaves, a < labels'.length

open Pattern

/-- A single pattern may be put under what has the same leaves and no choice of its own. -/
theorem Numbered.wrap {labels labels' : List Label} {p q : Pattern Nat}
    (h : Numbered labels labels' [p]) (hchoosable : p.Choosable → q.Choosable)
    (hleaves : q.leaves = p.leaves) : Numbered labels labels' [q] where
  labels := h.labels
  choosable := by
    simpa using hchoosable (h.choosable p List.mem_cons_self)
  leaves := by
    simpa [hleaves] using h.leaves p List.mem_cons_self

/-- Several patterns may be put under what has all their leaves. -/
theorem Numbered.gather {labels labels' : List Label} {ps : List (Pattern Nat)} {q : Pattern Nat}
    (h : Numbered labels labels' ps) (hchoosable : (∀ p ∈ ps, p.Choosable) → q.Choosable)
    (hleaves : q.leaves = leavesAll ps) : Numbered labels labels' [q] where
  labels := h.labels
  choosable := by
    simpa using hchoosable h.choosable
  leaves := by
    simp only [List.mem_singleton, forall_eq, hleaves, mem_leavesAll]
    rintro a ⟨p, hp, ha⟩
    exact h.leaves p hp a ha

mutual

theorem number_spec {labels labels' : List Label} :
    ∀ {p : Pattern Item} {p' : Pattern Nat}, p.Choosable → number labels p = .ok (p', labels') →
      Numbered labels labels' [p']
  | .leaf item, _, _, hok => by
    rw [number] at hok
    obtain ⟨l, _, hok⟩ := bind_eq_ok.1 hok
    cases hok
    exact
      { labels := prefix_intern labels l
        choosable := by simp
        leaves := by
          simp only [List.mem_singleton, forall_eq, Pattern.leaves]
          exact intern_lt labels l }
  | .alt ps, _, hp, hok => by
    rw [number] at hok
    obtain ⟨⟨ps', _⟩, hps, hok⟩ := bind_eq_ok.1 hok
    cases hok
    obtain ⟨hne, hall⟩ := choosable_alt.1 hp
    obtain ⟨hnumbered, hlength⟩ := numberAll_spec hall hps
    refine hnumbered.gather (fun h => choosable_alt.2 ⟨?_, h⟩) (by rw [Pattern.leaves])
    rintro rfl
    exact hne (List.length_eq_zero_iff.1 hlength.symm)
  | .seq ps, _, hp, hok => by
    rw [number] at hok
    obtain ⟨_, hps, hok⟩ := bind_eq_ok.1 hok
    cases hok
    exact (numberAll_spec (choosable_seq.1 hp) hps).1.gather choosable_seq.2
      (by rw [Pattern.leaves])
  | .opt p, _, hp, hok => by
    rw [number] at hok
    obtain ⟨_, hok', hok⟩ := bind_eq_ok.1 hok
    cases hok
    exact (number_spec (choosable_opt.1 hp) hok').wrap choosable_opt.2 (by rw [Pattern.leaves])
  | .star p, _, hp, hok => by
    rw [number] at hok
    obtain ⟨_, hok', hok⟩ := bind_eq_ok.1 hok
    cases hok
    exact (number_spec (choosable_star.1 hp) hok').wrap choosable_star.2 (by rw [Pattern.leaves])
  | .plus p, _, hp, hok => by
    rw [number] at hok
    obtain ⟨_, hok', hok⟩ := bind_eq_ok.1 hok
    cases hok
    exact (number_spec (choosable_plus.1 hp) hok').wrap choosable_plus.2 (by rw [Pattern.leaves])

theorem numberAll_spec {labels labels' : List Label} :
    ∀ {ps : List (Pattern Item)} {ps' : List (Pattern Nat)}, (∀ p ∈ ps, p.Choosable) →
      numberAll labels ps = .ok (ps', labels') →
        Numbered labels labels' ps' ∧ ps'.length = ps.length
  | [], _, _, hok => by
    cases hok
    exact ⟨⟨List.prefix_refl _, by simp, by simp⟩, rfl⟩
  | p :: ps, _, hall, hok => by
    rw [numberAll] at hok
    obtain ⟨⟨p', labels₁⟩, hp, hok⟩ := bind_eq_ok.1 hok
    obtain ⟨⟨ps', labels₂⟩, hps, hok⟩ := bind_eq_ok.1 hok
    cases hok
    obtain ⟨hchoosable, hall⟩ := List.forall_mem_cons.1 hall
    have hfirst := number_spec hchoosable hp
    obtain ⟨hrest, hlength⟩ := numberAll_spec hall hps
    refine ⟨⟨hfirst.labels.trans hrest.labels, ?_, ?_⟩, by simp [hlength]⟩
    · exact List.forall_mem_cons.2 ⟨hfirst.choosable p' List.mem_cons_self, hrest.choosable⟩
    · refine List.forall_mem_cons.2 ⟨fun a ha => ?_, hrest.leaves⟩
      exact Nat.lt_of_lt_of_le (hfirst.leaves p' List.mem_cons_self a ha) hrest.labels.length_le

end

end Label
end Offside
