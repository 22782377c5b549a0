import Offside.Proofs.Nfa.Path
import Offside.Proofs.Pattern.Language

/-!
The language of the automaton of a pattern. The states of each part are an interval of numbers, so
the parts of a choice or a row can only be entered and left where they are joined. Repetitions and
options share their ends with what they repeat: what is known of the ends is `Reads`, and the main
statement is that it holds of every automaton built.
-/

namespace Offside.Nfa

open Computability Pattern

/-- All arcs run between states from `lo` on and below `hi`. -/
def Within (lo hi : Nat) (arcs : List SilentArc) : Prop :=
  ∀ a ∈ arcs, (lo ≤ a.source ∧ a.source < hi) ∧ lo ≤ a.target ∧ a.target < hi

/-- An automaton with states in an interval reads a pattern. The last three fields bound what its
ends can read on their own. -/
structure Reads (p : Pattern Nat) (lo : Nat) (m : Nfa) (hi : Nat) : Prop where
  within : Within lo hi m.arcs
  start_eq : m.start = lo
  stop_bounds : lo ≤ m.stop ∧ m.stop < hi
  start_stop : paths m.arcs m.start m.stop = reading p
  stop_stop : paths m.arcs m.stop m.stop = tail p
  start_start_le : paths m.arcs m.start m.start ≤ paths m.arcs m.stop m.stop
  stop_start_le : paths m.arcs m.stop m.start ≤ paths m.arcs m.stop m.stop
  start_start_le_kstar : paths m.arcs m.start m.start ≤ (reading p)∗

theorem Reads.lo_lt_hi {p : Pattern Nat} {lo hi : Nat} {m : Nfa} (h : Reads p lo m hi) :
    lo < hi := by
  have := h.stop_bounds
  omega

/-- Automata side by side between two states below their own. -/
structure ReadsChoice (ps : List (Pattern Nat)) (start stop lo : Nat) (arcs : List SilentArc)
    (hi : Nat) : Prop where
  lo_le_hi : lo ≤ hi
  source : ∀ a ∈ arcs, a.source = start ∨ lo ≤ a.source ∧ a.source < hi
  target : ∀ a ∈ arcs, a.target = stop ∨ lo ≤ a.target ∧ a.target < hi
  start_stop : paths arcs start stop = readingOfChoice ps

/-- Automata one behind the other, the first one entered from a state below their own. -/
structure ReadsRow (ps : List (Pattern Nat)) (start lo : Nat) (arcs : List SilentArc) (stop : Nat)
    (hi : Nat) : Prop where
  lo_le_hi : lo ≤ hi
  source : ∀ a ∈ arcs, a.source = start ∨ lo ≤ a.source ∧ a.source < hi
  target : ∀ a ∈ arcs, lo ≤ a.target ∧ a.target < hi
  stop_bounds : ps = [] ∧ stop = start ∨ ps ≠ [] ∧ lo ≤ stop ∧ stop < hi
  start_stop : paths arcs start stop = readingOfRow ps
  stop_stop : paths arcs stop stop = tailOfRow ps

theorem reads_leaf (a fresh : Nat) :
    Reads (.leaf a) fresh ⟨fresh, fresh + 1, [⟨fresh, some a, fresh + 1⟩]⟩ (fresh + 2) := by
  have hsource : ∀ x ∈ [(⟨fresh, some a, fresh + 1⟩ : SilentArc)], x.source ≠ fresh + 1 := by
    simp
  have htarget : ∀ x ∈ [(⟨fresh, some a, fresh + 1⟩ : SilentArc)], x.target ≠ fresh := by
    simp
  have hstop := paths_self_of_no_source hsource
  refine
    { within := by intro x hx; rw [List.mem_singleton.1 hx]; dsimp only; omega
      start_eq := rfl
      stop_bounds := by dsimp only; omega
      start_stop := ?_
      stop_stop := by simpa only [tail] using hstop
      start_start_le := (paths_le_one_of_no_target htarget).trans hstop.ge
      stop_start_le := (paths_le_one_of_no_target htarget).trans hstop.ge
      start_start_le_kstar := (paths_le_one_of_no_target htarget).trans one_le_kstar }
  refine Language.ext fun w => ?_
  simp only [reading]
  constructor
  · intro h
    cases h with
    | silent harc _ => simp at harc
    | read harc rest =>
      obtain ⟨rfl, rfl⟩ : _ = a ∧ _ = fresh + 1 := by simpa using harc
      rw [(rest.eq_of_no_source hsource).2]
      rfl
  · rintro rfl
    exact .read List.mem_cons_self (.nil _)

/-- Between automata that share no state, a word is cut where it crosses over. -/
theorem paths_series {first rest : List SilentArc} {cut gate q r : Nat}
    (hfirst : ∀ a ∈ first, a.source < cut ∧ a.target < cut) (hgate : gate < cut)
    (hsource : ∀ a ∈ rest, a.source = gate ∨ cut ≤ a.source)
    (htarget : ∀ a ∈ rest, cut ≤ a.target) (hq : q < cut) (hr : r = gate ∨ cut ≤ r) :
    paths (first ++ rest) q r = paths first q gate * paths rest gate r := by
  apply le_antisymm
  · intro w h
    induction h with
    | nil q =>
      rcases hr with rfl | hr
      · exact ⟨[], .nil q, [], .nil q, rfl⟩
      · omega
    | @silent q s r w harc hpath ih =>
      rcases List.mem_append.1 harc with harc | harc
      · obtain ⟨x, hx, y, hy, rfl⟩ := ih (hfirst _ harc).2 hr
        exact ⟨x, .silent harc hx, y, hy, rfl⟩
      · have hs := htarget _ harc
        have hrest := hpath.restrict (cut ≤ ·) hs fun a ha hle => by
          rcases List.mem_append.1 ha with ha | ha
          · exact absurd (hfirst _ ha).1 (by omega)
          · exact ⟨ha, htarget _ ha⟩
        rcases hsource _ harc with rfl | hle
        · exact ⟨[], .nil _, w, .silent harc hrest.1, rfl⟩
        · dsimp only at hle; omega
    | @read q s r a w harc hpath ih =>
      rcases List.mem_append.1 harc with harc | harc
      · obtain ⟨x, hx, y, hy, rfl⟩ := ih (hfirst _ harc).2 hr
        exact ⟨a :: x, .read harc hx, y, hy, rfl⟩
      · have hs := htarget _ harc
        have hrest := hpath.restrict (cut ≤ ·) hs fun a ha hle => by
          rcases List.mem_append.1 ha with ha | ha
          · exact absurd (hfirst _ ha).1 (by omega)
          · exact ⟨ha, htarget _ ha⟩
        rcases hsource _ harc with rfl | hle
        · exact ⟨[], .nil _, a :: w, .read harc hrest.1, rfl⟩
        · dsimp only at hle; omega
  · exact (mul_le_mul' (paths_mono (List.subset_append_left _ _) q gate)
      (paths_mono (List.subset_append_right _ _) gate r)).trans (paths_mul_le _ q gate r)

/-- A state with one silent arc, to a part that cannot be left, reads what that part reads. -/
theorem paths_enter {arcs : List SilentArc} {lo hi start first r : Nat} (harcs : Within lo hi arcs)
    (hstart : start < lo) (hfirst : lo ≤ first) (hr : lo ≤ r) :
    paths (⟨start, none, first⟩ :: arcs) start r = paths arcs first r := by
  have hstay : ∀ a ∈ (⟨start, none, first⟩ : SilentArc) :: arcs, lo ≤ a.source →
      a ∈ arcs ∧ lo ≤ a.target := by
    intro a ha hle
    rcases List.mem_cons.1 ha with rfl | ha
    · dsimp only at hle; omega
    · exact ⟨ha, (harcs a ha).2.1⟩
  refine Language.ext fun w => ⟨fun h => ?_, fun h => ?_⟩
  · cases h with
    | nil => omega
    | silent harc rest =>
      rcases List.mem_cons.1 harc with heq | harc
      · obtain rfl : _ = first := by simpa using heq
        exact (rest.restrict (lo ≤ ·) hfirst hstay).1
      · have := (harcs _ harc).1.1
        dsimp only at this; omega
    | read harc rest =>
      rcases List.mem_cons.1 harc with heq | harc
      · simp at heq
      · have := (harcs _ harc).1.1
        dsimp only at this; omega
  · exact .silent List.mem_cons_self (Path.mono h (List.subset_cons_self _ _))

/-- The silent arc into a part is of no use from inside the part. -/
theorem paths_inside {arcs : List SilentArc} {lo hi start first q r : Nat}
    (harcs : Within lo hi arcs) (hstart : start < lo) (hq : lo ≤ q) :
    paths (⟨start, none, first⟩ :: arcs) q r = paths arcs q r := by
  refine le_antisymm (fun w h => ?_) (paths_mono (List.subset_cons_self _ _) q r)
  refine (Path.restrict (lo ≤ ·) h hq fun a ha hle => ?_).1
  rcases List.mem_cons.1 ha with rfl | ha
  · dsimp only at hle; omega
  · exact ⟨ha, (harcs a ha).2.1⟩

theorem readsRow_nil (start fresh : Nat) : ReadsRow [] start fresh [] start fresh :=
  { lo_le_hi := Nat.le_refl _
    source := fun _ h => absurd h List.not_mem_nil
    target := fun _ h => absurd h List.not_mem_nil
    stop_bounds := Or.inl ⟨rfl, rfl⟩
    start_stop := paths_self_of_no_source fun _ h => absurd h List.not_mem_nil
    stop_stop := paths_self_of_no_source fun _ h => absurd h List.not_mem_nil }

theorem readsRow_cons {p : Pattern Nat} {ps : List (Pattern Nat)} {m : Nfa}
    {start lo mid hi stop : Nat} {arcs : List SilentArc} (hp : Reads p lo m mid)
    (hps : ReadsRow ps m.stop mid arcs stop hi) (hstart : start < lo) :
    ReadsRow (p :: ps) start lo (join [(start, m.start)] m.arcs ++ arcs) stop hi := by
  have hstop := hp.stop_bounds
  have hmid := hps.lo_le_hi
  have hfirst : ∀ a ∈ (⟨start, none, m.start⟩ : SilentArc) :: m.arcs,
      a.source < mid ∧ a.target < mid := by
    intro a ha
    rcases List.mem_cons.1 ha with rfl | ha
    · have := hp.start_eq
      dsimp only; omega
    · exact ⟨(hp.within a ha).1.2, (hp.within a ha).2.2⟩
  have hsource : ∀ a ∈ arcs, a.source = m.stop ∨ mid ≤ a.source :=
    fun a ha => (hps.source a ha).imp_right And.left
  have htarget : ∀ a ∈ arcs, mid ≤ a.target := fun a ha => (hps.target a ha).1
  have hend : stop = m.stop ∨ mid ≤ stop := by
    rcases hps.stop_bounds with ⟨_, h⟩ | ⟨_, h, _⟩
    · exact Or.inl h
    · exact Or.inr h
  refine
    { lo_le_hi := by omega
      source := ?_
      target := ?_
      stop_bounds := Or.inr ⟨List.cons_ne_nil _ _, ?_⟩
      start_stop := ?_
      stop_stop := ?_ }
  · intro a ha
    rcases List.mem_cons.1 ha with rfl | ha
    · exact Or.inl rfl
    · right
      rcases List.mem_append.1 ha with ha | ha
      · have := (hp.within a ha).1
        omega
      · have := hps.source a ha
        omega
  · intro a ha
    rcases List.mem_cons.1 ha with rfl | ha
    · have := hp.start_eq
      dsimp only; omega
    · rcases List.mem_append.1 ha with ha | ha
      · have := (hp.within a ha).2
        omega
      · have := hps.target a ha
        omega
  · have := hps.stop_bounds
    omega
  · calc paths ((⟨start, none, m.start⟩ :: m.arcs) ++ arcs) start stop
        = paths (⟨start, none, m.start⟩ :: m.arcs) start m.stop * paths arcs m.stop stop :=
          paths_series hfirst hstop.2 hsource htarget (by omega) hend
      _ = reading p * readingOfRow ps := by
          rw [paths_enter hp.within hstart hp.start_eq.ge hstop.1, hp.start_stop, hps.start_stop]
  · rcases hps.stop_bounds with ⟨rfl, rfl⟩ | ⟨hne, hle, _⟩
    · calc paths ((⟨start, none, m.start⟩ :: m.arcs) ++ arcs) m.stop m.stop
          = paths (⟨start, none, m.start⟩ :: m.arcs) m.stop m.stop * paths arcs m.stop m.stop :=
            paths_series hfirst hstop.2 hsource htarget hstop.2 (Or.inl rfl)
        _ = tail p * tailOfRow [] := by
            rw [paths_inside hp.within hstart hstop.1, hp.stop_stop, hps.stop_stop]
        _ = tailOfRow [p] := by simp only [tailOfRow, mul_one, List.isEmpty_nil, if_true]
    · have hrow : tailOfRow (p :: ps) = tailOfRow ps := by
        rw [tailOfRow, if_neg (by simpa using hne)]
      rw [hrow, ← hps.stop_stop]
      refine le_antisymm (fun w h => ?_)
        (paths_mono (List.subset_append_right (⟨start, none, m.start⟩ :: m.arcs) arcs) _ _)
      refine (Path.restrict (mid ≤ ·) h hle fun a ha hin => ?_).1
      rcases List.mem_append.1 ha with ha | ha
      · exact absurd (hfirst a ha).1 (by omega)
      · exact ⟨ha, htarget a ha⟩

theorem readsChoice_nil (start stop fresh : Nat) (hne : start ≠ stop) :
    ReadsChoice [] start stop fresh [] fresh :=
  { lo_le_hi := Nat.le_refl _
    source := fun _ h => absurd h List.not_mem_nil
    target := fun _ h => absurd h List.not_mem_nil
    start_stop := paths_eq_zero_of_no_target (fun _ h => absurd h List.not_mem_nil) hne }

/-- A part that can only be left by a silent arc from its stop reads the same up to where that arc
leads. -/
theorem paths_leave {m : Nfa} {lo hi stop q : Nat} (hm : Within lo hi m.arcs)
    (hmstop : lo ≤ m.stop) (hstop : stop < lo) (hq : lo ≤ q) :
    paths (⟨m.stop, none, stop⟩ :: m.arcs) q stop = paths m.arcs q m.stop := by
  have htarget : ∀ a ∈ m.arcs, a.target ≠ stop := fun a ha => by
    have := (hm a ha).2
    omega
  have hsource : ∀ a ∈ m.arcs, a.source ≠ stop := fun a ha => by
    have := (hm a ha).1
    omega
  have hround : paths m.arcs stop m.stop = 0 :=
    Language.ext fun w => ⟨fun h => absurd (Path.eq_of_no_source h hsource).1 (by omega),
      fun h => absurd h (Language.notMem_zero w)⟩
  rw [paths_cons_silent, paths_eq_zero_of_no_target htarget (by omega), hround,
    paths_self_of_no_source hsource, kstar_zero, zero_add, mul_one, mul_one]

/-- Of the arcs of a choice, those that can be followed from inside its first part. -/
theorem path_first_part {p : Pattern Nat} {ps : List (Pattern Nat)} {m : Nfa}
    {start stop lo mid hi q : Nat} {arcs : List SilentArc} {w : List Nat} (hp : Reads p lo m mid)
    (hps : ReadsChoice ps start stop mid arcs hi) (hstart : start < lo) (hstop : stop < lo)
    (hne : start ≠ stop) (hq : lo ≤ q ∧ q < mid)
    (h : Path (⟨start, none, m.start⟩ :: ⟨m.stop, none, stop⟩ :: (m.arcs ++ arcs)) q w stop) :
    Path m.arcs q w m.stop := by
  have hm := hp.stop_bounds
  have hleft : Path (⟨m.stop, none, stop⟩ :: m.arcs) q w stop := by
    refine (h.restrict (fun x => x = stop ∨ lo ≤ x ∧ x < mid) (Or.inr hq) fun a ha hin => ?_).1
    rcases List.mem_cons.1 ha with rfl | ha
    · dsimp only at hin; omega
    · rcases List.mem_cons.1 ha with rfl | ha
      · exact ⟨List.mem_cons_self, Or.inl rfl⟩
      · rcases List.mem_append.1 ha with ha | ha
        · exact ⟨List.mem_cons_of_mem _ ha, Or.inr (hp.within a ha).2⟩
        · have := hps.source a ha
          omega
  exact (paths_leave hp.within hm.1 hstop hq.1).le hleft

/-- And those that can be followed from the other parts. -/
theorem path_other_parts {p : Pattern Nat} {ps : List (Pattern Nat)} {m : Nfa}
    {start stop lo mid hi q : Nat} {arcs : List SilentArc} {w : List Nat} (hp : Reads p lo m mid)
    (hps : ReadsChoice ps start stop mid arcs hi) (hstart : start < lo) (hstop : stop < lo)
    (hne : start ≠ stop) (hq : q = stop ∨ mid ≤ q)
    (h : Path (⟨start, none, m.start⟩ :: ⟨m.stop, none, stop⟩ :: (m.arcs ++ arcs)) q w stop) :
    Path arcs q w stop := by
  have hm := hp.stop_bounds
  refine (h.restrict (fun x => x = stop ∨ mid ≤ x) hq fun a ha hin => ?_).1
  rcases List.mem_cons.1 ha with rfl | ha
  · dsimp only at hin; omega
  · rcases List.mem_cons.1 ha with rfl | ha
    · dsimp only at hin; omega
    · rcases List.mem_append.1 ha with ha | ha
      · have := hp.within a ha
        omega
      · exact ⟨ha, (hps.target a ha).imp_right And.left⟩

theorem readsChoice_cons {p : Pattern Nat} {ps : List (Pattern Nat)} {m : Nfa}
    {start stop lo mid hi : Nat} {arcs : List SilentArc} (hp : Reads p lo m mid)
    (hps : ReadsChoice ps start stop mid arcs hi) (hstart : start < lo) (hstop : stop < lo)
    (hne : start ≠ stop) :
    ReadsChoice (p :: ps) start stop lo
      (join [(start, m.start), (m.stop, stop)] m.arcs ++ arcs) hi := by
  have hm := hp.stop_bounds
  have hmid := hps.lo_le_hi
  have hmstart := hp.start_eq
  refine
    { lo_le_hi := by omega
      source := ?_
      target := ?_
      start_stop := ?_ }
  · intro a ha
    rcases List.mem_cons.1 ha with rfl | ha
    · exact Or.inl rfl
    · rcases List.mem_cons.1 ha with rfl | ha
      · right
        dsimp only; omega
      · rcases List.mem_append.1 ha with ha | ha
        · have := (hp.within a ha).1
          omega
        · have := hps.source a ha
          omega
  · intro a ha
    rcases List.mem_cons.1 ha with rfl | ha
    · dsimp only; omega
    · rcases List.mem_cons.1 ha with rfl | ha
      · exact Or.inl rfl
      · rcases List.mem_append.1 ha with ha | ha
        · have := (hp.within a ha).2
          omega
        · have := hps.target a ha
          omega
  · refine Language.ext fun w => ?_
    simp only [readingOfChoice, Language.mem_add]
    rw [← hp.start_stop, ← hps.start_stop]
    constructor
    · intro h
      cases h with
      | nil => exact absurd rfl hne
      | silent harc rest =>
        rcases List.mem_cons.1 harc with heq | harc
        · obtain rfl : _ = m.start := by simpa using heq
          exact Or.inl (path_first_part hp hps hstart hstop hne (by omega) rest)
        · rcases List.mem_cons.1 harc with heq | harc
          · obtain ⟨heq, _⟩ : start = m.stop ∧ _ := by simpa using heq
            omega
          · rcases List.mem_append.1 harc with harc | harc
            · have := (hp.within _ harc).1
              dsimp only at this; omega
            · have ht := (hps.target _ harc).imp_right And.left
              exact Or.inr (.silent harc (path_other_parts hp hps hstart hstop hne ht rest))
      | read harc rest =>
        rcases List.mem_cons.1 harc with heq | harc
        · simp at heq
        · rcases List.mem_cons.1 harc with heq | harc
          · simp at heq
          · rcases List.mem_append.1 harc with harc | harc
            · have := (hp.within _ harc).1
              dsimp only at this; omega
            · have ht := (hps.target _ harc).imp_right And.left
              exact Or.inr (.read harc (path_other_parts hp hps hstart hstop hne ht rest))
    · rintro (h | h)
      · have hleft : Path (⟨m.stop, none, stop⟩ :: m.arcs) m.start w stop :=
          (paths_leave hp.within hm.1 hstop hmstart.ge).ge h
        refine .silent List.mem_cons_self (hleft.mono ?_)
        intro a ha
        rcases List.mem_cons.1 ha with rfl | ha
        · exact List.mem_cons_of_mem _ List.mem_cons_self
        · exact List.mem_cons_of_mem _ (List.mem_cons_of_mem _ (List.mem_append_left _ ha))
      · exact Path.mono h fun a ha =>
          List.mem_cons_of_mem _ (List.mem_cons_of_mem _ (List.mem_append_right _ ha))

section Ends

variable {p : Pattern Nat} {lo hi : Nat} {m : Nfa}

theorem Reads.tail_mul_tail_le (h : Reads p lo m hi) : tail p * tail p ≤ tail p := by
  rw [← h.stop_stop]
  exact paths_mul_le _ _ _ _

theorem Reads.kstar_tail (h : Reads p lo m hi) : (tail p)∗ = tail p := by
  rw [← h.stop_stop, kstar_paths_self]

theorem Reads.reading_mul_tail_le (h : Reads p lo m hi) : reading p * tail p ≤ reading p := by
  rw [← h.start_stop, ← h.stop_stop]
  exact paths_mul_le _ _ _ _

/-- A tail before repetitions can be moved behind them. -/
theorem Reads.kstar_reading_mul_tail_le (h : Reads p lo m hi) :
    (reading p)∗ * tail p ≤ tail p * (reading p)∗ := by
  have hone := one_le_tail p
  refine kstar_mul_le ?_ ?_
  · simpa only [mul_one] using mul_le_mul' (le_refl (tail p)) (one_le_kstar (a := reading p))
  · calc reading p * (tail p * (reading p)∗) = reading p * tail p * (reading p)∗ :=
          (mul_assoc _ _ _).symm
      _ ≤ reading p * (reading p)∗ := mul_le_mul' h.reading_mul_tail_le le_rfl
      _ ≤ 1 * (reading p)∗ := by rw [one_mul]; exact mul_kstar_le_kstar
      _ ≤ tail p * (reading p)∗ := mul_le_mul' hone le_rfl

theorem Within.join {u v : Nat} (h : Within lo hi m.arcs) (hu : lo ≤ u ∧ u < hi)
    (hv : lo ≤ v ∧ v < hi) : Within lo hi (join [(u, v)] m.arcs) := by
  intro a ha
  rcases List.mem_cons.1 ha with rfl | ha
  · exact ⟨hu, hv⟩
  · exact h a ha

theorem paths_join (u v q r : Nat) (arcs : List SilentArc) :
    paths (join [(u, v)] arcs) q r =
      paths arcs q r + paths arcs q u * (paths arcs v u)∗ * paths arcs v r :=
  paths_cons_silent arcs u v q r

theorem reads_opt (h : Reads p lo m hi) :
    Reads (.opt p) lo ⟨m.start, m.stop, join [(m.start, m.stop)] m.arcs⟩ hi := by
  have hstop := h.stop_bounds
  have hstart := h.start_eq
  have htail := one_le_tail p
  have hhead : 1 ≤ paths m.arcs m.start m.start := one_le_paths _ _
  have hss := h.start_start_le
  have hzs := h.stop_start_le
  rw [h.stop_stop] at hss hzs
  -- Whatever goes round through the new arc is a word of the tail.
  have hround : (paths m.arcs m.stop m.start)∗ ≤ tail p := h.kstar_tail ▸ kstar_mono hzs
  have hthree : tail p * tail p * tail p ≤ tail p :=
    (mul_le_mul' h.tail_mul_tail_le le_rfl).trans h.tail_mul_tail_le
  have hread : paths m.arcs m.start m.start * (paths m.arcs m.stop m.start)∗ * tail p = tail p := by
    apply le_antisymm
    · exact (mul_le_mul' (mul_le_mul' hss hround) le_rfl).trans hthree
    · simpa only [one_mul] using
        mul_le_mul' (mul_le_mul' hhead (one_le_kstar (a := paths m.arcs m.stop m.start)))
          (le_refl (tail p))
  have hstops : paths (join [(m.start, m.stop)] m.arcs) m.stop m.stop = tail p := by
    rw [paths_join, h.stop_stop]
    refine add_eq_left_iff_le.2 ?_
    exact (mul_le_mul' (mul_le_mul' hzs hround) le_rfl).trans hthree
  have hstarts : paths (join [(m.start, m.stop)] m.arcs) m.start m.start ≤ tail p := by
    rw [paths_join]
    exact add_le hss ((mul_le_mul' (mul_le_mul' hss hround) hzs).trans hthree)
  have hback : paths (join [(m.start, m.stop)] m.arcs) m.stop m.start ≤ tail p := by
    rw [paths_join]
    exact add_le hzs ((mul_le_mul' (mul_le_mul' hzs hround) hzs).trans hthree)
  exact
    { within := h.within.join (by omega) hstop
      start_eq := hstart
      stop_bounds := hstop
      start_stop := by
        dsimp only
        rw [paths_join, h.start_stop, h.stop_stop, hread, reading]
      stop_stop := by rw [tail]; exact hstops
      start_start_le := hstarts.trans hstops.ge
      stop_start_le := hback.trans hstops.ge
      start_start_le_kstar := by
        rw [reading]
        exact (hstarts.trans (le_add_of_le_right le_rfl)).trans le_kstar }

theorem reads_plus (h : Reads p lo m hi) :
    Reads (.plus p) lo ⟨m.start, m.stop, join [(m.stop, m.start)] m.arcs⟩ hi := by
  have hstop := h.stop_bounds
  have hstart := h.start_eq
  have htail := one_le_tail p
  have hss := h.start_start_le
  have hzs := h.stop_start_le
  rw [h.stop_stop] at hss hzs
  have hkstar : (reading p)∗ ≤ tail p * (reading p)∗ := by
    simpa only [one_mul] using mul_le_mul' htail (le_refl (reading p)∗)
  have htails : tail p ≤ tail p * (reading p)∗ := by
    simpa only [mul_one] using mul_le_mul' (le_refl (tail p)) (one_le_kstar (a := reading p))
  have hstops : paths (join [(m.stop, m.start)] m.arcs) m.stop m.stop =
      tail p * (reading p)∗ := by
    calc paths (join [(m.stop, m.start)] m.arcs) m.stop m.stop
        = tail p * (1 + (reading p)∗ * reading p) := by
          rw [paths_join, h.stop_stop, h.start_stop, mul_add, mul_one, mul_assoc]
      _ = tail p * (reading p)∗ := by rw [one_add_kstar_mul]
  have hstarts : paths (join [(m.stop, m.start)] m.arcs) m.start m.start ≤
      tail p * (reading p)∗ := by
    rw [paths_join, h.start_stop]
    refine add_le (hss.trans htails) ?_
    calc reading p * (reading p)∗ * paths m.arcs m.start m.start
        ≤ (reading p)∗ * tail p := mul_le_mul' mul_kstar_le_kstar hss
      _ ≤ tail p * (reading p)∗ := h.kstar_reading_mul_tail_le
  have hback : paths (join [(m.stop, m.start)] m.arcs) m.stop m.start ≤
      tail p * (reading p)∗ := by
    rw [paths_join, h.start_stop, h.stop_stop]
    refine add_le (hzs.trans htails) ?_
    calc tail p * (reading p)∗ * paths m.arcs m.start m.start
        ≤ tail p * ((reading p)∗ * tail p) := by
          rw [mul_assoc]
          exact mul_le_mul' le_rfl (mul_le_mul' le_rfl hss)
      _ ≤ tail p * (tail p * (reading p)∗) := mul_le_mul' le_rfl h.kstar_reading_mul_tail_le
      _ = tail p * tail p * (reading p)∗ := (mul_assoc _ _ _).symm
      _ ≤ tail p * (reading p)∗ := mul_le_mul' h.tail_mul_tail_le le_rfl
  have hfirst : reading p ≤ reading p * (reading p)∗ := by
    simpa only [mul_one] using mul_le_mul' (le_refl (reading p)) (one_le_kstar (a := reading p))
  exact
    { within := h.within.join hstop (by omega)
      start_eq := hstart
      stop_bounds := hstop
      start_stop := by
        calc paths (join [(m.stop, m.start)] m.arcs) m.start m.stop
            = reading p * (1 + (reading p)∗ * reading p) := by
              rw [paths_join, h.start_stop, mul_add, mul_one, mul_assoc]
          _ = reading (.plus p) := by rw [one_add_kstar_mul, reading]
      stop_stop := by rw [tail]; exact hstops
      start_start_le := hstarts.trans hstops.ge
      stop_start_le := hback.trans hstops.ge
      start_start_le_kstar := by
        rw [reading]
        dsimp only
        rw [paths_join, h.start_stop]
        refine add_le (h.start_start_le_kstar.trans (kstar_mono hfirst)) ?_
        calc reading p * (reading p)∗ * paths m.arcs m.start m.start
            ≤ reading p * (reading p)∗ * (reading p)∗ :=
              mul_le_mul' le_rfl h.start_start_le_kstar
          _ = reading p * (reading p)∗ := by rw [mul_assoc, kstar_mul_kstar]
          _ ≤ (reading p * (reading p)∗)∗ := le_kstar }

theorem reads_star (h : Reads p lo m hi) :
    Reads (.star p) lo ⟨m.start, m.start, join [(m.stop, m.start)] m.arcs⟩ hi := by
  have hstop := h.stop_bounds
  have hstart := h.start_eq
  have hhead : 1 ≤ paths m.arcs m.start m.start := one_le_paths _ _
  have hloop : paths (join [(m.stop, m.start)] m.arcs) m.start m.start = (reading p)∗ := by
    rw [paths_join, h.start_stop]
    apply le_antisymm
    · refine add_le h.start_start_le_kstar ?_
      calc reading p * (reading p)∗ * paths m.arcs m.start m.start
          ≤ (reading p)∗ * (reading p)∗ := mul_le_mul' mul_kstar_le_kstar h.start_start_le_kstar
        _ = (reading p)∗ := kstar_mul_kstar _
    · calc (reading p)∗ = 1 + reading p * (reading p)∗ * 1 := by rw [mul_one, one_add_mul_kstar]
        _ ≤ _ := add_le_add hhead (mul_le_mul' le_rfl hhead)
  exact
    { within := h.within.join hstop (by omega)
      start_eq := hstart
      stop_bounds := by dsimp only; omega
      start_stop := by rw [reading]; exact hloop
      stop_stop := by rw [tail]; exact hloop
      start_start_le := le_rfl
      stop_start_le := le_rfl
      start_start_le_kstar := by
        rw [reading, kstar_idem]
        exact hloop.le }

end Ends

theorem reads_alt {ps : List (Pattern Nat)} {lo hi : Nat} {arcs : List SilentArc}
    (h : ReadsChoice ps lo (lo + 1) (lo + 2) arcs hi) :
    Reads (.alt ps) lo ⟨lo, lo + 1, arcs⟩ hi := by
  have hhi := h.lo_le_hi
  have hsource : ∀ a ∈ arcs, a.source ≠ lo + 1 := fun a ha => by
    have := h.source a ha
    omega
  have htarget : ∀ a ∈ arcs, a.target ≠ lo := fun a ha => by
    have := h.target a ha
    omega
  have hstop := paths_self_of_no_source hsource
  exact
    { within := fun a ha => by
        have := h.source a ha
        have := h.target a ha
        omega
      start_eq := rfl
      stop_bounds := by dsimp only; omega
      start_stop := by rw [reading]; exact h.start_stop
      stop_stop := by rw [tail]; exact hstop
      start_start_le := (paths_le_one_of_no_target htarget).trans hstop.ge
      stop_start_le := (paths_le_one_of_no_target htarget).trans hstop.ge
      start_start_le_kstar := (paths_le_one_of_no_target htarget).trans one_le_kstar }

theorem reads_seq {ps : List (Pattern Nat)} {lo hi stop : Nat} {arcs : List SilentArc}
    (h : ReadsRow ps lo (lo + 1) arcs stop hi) : Reads (.seq ps) lo ⟨lo, stop, arcs⟩ hi := by
  have hhi := h.lo_le_hi
  have htarget : ∀ a ∈ arcs, a.target ≠ lo := fun a ha => by
    have := h.target a ha
    omega
  exact
    { within := fun a ha => by
        have := h.source a ha
        have := h.target a ha
        omega
      start_eq := rfl
      stop_bounds := by
        have := h.stop_bounds
        dsimp only; omega
      start_stop := by rw [reading]; exact h.start_stop
      stop_stop := by rw [tail]; exact h.stop_stop
      start_start_le := (paths_le_one_of_no_target htarget).trans (one_le_paths _ _)
      stop_start_le := (paths_le_one_of_no_target htarget).trans (one_le_paths _ _)
      start_start_le_kstar := (paths_le_one_of_no_target htarget).trans one_le_kstar }

mutual

/-- The automaton of a pattern reads it. -/
theorem build_reads : ∀ (p : Pattern Nat) (fresh : Nat),
    Reads p fresh (build fresh p).1 (build fresh p).2
  | .leaf a, fresh => reads_leaf a fresh
  | .alt ps, fresh => by
    rw [build]
    exact reads_alt (buildChoice_reads ps fresh (fresh + 1) (fresh + 2) (by omega) (by omega)
      (by omega))
  | .seq ps, fresh => by
    rw [build]
    exact reads_seq (buildRow_reads ps fresh (fresh + 1) (by omega))
  | .opt p, fresh => by
    rw [build]
    exact reads_opt (build_reads p fresh)
  | .star p, fresh => by
    rw [build]
    exact reads_star (build_reads p fresh)
  | .plus p, fresh => by
    rw [build]
    exact reads_plus (build_reads p fresh)

theorem buildChoice_reads : ∀ (ps : List (Pattern Nat)) (start stop fresh : Nat),
    start < fresh → stop < fresh → start ≠ stop →
      ReadsChoice ps start stop fresh (buildChoice start stop fresh ps).1
        (buildChoice start stop fresh ps).2
  | [], start, stop, fresh, _, _, hne => by
    rw [buildChoice]
    exact readsChoice_nil start stop fresh hne
  | p :: ps, start, stop, fresh, hstart, hstop, hne => by
    have hp := build_reads p fresh
    have hlt := hp.lo_lt_hi
    rw [buildChoice]
    exact readsChoice_cons hp
      (buildChoice_reads ps start stop (build fresh p).2 (by omega) (by omega) hne) hstart hstop hne

theorem buildRow_reads : ∀ (ps : List (Pattern Nat)) (start fresh : Nat), start < fresh →
    ReadsRow ps start fresh (buildRow start fresh ps).1 (buildRow start fresh ps).2.1
      (buildRow start fresh ps).2.2
  | [], start, fresh, _ => by
    rw [buildRow]
    exact readsRow_nil start fresh
  | p :: ps, start, fresh, hstart => by
    have hp := build_reads p fresh
    rw [buildRow]
    exact readsRow_cons hp
      (buildRow_reads ps (build fresh p).1.stop (build fresh p).2 hp.stop_bounds.2) hstart

end

/-- The words that lead from the start of a pattern's automaton to its stop. -/
theorem paths_ofPattern (p : Pattern Nat) :
    paths (ofPattern p).arcs (ofPattern p).start (ofPattern p).stop = reading p :=
  (build_reads p 0).start_stop

end Offside.Nfa
