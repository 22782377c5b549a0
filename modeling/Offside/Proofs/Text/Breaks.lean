import Mathlib.Data.List.Basic
import Mathlib.Data.List.TakeWhile
import Offside.Text.Utf8
import Offside.Text.Lines

/-!
Where the lines of a text start. The line breaks of a text are told by the positions behind them;
the two characters of a break that is a carriage return and a line feed must not come apart when a
text is cut in two, and then the breaks of a text are those of its parts.
-/

namespace Offside.Text

/-- Byte positions behind the line breaks of a text that starts at a position. -/
def breakEndsFrom (position : Nat) : List Char → List Nat
  | [] => []
  | '\r' :: '\n' :: rest => (position + 2) :: breakEndsFrom (position + 2) rest
  | c :: rest =>
    if isBreak c then (position + c.utf8Size) :: breakEndsFrom (position + c.utf8Size) rest
    else breakEndsFrom (position + c.utf8Size) rest

def breakEnds (text : List Char) : List Nat := breakEndsFrom 0 text

/-- The same positions, counted in characters. -/
def breakStopsFrom (position : Nat) : List Char → List Nat
  | [] => []
  | '\r' :: '\n' :: rest => (position + 2) :: breakStopsFrom (position + 2) rest
  | c :: rest =>
    if isBreak c then (position + 1) :: breakStopsFrom (position + 1) rest
    else breakStopsFrom (position + 1) rest

def breakStops (text : List Char) : List Nat := breakStopsFrom 0 text

/-- How many line breaks of a text are over at a position. -/
def breaksBefore (text : List Char) (position : Nat) : Nat :=
  ((breakEnds text).filter (· ≤ position)).length

/-- The position behind the last of them, or the start of the text if there is none. -/
def lastBreakEnd (text : List Char) (position : Nat) : Nat :=
  ((breakEnds text).filter (· ≤ position)).getLastD 0

/-- Cut between these, a text is cut inside a line break. -/
def Splits (before after : List Char) : Prop :=
  before.getLast? = some '\r' ∧ after.head? = some '\n'

/-- Holds no line break, and no part of one. -/
def Unbroken (text : List Char) : Prop := ∀ c ∈ text, isBreak c = false

instance (text : List Char) : Decidable (Unbroken text) :=
  List.decidableBAll (fun c => isBreak c = false) text

theorem not_splits_nil_left (after : List Char) : ¬Splits [] after := fun h => by cases h.1

theorem not_splits_nil_right (before : List Char) : ¬Splits before [] := fun h => by cases h.2

theorem not_splits_of_unbroken {before : List Char} (h : Unbroken before) (after : List Char) :
    ¬Splits before after := by
  rintro ⟨hlast, _⟩
  exact absurd (h _ (List.mem_of_getLast? hlast)) (by decide)

/-- Only the last character before the cut and the first one after it matter. -/
theorem splits_append_left {a b : List Char} (hb : b ≠ []) {after : List Char} :
    Splits (a ++ b) after ↔ Splits b after := by
  rw [Splits, Splits, List.getLast?_append_of_ne_nil _ hb]

theorem splits_append_right {a b : List Char} (ha : a ≠ []) {before : List Char} :
    Splits before (a ++ b) ↔ Splits before a := by
  obtain ⟨c, cs, rfl⟩ := List.exists_cons_of_ne_nil ha
  rw [Splits, Splits, List.cons_append, List.head?_cons, List.head?_cons]

theorem unbroken_append {a b : List Char} : Unbroken (a ++ b) ↔ Unbroken a ∧ Unbroken b := by
  simp only [Unbroken, List.mem_append, or_imp, forall_and]

theorem unbroken_nil : Unbroken [] := fun _ h => absurd h List.not_mem_nil

theorem unbroken_cons {c : Char} {text : List Char} :
    Unbroken (c :: text) ↔ isBreak c = false ∧ Unbroken text := by
  simp only [Unbroken, List.mem_cons, forall_eq_or_imp]

theorem not_splits_singleton {c : Char} (h : isBreak c = false) (after : List Char) :
    ¬Splits [c] after :=
  not_splits_of_unbroken (unbroken_cons.2 ⟨h, unbroken_nil⟩) after

/-- What holds of neither of the two characters holds of no line break. -/
theorem eq_false_of_isBreak {p : Char → Bool} (hfeed : p '\n' = false) (hreturn : p '\r' = false)
    {c : Char} (h : isBreak c = true) : p c = false := by
  simp only [isBreak, Bool.or_eq_true, beq_iff_eq] at h
  rcases h with rfl | rfl
  · exact hfeed
  · exact hreturn

theorem unbroken_of_forall {p : Char → Bool} (hfeed : p '\n' = false) (hreturn : p '\r' = false)
    {text : List Char} (h : ∀ c ∈ text, p c = true) : Unbroken text := by
  intro c hc
  by_contra hbreak
  have hp := eq_false_of_isBreak hfeed hreturn (eq_true_of_ne_false hbreak)
  rw [h c hc] at hp
  cases hp

theorem unbroken_takeWhile {p : Char → Bool} (hfeed : p '\n' = false) (hreturn : p '\r' = false)
    (text : List Char) : Unbroken (text.takeWhile p) :=
  unbroken_of_forall hfeed hreturn fun _ hc => List.mem_takeWhile_imp hc

theorem takeWhile_append_cons {α : Type} {p : α → Bool} {a : α} (ha : p a = false)
    (as bs : List α) : (as ++ a :: bs).takeWhile p = as.takeWhile p := by
  induction as with
  | nil => simp [ha]
  | cons b as ih =>
    rw [List.cons_append, List.takeWhile_cons, List.takeWhile_cons, ih]

theorem dropWhile_append_cons {α : Type} {p : α → Bool} {a : α} (ha : p a = false)
    (as bs : List α) : (as ++ a :: bs).dropWhile p = as.dropWhile p ++ a :: bs := by
  induction as with
  | nil => simp [ha]
  | cons b as ih =>
    rw [List.cons_append, List.dropWhile_cons, List.dropWhile_cons, ih]
    split <;> rfl

theorem dropWhile_append_of_head {p : Char → Bool} {as bs : List Char} (has : ∀ c ∈ as, p c = true)
    (hbs : ∀ c ∈ bs.head?, p c = false) : (as ++ bs).dropWhile p = bs := by
  rw [List.dropWhile_append_of_pos has]
  cases bs with
  | nil => rfl
  | cons b bs => rw [List.dropWhile_cons, hbs b rfl, if_neg Bool.false_ne_true]

theorem takeWhile_append_of_head {p : Char → Bool} {as bs : List Char} (has : ∀ c ∈ as, p c = true)
    (hbs : ∀ c ∈ bs.head?, p c = false) : (as ++ bs).takeWhile p = as := by
  rw [List.takeWhile_append_of_pos has]
  cases bs with
  | nil => rw [List.takeWhile_nil, List.append_nil]
  | cons b bs => rw [List.takeWhile_cons, hbs b rfl, if_neg Bool.false_ne_true, List.append_nil]

theorem forall_mem_head?_cons {α : Type} {p : α → Prop} {a : α} {as : List α} :
    (∀ b ∈ (a :: as).head?, p b) ↔ p a := by
  simp only [List.head?_cons, Option.mem_some_iff, forall_eq']

theorem head?_dropWhile {p : Char → Bool} (text : List Char) :
    ∀ c ∈ (text.dropWhile p).head?, p c = false := by
  intro c hc
  have := List.head?_dropWhile_not p text
  rw [Option.mem_def.1 hc] at this
  simpa using this

theorem lineBreak?_eq_some {text br rest : List Char} (h : lineBreak? text = some (br, rest)) :
    text = br ++ rest ∧ ¬Splits br rest ∧ (br = ['\r', '\n'] ∨ br = ['\r'] ∨ br = ['\n']) := by
  unfold lineBreak? at h
  split at h
  · cases h
    refine ⟨rfl, ?_, Or.inl rfl⟩
    rintro ⟨hlast, _⟩
    cases hlast
  · next hfeed =>
    cases h
    refine ⟨rfl, ?_, Or.inr (Or.inl rfl)⟩
    rintro ⟨_, hhead⟩
    obtain ⟨rest', rfl⟩ := List.head?_eq_some_iff.1 hhead
    exact hfeed rest' rfl
  · cases h
    refine ⟨rfl, ?_, Or.inr (Or.inr rfl)⟩
    rintro ⟨hlast, _⟩
    cases hlast
  · cases h

theorem exists_lineBreak? {c : Char} (h : isBreak c = true) (rest : List Char) :
    ∃ br left, lineBreak? (c :: rest) = some (br, left) := by
  rw [isBreak, Bool.or_eq_true, beq_iff_eq, beq_iff_eq] at h
  rcases h with rfl | rfl
  · exact ⟨_, _, rfl⟩
  · cases rest with
    | nil => exact ⟨_, _, rfl⟩
    | cons d rest =>
      unfold lineBreak?
      split
      · exact ⟨_, _, rfl⟩
      · exact ⟨_, _, rfl⟩
      · exact ⟨_, _, rfl⟩
      · next hlone _ => exact absurd rfl (hlone _)

theorem getLastD_append {α : Type} (as bs : List α) (d : α) :
    (as ++ bs).getLastD d = bs.getLastD (as.getLastD d) := by
  rw [List.getLastD_eq_getLast?, List.getLastD_eq_getLast?, List.getLastD_eq_getLast?,
    List.getLast?_append]
  cases bs.getLast? <;> rfl

theorem breakEndsFrom_joined (position : Nat) (rest : List Char) :
    breakEndsFrom position ('\r' :: '\n' :: rest) =
      (position + 2) :: breakEndsFrom (position + 2) rest := by
  rw [breakEndsFrom]

theorem breakEndsFrom_cons (position : Nat) {c : Char} {rest : List Char}
    (h : ¬Splits [c] rest) :
    breakEndsFrom position (c :: rest) =
      if isBreak c then (position + c.utf8Size) :: breakEndsFrom (position + c.utf8Size) rest
      else breakEndsFrom (position + c.utf8Size) rest := by
  rw [breakEndsFrom.eq_def]
  split
  · next heq => cases heq
  · next heq =>
    cases heq
    exact absurd ⟨rfl, rfl⟩ h
  · next heq =>
    cases heq
    rfl

theorem not_splits_tail {c : Char} {a b : List Char} (h : ¬Splits (c :: a) b) : ¬Splits a b := by
  rintro ⟨hlast, hhead⟩
  have hne : a ≠ [] := by
    rintro rfl
    cases hlast
  exact h ((splits_append_left (a := [c]) hne).2 ⟨hlast, hhead⟩)

theorem not_splits_head {c : Char} {a b : List Char} (h : ¬Splits (c :: a) b)
    (hjoined : ∀ rest, c = '\r' → a = '\n' :: rest → False) : ¬Splits [c] (a ++ b) := by
  rintro ⟨hlast, hhead⟩
  cases a with
  | nil => exact h ⟨hlast, hhead⟩
  | cons d a =>
    obtain rfl : c = '\r' := Option.some.inj hlast
    obtain rfl : d = '\n' := Option.some.inj hhead
    exact hjoined a rfl rfl

theorem not_splits_of_not_joined {c : Char} {a : List Char}
    (hjoined : ∀ rest, c = '\r' → a = '\n' :: rest → False) : ¬Splits [c] a := by
  have hsplits := not_splits_head (not_splits_nil_right (c :: a)) hjoined
  rwa [List.append_nil] at hsplits

/-- The breaks of a text are those of its parts, unless it is cut inside one. -/
theorem breakEndsFrom_append (position : Nat) {a b : List Char} (h : ¬Splits a b) :
    breakEndsFrom position (a ++ b) =
      breakEndsFrom position a ++ breakEndsFrom (position + byteLength a) b := by
  fun_induction breakEndsFrom position a with
  | case1 => rfl
  | case2 position rest ih =>
    have hrest := ih (not_splits_tail (not_splits_tail h))
    have hlength : position + byteLength ('\r' :: '\n' :: rest) =
        position + 2 + byteLength rest := by
      have hreturn : '\r'.utf8Size = 1 := rfl
      have hfeed : '\n'.utf8Size = 1 := rfl
      rw [byteLength_cons, byteLength_cons, hreturn, hfeed]
      omega
    rw [List.cons_append, List.cons_append, breakEndsFrom_joined, hrest, hlength, List.cons_append]
  | case3 position c rest hjoined hbreak ih =>
    rw [List.cons_append, breakEndsFrom_cons _ (not_splits_head h hjoined), if_pos hbreak,
      ih (not_splits_tail h), byteLength_cons, Nat.add_assoc, List.cons_append]
  | case4 position c rest hjoined hbreak ih =>
    rw [List.cons_append, breakEndsFrom_cons _ (not_splits_head h hjoined), if_neg hbreak,
      ih (not_splits_tail h), byteLength_cons, Nat.add_assoc]

theorem breakEndsFrom_of_unbroken (position : Nat) {text : List Char} (h : Unbroken text) :
    breakEndsFrom position text = [] := by
  induction text generalizing position with
  | nil => rfl
  | cons c text ih =>
    obtain ⟨hc, htext⟩ := unbroken_cons.1 h
    rw [breakEndsFrom_cons _ (not_splits_singleton hc text), hc, if_neg Bool.false_ne_true,
      ih _ htext]

/-- What holds no break adds none behind a text. -/
theorem breakEnds_append_of_unbroken (a : List Char) {b : List Char} (h : Unbroken b) :
    breakEnds (a ++ b) = breakEnds a := by
  have hcut : ¬Splits a b := by
    rintro ⟨_, hhead⟩
    exact absurd (h _ (List.mem_of_head? hhead)) (by decide)
  rw [breakEnds, breakEndsFrom_append 0 hcut, breakEndsFrom_of_unbroken _ h, List.append_nil,
    breakEnds]

theorem breakStopsFrom_joined (position : Nat) (rest : List Char) :
    breakStopsFrom position ('\r' :: '\n' :: rest) =
      (position + 2) :: breakStopsFrom (position + 2) rest := by
  rw [breakStopsFrom]

theorem breakStopsFrom_cons (position : Nat) {c : Char} {rest : List Char}
    (h : ¬Splits [c] rest) :
    breakStopsFrom position (c :: rest) =
      if isBreak c then (position + 1) :: breakStopsFrom (position + 1) rest
      else breakStopsFrom (position + 1) rest := by
  rw [breakStopsFrom.eq_def]
  split
  · next heq => cases heq
  · next heq =>
    cases heq
    exact absurd ⟨rfl, rfl⟩ h
  · next heq =>
    cases heq
    rfl

/-- In characters too the breaks of a text are those of its parts. -/
theorem breakStopsFrom_append (position : Nat) {a b : List Char} (h : ¬Splits a b) :
    breakStopsFrom position (a ++ b) =
      breakStopsFrom position a ++ breakStopsFrom (position + a.length) b := by
  fun_induction breakStopsFrom position a with
  | case1 => rfl
  | case2 position rest ih =>
    have hlength : position + ('\r' :: '\n' :: rest).length = position + 2 + rest.length := by
      simp only [List.length_cons]
      omega
    rw [List.cons_append, List.cons_append, breakStopsFrom_joined,
      ih (not_splits_tail (not_splits_tail h)), hlength, List.cons_append]
  | case3 position c rest hjoined hbreak ih =>
    have hlength : position + (c :: rest).length = position + 1 + rest.length := by
      rw [List.length_cons]
      omega
    rw [List.cons_append, breakStopsFrom_cons _ (not_splits_head h hjoined), if_pos hbreak,
      ih (not_splits_tail h), hlength, List.cons_append]
  | case4 position c rest hjoined hbreak ih =>
    have hlength : position + (c :: rest).length = position + 1 + rest.length := by
      rw [List.length_cons]
      omega
    rw [List.cons_append, breakStopsFrom_cons _ (not_splits_head h hjoined), if_neg hbreak,
      ih (not_splits_tail h), hlength]

theorem breakStopsFrom_eq_map (position : Nat) (text : List Char) :
    breakStopsFrom position text = (breakStops text).map (position + ·) := by
  have hshift : ∀ n, breakStopsFrom (position + n) text =
      (breakStopsFrom n text).map (position + ·) := by
    intro n
    fun_induction breakStopsFrom n text with
    | case1 => rfl
    | case2 n rest ih =>
      rw [breakStopsFrom_joined, List.map_cons, ← ih, Nat.add_assoc]
    | case3 n c rest hjoined hbreak ih =>
      rw [breakStopsFrom_cons _ (not_splits_of_not_joined hjoined), if_pos hbreak, List.map_cons,
        ← ih, Nat.add_assoc]
    | case4 n c rest hjoined hbreak ih =>
      rw [breakStopsFrom_cons _ (not_splits_of_not_joined hjoined), if_neg hbreak, ← ih,
        Nat.add_assoc]
  exact hshift 0

theorem breakStops_joined (rest : List Char) :
    breakStops ('\r' :: '\n' :: rest) = 2 :: (breakStops rest).map (2 + ·) := by
  rw [breakStops, breakStopsFrom_joined, breakStopsFrom_eq_map]

theorem breakStops_cons {c : Char} {rest : List Char} (h : ¬Splits [c] rest) :
    breakStops (c :: rest) =
      if isBreak c then 1 :: (breakStops rest).map (1 + ·) else (breakStops rest).map (1 + ·) := by
  rw [breakStops, breakStopsFrom_cons _ h, breakStopsFrom_eq_map]

theorem breakStops_of_unbroken {text : List Char} (h : Unbroken text) : breakStops text = [] := by
  induction text with
  | nil => rfl
  | cons c text ih =>
    obtain ⟨hc, htext⟩ := unbroken_cons.1 h
    rw [breakStops_cons (not_splits_singleton hc text), hc, if_neg Bool.false_ne_true,
      ih htext, List.map_nil]

/-- How many bytes there are up to a place is told by what stands before it. -/
theorem map_byteLength_take (position : Nat) (front rest : List Char) (stops : List Nat) :
    ((stops.map (front.length + ·)).map fun n =>
        position + byteLength ((front ++ rest).take n)) =
      stops.map fun n => position + byteLength front + byteLength (rest.take n) := by
  rw [List.map_map]
  refine List.map_congr_left fun n _ => ?_
  rw [Function.comp_apply, List.take_length_add_append, byteLength_append, Nat.add_assoc]

/-- A break is over behind so many bytes as the characters up to there take up. -/
theorem breakEndsFrom_eq_map (position : Nat) (text : List Char) :
    breakEndsFrom position text =
      (breakStops text).map fun n => position + byteLength (text.take n) := by
  have hsize : ∀ c : Char, byteLength [c] = c.utf8Size := fun c => by rw [byteLength_cons]; rfl
  fun_induction breakEndsFrom position text with
  | case1 => rfl
  | case2 position rest ih =>
    rw [ih, breakStops_joined, List.map_cons]
    exact congrArg _ (map_byteLength_take position ['\r', '\n'] rest _).symm
  | case3 position c rest hjoined hbreak ih =>
    rw [ih, breakStops_cons (not_splits_of_not_joined hjoined), if_pos hbreak, List.map_cons,
      ← hsize]
    exact congrArg _ (map_byteLength_take position [c] rest _).symm
  | case4 position c rest hjoined hbreak ih =>
    rw [ih, breakStops_cons (not_splits_of_not_joined hjoined), if_neg hbreak, ← hsize]
    exact (map_byteLength_take position [c] rest _).symm

/-- A break ends behind its start, and not behind the end of the text. -/
theorem mem_breakEndsFrom {position e : Nat} {text : List Char}
    (h : e ∈ breakEndsFrom position text) : position < e ∧ e ≤ position + byteLength text := by
  fun_induction breakEndsFrom position text with
  | case1 => cases h
  | case2 position rest ih =>
    have hreturn : '\r'.utf8Size = 1 := rfl
    have hfeed : '\n'.utf8Size = 1 := rfl
    rw [byteLength_cons, byteLength_cons, hreturn, hfeed]
    rcases List.mem_cons.1 h with rfl | h
    · omega
    · have := ih h
      omega
  | case3 position c rest _ _ ih =>
    have := c.utf8Size_pos
    rw [byteLength_cons]
    rcases List.mem_cons.1 h with rfl | h
    · omega
    · have := ih h
      omega
  | case4 position c rest _ _ ih =>
    rw [byteLength_cons]
    have := ih h
    omega

/-- The positions rise. -/
theorem pairwise_breakEndsFrom (position : Nat) (text : List Char) :
    (breakEndsFrom position text).Pairwise (· < ·) := by
  fun_induction breakEndsFrom position text with
  | case1 => exact .nil
  | case2 position rest ih => exact .cons (fun e he => (mem_breakEndsFrom he).1) ih
  | case3 position c rest _ _ ih => exact .cons (fun e he => (mem_breakEndsFrom he).1) ih
  | case4 position c rest _ _ ih => exact ih

/-- The last one is the greatest of them. -/
theorem le_getLastD_of_pairwise {ends : List Nat} (h : ends.Pairwise (· < ·)) {e : Nat}
    (he : e ∈ ends) (d : Nat) : e ≤ ends.getLastD d := by
  obtain rfl | ⟨front, last, rfl⟩ := ends.eq_nil_or_concat'
  · cases he
  · rw [List.getLastD_concat]
    obtain ⟨_, _, hlast⟩ := List.pairwise_append.1 h
    rcases List.mem_append.1 he with he | he
    · exact (hlast e he last (List.mem_singleton_self last)).le
    · exact (List.mem_singleton.1 he).le

/-- A break takes up one of its characters at least. -/
theorem length_breakEndsFrom_le_countP (position : Nat) (text : List Char) :
    (breakEndsFrom position text).length ≤ text.countP isBreak := by
  fun_induction breakEndsFrom position text with
  | case1 => exact Nat.le_refl _
  | case2 position rest ih =>
    have hreturn : isBreak '\r' = true := rfl
    rw [List.length_cons, List.countP_cons_of_pos hreturn, List.countP_cons]
    omega
  | case3 position c rest _ hbreak ih =>
    rw [List.length_cons, List.countP_cons_of_pos hbreak]
    exact Nat.succ_le_succ ih
  | case4 position c rest _ hbreak ih =>
    rw [List.countP_cons_of_neg hbreak]
    exact ih

theorem length_breakEndsFrom_le (position : Nat) (text : List Char) :
    (breakEndsFrom position text).length ≤ text.length :=
  Nat.le_trans (length_breakEndsFrom_le_countP position text) List.countP_le_length

/-- A text with as many breaks as characters holds nothing else. -/
theorem isBreak_of_length_le {position : Nat} {text : List Char}
    (h : text.length ≤ (breakEndsFrom position text).length) : ∀ c ∈ text, isBreak c = true :=
  List.countP_eq_length.1
    (Nat.le_antisymm List.countP_le_length
      (Nat.le_trans h (length_breakEndsFrom_le_countP position text)))

theorem length_le_byteLength (text : List Char) : text.length ≤ byteLength text := by
  induction text with
  | nil => exact Nat.le_refl _
  | cons c text ih =>
    rw [byteLength_cons, List.length_cons, Nat.add_comm]
    exact Nat.add_le_add c.utf8Size_pos ih

theorem length_breakEnds_le (text : List Char) : (breakEnds text).length ≤ byteLength text :=
  Nat.le_trans (length_breakEndsFrom_le 0 text) (length_le_byteLength text)

/-- Nor does one with as many breaks as bytes. -/
theorem isBreak_of_byteLength_le {text : List Char}
    (h : byteLength text ≤ (breakEnds text).length) : ∀ c ∈ text, isBreak c = true :=
  isBreak_of_length_le (Nat.le_trans (length_le_byteLength text) h)

/-- The breaks before a place of a text are those of the text before it. -/
theorem filter_breakEnds {before rest : List Char} (h : ¬Splits before rest) :
    (breakEnds (before ++ rest)).filter (· ≤ byteLength before) = breakEnds before := by
  rw [breakEnds, breakEndsFrom_append 0 h, List.filter_append, Nat.zero_add]
  have hbefore : (breakEndsFrom 0 before).filter (· ≤ byteLength before) =
      breakEndsFrom 0 before := by
    refine List.filter_eq_self.2 fun e he => decide_eq_true ?_
    have := mem_breakEndsFrom he
    omega
  have hrest : (breakEndsFrom (byteLength before) rest).filter (· ≤ byteLength before) = [] := by
    refine List.filter_eq_nil_iff.2 fun e he => ?_
    have := mem_breakEndsFrom he
    rw [decide_eq_true_eq]
    omega
  rw [hbefore, hrest, List.append_nil, breakEnds]

theorem breaksBefore_append {before rest : List Char} (h : ¬Splits before rest) :
    breaksBefore (before ++ rest) (byteLength before) = (breakEnds before).length := by
  rw [breaksBefore, filter_breakEnds h]

theorem lastBreakEnd_append {before rest : List Char} (h : ¬Splits before rest) :
    lastBreakEnd (before ++ rest) (byteLength before) = (breakEnds before).getLastD 0 := by
  rw [lastBreakEnd, filter_breakEnds h]

theorem lastBreakEnd_le (text : List Char) (position : Nat) :
    lastBreakEnd text position ≤ position := by
  unfold lastBreakEnd
  rw [List.getLastD_eq_getLast?]
  cases hlast : ((breakEnds text).filter (· ≤ position)).getLast? with
  | none => exact Nat.zero_le _
  | some e =>
    have hmem := (List.mem_filter.1 (List.mem_of_getLast? hlast)).2
    exact of_decide_eq_true hmem

/-- Behind a line break and before the next one, the same breaks are over. -/
theorem breaksBefore_lastBreakEnd (text : List Char) (position : Nat) :
    breaksBefore text (lastBreakEnd text position) = breaksBefore text position := by
  unfold breaksBefore
  congr 1
  refine List.filter_congr fun e he => decide_eq_decide.2 ⟨fun hle => ?_, fun hle => ?_⟩
  · exact Nat.le_trans hle (lastBreakEnd_le text position)
  · have hsorted : ((breakEnds text).filter (· ≤ position)).Pairwise (· < ·) :=
      (pairwise_breakEndsFrom 0 text).filter _
    exact le_getLastD_of_pairwise hsorted (List.mem_filter.2 ⟨he, decide_eq_true hle⟩) 0

end Offside.Text
