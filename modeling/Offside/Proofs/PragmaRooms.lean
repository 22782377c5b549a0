import Mathlib.Order.Bounds.Basic
import Mathlib.Order.Lattice.Nat
import Offside.PragmaBuffer

/-!
How much a buffer of pragmas comes to hold. Its room is doubled whenever it is full, as long as the
limit admits the double. So the room is what was asked for at first times a power of two, and where
the limit stops it, it is the greatest such number that the limit admits: as many entries are
stored, and all others are refused.
-/

namespace Offside.PragmaBuffer

/-- The rooms that a buffer can have: the first one, which no limit stops, and its doubles. -/
def rooms (capacity : Nat) (limit? : Option Nat) : Set Nat :=
  {m | ∃ k, m = max 1 capacity * 2 ^ k ∧ (k = 0 ∨ ∀ limit ∈ limit?, m ≤ limit)}

/-- Some room is enough for so many entries. -/
def Admits (capacity : Nat) (limit? : Option Nat) (n : Nat) : Prop :=
  ∃ m ∈ rooms capacity limit?, n ≤ m

/-- The doubles that have to be reserved to store so many entries can be: a buffer asks for one
where it is full. -/
def Reserves (capacity : Nat) (limit? : Option Nat) (n : Nat) : Prop :=
  ∀ m ∈ rooms capacity limit?, m < 2 * n → m < unallocatable

/-- Stores entries one after the other. An entry that is refused leaves the buffer as it is. -/
def storeAll : List PragmaEntry → PragmaBuffer → List (Except AllocError Unit) × PragmaBuffer
  | [], b => ([], b)
  | e :: es, b =>
    match b.push e.line e.text with
    | .ok b' => (.ok () :: (storeAll es b').1, (storeAll es b').2)
    | .error error => (.error error :: (storeAll es b).1, (storeAll es b).2)

/-- Stores entries up to one that is refused. -/
def store (es : List PragmaEntry) (b : PragmaBuffer) : Except AllocError PragmaBuffer :=
  es.foldlM (fun b e => b.push e.line e.text) b

/-- A buffer that was made with a capacity and a limit, and may have grown. -/
structure Grown (capacity : Nat) (limit? : Option Nat) (b : PragmaBuffer) : Prop where
  limit : b.limit? = limit?
  room : b.capacity ∈ rooms capacity limit?
  size_le : b.size ≤ b.capacity

variable {capacity m n limit : Nat} {limit? : Option Nat} {b b' : PragmaBuffer}
  {es es' : List PragmaEntry}

theorem first_mem_rooms (capacity : Nat) (limit? : Option Nat) :
    max 1 capacity ∈ rooms capacity limit? :=
  ⟨0, by rw [Nat.pow_zero, Nat.mul_one], Or.inl rfl⟩

theorem pos_of_mem_rooms (h : m ∈ rooms capacity limit?) : 0 < m := by
  obtain ⟨k, rfl, -⟩ := h
  exact Nat.mul_pos (Nat.lt_of_lt_of_le Nat.one_pos (Nat.le_max_left _ _)) (Nat.two_pow_pos k)

theorem double_mem_rooms (h : m ∈ rooms capacity limit?)
    (hlimit : ∀ limit ∈ limit?, 2 * m ≤ limit) : 2 * m ∈ rooms capacity limit? := by
  obtain ⟨k, rfl, -⟩ := h
  refine ⟨k + 1, ?_, Or.inr hlimit⟩
  rw [Nat.pow_succ, Nat.mul_comm 2, Nat.mul_assoc]

/-- Where there is room for one more than a full buffer holds, the limit admits the double. -/
theorem double_le_of_admits (h : m ∈ rooms capacity limit?)
    (hadmits : Admits capacity limit? (m + 1)) : ∀ limit ∈ limit?, 2 * m ≤ limit := by
  obtain ⟨k, rfl, -⟩ := h
  obtain ⟨_, ⟨j, rfl, hj⟩, hlt⟩ := hadmits
  have hkj : k < j := by
    rw [← Nat.pow_lt_pow_iff_right Nat.one_lt_two]
    exact Nat.lt_of_mul_lt_mul_left hlt
  intro limit hlimit
  calc 2 * (max 1 capacity * 2 ^ k)
      = max 1 capacity * 2 ^ (k + 1) := by rw [Nat.pow_succ, Nat.mul_comm 2, Nat.mul_assoc]
    _ ≤ max 1 capacity * 2 ^ j :=
      Nat.mul_le_mul_left _ (Nat.pow_le_pow_right Nat.two_pos hkj)
    _ ≤ limit := (hj.resolve_left (Nat.ne_of_gt (Nat.zero_lt_of_lt hkj))) limit hlimit

theorem Admits.mono (h : Admits capacity limit? n) {n' : Nat} (hle : n' ≤ n) :
    Admits capacity limit? n' := by
  obtain ⟨m, hm, hn⟩ := h
  exact ⟨m, hm, hle.trans hn⟩

theorem admits_iff (h : IsGreatest (rooms capacity limit?) m) :
    Admits capacity limit? n ↔ n ≤ m :=
  ⟨fun ⟨_, hm', hn⟩ => hn.trans (h.2 hm'), fun hn => ⟨m, h.1, hn⟩⟩

/-- Without a limit there is room for any number of entries. -/
theorem admits_none (capacity n : Nat) : Admits capacity none n := by
  refine ⟨max 1 capacity * 2 ^ n, ⟨n, rfl, Or.inr fun _ h => by cases h⟩, ?_⟩
  calc n ≤ 2 ^ n := Nat.le_of_lt Nat.lt_two_pow_self
    _ ≤ max 1 capacity * 2 ^ n :=
      Nat.le_mul_of_pos_left _ (pos_of_mem_rooms (first_mem_rooms _ none))

/-- Under a limit there is a greatest room. -/
theorem exists_isGreatest_rooms (capacity limit : Nat) :
    ∃ m, IsGreatest (rooms capacity (some limit)) m := by
  have hbdd : BddAbove (rooms capacity (some limit)) := by
    refine ⟨max (max 1 capacity) limit, ?_⟩
    rintro _ ⟨k, rfl, rfl | hk⟩
    · rw [Nat.pow_zero, Nat.mul_one]
      exact Nat.le_max_left _ _
    · exact (hk limit rfl).trans (Nat.le_max_right _ _)
  exact ⟨_, Nat.sSup_mem ⟨_, first_mem_rooms _ _⟩ hbdd, fun _ hm => le_csSup hbdd hm⟩

theorem Reserves.mono (h : Reserves capacity limit? n) {n' : Nat} (hle : n' ≤ n) :
    Reserves capacity limit? n' :=
  fun m hm hlt => h m hm (hlt.trans_le (Nat.mul_le_mul_left 2 hle))

theorem exceeds_eq_none_iff : exceeds n limit? = none ↔ ∀ limit ∈ limit?, n ≤ limit := by
  cases limit? with
  | none => simp [exceeds]
  | some limit => simp [exceeds]

theorem exceeds_eq_some_iff : exceeds n limit? = some limit ↔ limit? = some limit ∧ limit < n := by
  cases limit? with
  | none => simp [exceeds]
  | some limit' =>
    by_cases hlt : limit' < n
    · have hexceeds : exceeds n (some limit') = some limit' := if_pos hlt
      rw [hexceeds]
      refine ⟨fun h => ⟨h, ?_⟩, And.left⟩
      obtain rfl := Option.some.inj h
      exact hlt
    · have hexceeds : exceeds n (some limit') = none := if_neg hlt
      rw [hexceeds]
      refine iff_of_false (by simp) fun ⟨h, hlt'⟩ => hlt ?_
      obtain rfl := Option.some.inj h
      exact hlt'

theorem ofCapacity_eq_ok (limit? : Option Nat) (h : max 1 capacity < unallocatable) :
    ofCapacity capacity limit? = .ok ⟨#[], max 1 capacity, limit?⟩ :=
  if_neg (Nat.not_le.2 h)

theorem grown_ofCapacity (h : ofCapacity capacity limit? = .ok b) : Grown capacity limit? b := by
  unfold ofCapacity at h
  split at h
  · cases h
  · cases h
    exact ⟨rfl, first_mem_rooms _ _, Nat.zero_le _⟩

theorem store_cons (e : PragmaEntry) (es : List PragmaEntry) (b : PragmaBuffer) :
    store (e :: es) b = b.push e.line e.text >>= store es := rfl

theorem store_of_storeAll (h : storeAll es b = (List.replicate es.length (.ok ()), b')) :
    store es b = .ok b' := by
  induction es generalizing b with
  | nil => exact congrArg Except.ok (Prod.mk.inj h).2
  | cons e es ih =>
    rw [store_cons]
    unfold storeAll at h
    rw [List.length_cons, List.replicate_succ] at h
    split at h
    · next b'' hpush =>
      obtain ⟨hanswers, hstate⟩ := Prod.mk.inj h
      rw [hpush]
      exact ih (Prod.ext (List.cons.inj hanswers).2 hstate)
    · cases (List.cons.inj (Prod.mk.inj h).1).1

theorem storeAll_append (es es' : List PragmaEntry) (b : PragmaBuffer) :
    storeAll (es ++ es') b = ((storeAll es b).1 ++ (storeAll es' (storeAll es b).2).1,
      (storeAll es' (storeAll es b).2).2) := by
  induction es generalizing b with
  | nil => rfl
  | cons e es ih =>
    rw [List.cons_append, storeAll, storeAll]
    cases b.push e.line e.text with
    | ok b' => simp only [ih, List.cons_append]
    | error error => simp only [ih, List.cons_append]

namespace Grown

/-- An entry for which there is room is stored. -/
theorem push_ok (h : Grown capacity limit? b) (hadmits : Admits capacity limit? (b.size + 1))
    (hreserves : Reserves capacity limit? (b.size + 1)) (line : Nat) (text : String) :
    ∃ b', b.push line text = .ok b' ∧ Grown capacity limit? b' ∧ b'.size = b.size + 1 := by
  unfold push
  by_cases hfull : b.entries.size = b.capacity
  · have hadmits' : Admits capacity limit? (b.capacity + 1) := hfull ▸ hadmits
    have hdouble := double_le_of_admits h.room hadmits'
    have hroom := double_mem_rooms h.room hdouble
    have hpos := pos_of_mem_rooms h.room
    have hlt : 2 * b.capacity < 2 * (b.size + 1) := by
      rw [size, hfull]
      omega
    have hgrow : b.grow = .ok { b with capacity := 2 * b.capacity } := by
      rw [grow, h.limit, exceeds_eq_none_iff.2 hdouble]
      exact if_neg (Nat.not_le.2 (hreserves _ hroom hlt))
    rw [if_pos hfull, hgrow]
    refine ⟨_, rfl, ⟨h.limit, hroom, ?_⟩, Array.size_push _⟩
    show (b.entries.push _).size ≤ 2 * b.capacity
    rw [Array.size_push]
    omega
  · have hlt : b.size < b.capacity := Nat.lt_of_le_of_ne h.size_le hfull
    rw [if_neg hfull]
    refine ⟨_, rfl, ⟨h.limit, h.room, ?_⟩, Array.size_push _⟩
    show (b.entries.push _).size ≤ b.capacity
    rw [Array.size_push]
    exact hlt

/-- An entry for which there is no room is refused for the sake of the limit. -/
theorem push_error (h : Grown capacity limit? b) (hno : ¬Admits capacity limit? (b.size + 1))
    (line : Nat) (text : String) :
    ∃ limit, limit? = some limit ∧ b.push line text = .error (.limitReached limit) := by
  have hfull : b.entries.size = b.capacity := by
    by_contra hne
    exact hno ⟨b.capacity, h.room, Nat.lt_of_le_of_ne h.size_le hne⟩
  have hexceeds : exceeds (2 * b.capacity) limit? ≠ none := by
    intro hnone
    have hroom := double_mem_rooms h.room (exceeds_eq_none_iff.1 hnone)
    have hpos := pos_of_mem_rooms h.room
    refine hno ⟨_, hroom, ?_⟩
    rw [size, hfull]
    omega
  obtain ⟨limit, hlimit⟩ := Option.ne_none_iff_exists'.1 hexceeds
  refine ⟨limit, (exceeds_eq_some_iff.1 hlimit).1, ?_⟩
  rw [push, if_pos hfull, grow, h.limit, hlimit]
  rfl

/-- Entries for all of which there is room are stored. -/
theorem storeAll_ok (h : Grown capacity limit? b) (es : List PragmaEntry)
    (hadmits : Admits capacity limit? (b.size + es.length))
    (hreserves : Reserves capacity limit? (b.size + es.length)) :
    ∃ b', storeAll es b = (List.replicate es.length (.ok ()), b') ∧ Grown capacity limit? b' ∧
      b'.toList = b.toList ++ es ∧ b'.size = b.size + es.length := by
  induction es generalizing b with
  | nil => exact ⟨b, rfl, h, (List.append_nil _).symm, rfl⟩
  | cons e es ih =>
    rw [List.length_cons] at hadmits hreserves
    obtain ⟨b', hpush, hgrown, hsize⟩ :=
      h.push_ok (hadmits.mono (by omega)) (hreserves.mono (by omega)) e.line e.text
    have htotal : b'.size + es.length = b.size + (es.length + 1) := by omega
    obtain ⟨b'', hstore, hgrown', hlist, hsize'⟩ :=
      ih hgrown (htotal ▸ hadmits) (htotal ▸ hreserves)
    refine ⟨b'', ?_, hgrown', ?_, hsize'.trans htotal⟩
    · simp only [storeAll, hpush, hstore]
      rfl
    · rw [hlist, toList_push hpush, List.append_assoc]
      rfl

/-- Once an entry is refused, so is every later one. -/
theorem storeAll_error (h : Grown capacity (some limit) b)
    (hno : ¬Admits capacity (some limit) (b.size + 1)) :
    storeAll es b = (List.replicate es.length (.error (.limitReached limit)), b) := by
  induction es with
  | nil => rfl
  | cons e es ih =>
    obtain ⟨limit', hlimit, hpush⟩ := h.push_error hno e.line e.text
    obtain rfl := Option.some.inj hlimit
    simp only [storeAll, hpush, ih]
    rfl

/-- Up to the first refusal, the entries that there is room for are stored. -/
theorem store_ok (h : Grown capacity limit? b) (es : List PragmaEntry)
    (hadmits : Admits capacity limit? (b.size + es.length))
    (hreserves : Reserves capacity limit? (b.size + es.length)) :
    ∃ b', store es b = .ok b' ∧ b'.toList = b.toList ++ es := by
  obtain ⟨b', hstore, -, hlist, -⟩ := h.storeAll_ok es hadmits hreserves
  exact ⟨b', store_of_storeAll hstore, hlist⟩

theorem store_error (h : Grown capacity limit? b) (es : List PragmaEntry)
    (hno : ¬Admits capacity limit? (b.size + es.length))
    (hreserves : Reserves capacity limit? (b.size + es.length)) :
    ∃ error, store es b = .error error := by
  induction es generalizing b with
  | nil => exact absurd ⟨b.capacity, h.room, h.size_le⟩ hno
  | cons e es ih =>
    rw [List.length_cons] at hno hreserves
    by_cases hadmits : Admits capacity limit? (b.size + 1)
    · obtain ⟨b', hpush, hgrown, hsize⟩ :=
        h.push_ok hadmits (hreserves.mono (by omega)) e.line e.text
      have htotal : b'.size + es.length = b.size + (es.length + 1) := by omega
      obtain ⟨error, hstore⟩ := ih hgrown (htotal ▸ hno) (htotal ▸ hreserves)
      exact ⟨error, by rw [store_cons, hpush]; exact hstore⟩
    · obtain ⟨limit, -, hpush⟩ := h.push_error hadmits e.line e.text
      exact ⟨_, by rw [store_cons, hpush]; rfl⟩

end Grown

theorem size_ofCapacity (h : ofCapacity capacity limit? = .ok b) : b.size = 0 := by
  have hlist := congrArg List.length (toList_ofCapacity h)
  rwa [toList, Array.length_toList] at hlist

/-- Under a limit, as many entries are stored as the greatest room takes, and all others are
refused. -/
theorem storeAll_of_isGreatest (h : ofCapacity capacity (some limit) = .ok b)
    (hm : IsGreatest (rooms capacity (some limit)) m)
    (hreserves : Reserves capacity (some limit) es.length) :
    (storeAll es b).1 = List.replicate (min m es.length) (.ok ()) ++
        List.replicate (es.length - m) (.error (.limitReached limit)) ∧
      (storeAll es b).2.toList = es.take m := by
  have hgrown := grown_ofCapacity h
  have hsize := size_ofCapacity h
  have htake : (es.take m).length = min m es.length := List.length_take
  have hstored := hgrown.storeAll_ok (es.take m)
  rw [hsize, Nat.zero_add, htake] at hstored
  obtain ⟨b', hstore, hgrown', hlist, hsize'⟩ :=
    hstored ((admits_iff hm).2 (Nat.min_le_left _ _)) (hreserves.mono (Nat.min_le_right _ _))
  rw [toList_ofCapacity h, List.nil_append] at hlist
  have hrest : storeAll (es.drop m) b' =
      (List.replicate (es.length - m) (.error (.limitReached limit)), b') := by
    rcases Nat.le_total es.length m with hle | hle
    · rw [List.drop_eq_nil_of_le hle, Nat.sub_eq_zero_of_le hle]
      rfl
    · have hno : ¬Admits capacity (some limit) (b'.size + 1) := by
        rw [admits_iff hm]
        omega
      rw [hgrown'.storeAll_error hno, List.length_drop]
  have hall : storeAll es b = storeAll (es.take m ++ es.drop m) b := by rw [List.take_append_drop]
  rw [hall, storeAll_append, hstore]
  dsimp only
  rw [hrest]
  exact ⟨rfl, hlist⟩

/-- Without a limit, all entries are stored. -/
theorem storeAll_of_unlimited (h : ofCapacity capacity none = .ok b)
    (hreserves : Reserves capacity none es.length) :
    (storeAll es b).1 = List.replicate es.length (.ok ()) ∧ (storeAll es b).2.toList = es := by
  have hstored := (grown_ofCapacity h).storeAll_ok es (admits_none _ _)
  rw [size_ofCapacity h, Nat.zero_add] at hstored
  obtain ⟨b', hstore, -, hlist, -⟩ := hstored hreserves
  rw [hstore]
  rw [toList_ofCapacity h, List.nil_append] at hlist
  exact ⟨rfl, hlist⟩

end Offside.PragmaBuffer
