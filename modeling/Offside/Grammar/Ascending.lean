/-!
Sets of numbers as strictly ascending lists, so that equal sets are equal lists.
-/

namespace Offside.Ascending

def insert (n : Nat) : List Nat → List Nat
  | [] => [n]
  | m :: ms => if n < m then n :: m :: ms else if n = m then m :: ms else m :: insert n ms

def union (ns ms : List Nat) : List Nat := ns.foldr insert ms

def ofList (ns : List Nat) : List Nat := union ns []

theorem mem_insert {a n : Nat} {ms : List Nat} : a ∈ insert n ms ↔ a = n ∨ a ∈ ms := by
  induction ms with
  | nil => simp [insert]
  | cons m ms ih =>
    unfold insert
    split
    · simp
    · split
      · next h => subst h; simp
      · simp only [List.mem_cons, ih]
        constructor
        · rintro (h | h | h) <;> simp [h]
        · rintro (h | h | h) <;> simp [h]

theorem mem_union {a : Nat} {ns ms : List Nat} : a ∈ union ns ms ↔ a ∈ ns ∨ a ∈ ms := by
  induction ns with
  | nil => simp [union]
  | cons n ns ih =>
    simp only [union, List.foldr_cons, List.mem_cons] at ih ⊢
    rw [mem_insert, ih, or_assoc]

theorem mem_ofList {a : Nat} {ns : List Nat} : a ∈ ofList ns ↔ a ∈ ns := by
  simp [ofList, mem_union]

theorem insert_pairwise {n : Nat} {ms : List Nat} (h : ms.Pairwise (· < ·)) :
    (insert n ms).Pairwise (· < ·) := by
  induction ms with
  | nil => simp [insert]
  | cons m ms ih =>
    obtain ⟨hm, hms⟩ := List.pairwise_cons.1 h
    unfold insert
    split
    · next hlt =>
      refine List.pairwise_cons.2 ⟨fun a ha => ?_, h⟩
      rcases List.mem_cons.1 ha with rfl | ha
      · exact hlt
      · exact Nat.lt_trans hlt (hm a ha)
    · split
      · exact h
      · refine List.pairwise_cons.2 ⟨fun a ha => ?_, ih hms⟩
        rcases mem_insert.1 ha with rfl | ha
        · omega
        · exact hm a ha

theorem union_pairwise {ns ms : List Nat} (h : ms.Pairwise (· < ·)) :
    (union ns ms).Pairwise (· < ·) := by
  induction ns with
  | nil => exact h
  | cons n ns ih => exact insert_pairwise ih

theorem ofList_pairwise (ns : List Nat) : (ofList ns).Pairwise (· < ·) :=
  union_pairwise List.Pairwise.nil

end Offside.Ascending
