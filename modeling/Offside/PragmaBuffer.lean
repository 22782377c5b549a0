/-!
Buffers of pragmas. A buffer makes room for a number of entries at first and doubles its room
whenever it is full, up to a limit.
-/

namespace Offside

structure PragmaEntry where
  line : Nat
  text : String
  deriving DecidableEq, Inhabited

inductive AllocError
  | failed
  | limitReached (limit : Nat)
  deriving DecidableEq, Inhabited

def AllocError.message : AllocError → String
  | .failed => "allocation failed"
  | .limitReached limit => "annotation buffer cannot grow past " ++ toString limit ++ " entries"

structure PragmaBuffer where
  entries : Array PragmaEntry
  capacity : Nat
  limit? : Option Nat
  deriving DecidableEq, Inhabited

namespace PragmaBuffer

/-- There is no room for so many entries: an entry takes 32 bytes, and all together may take no
more than half of the address space. -/
def unallocatable : Nat := 1 <<< 58

/-- A buffer with room for `capacity` entries, and for one at least. -/
def ofCapacity (capacity : Nat) (limit? : Option Nat) : Except AllocError PragmaBuffer :=
  if unallocatable ≤ max 1 capacity then .error .failed
  else .ok ⟨#[], max 1 capacity, limit?⟩

def exceeds (n : Nat) : Option Nat → Option Nat
  | some limit => if limit < n then some limit else none
  | none => none

def grow (b : PragmaBuffer) : Except AllocError PragmaBuffer :=
  match exceeds (2 * b.capacity) b.limit? with
  | some limit => .error (.limitReached limit)
  | none =>
    if unallocatable ≤ 2 * b.capacity then .error .failed
    else .ok { b with capacity := 2 * b.capacity }

def push (line : Nat) (text : String) (b : PragmaBuffer) : Except AllocError PragmaBuffer := do
  let b ← if b.entries.size = b.capacity then b.grow else pure b
  pure { b with entries := b.entries.push ⟨line, text⟩ }

def size (b : PragmaBuffer) : Nat := b.entries.size

def isEmpty (b : PragmaBuffer) : Bool := b.entries.isEmpty

def toList (b : PragmaBuffer) : List PragmaEntry := b.entries.toList

theorem toList_ofCapacity {capacity : Nat} {limit? : Option Nat} {b : PragmaBuffer}
    (h : ofCapacity capacity limit? = .ok b) : b.toList = [] := by
  unfold ofCapacity at h
  split at h
  · cases h
  · cases h; rfl

/-- Growing makes room and keeps the entries. -/
theorem entries_grow {b b' : PragmaBuffer} (h : b.grow = .ok b') :
    b'.entries = b.entries ∧ b'.capacity = 2 * b.capacity ∧ b'.limit? = b.limit? := by
  unfold grow at h
  split at h
  · cases h
  · split at h
    · cases h
    · cases h; exact ⟨rfl, rfl, rfl⟩

/-- An entry that is stored comes last. -/
theorem toList_push {line : Nat} {text : String} {b b' : PragmaBuffer}
    (h : push line text b = .ok b') : b'.toList = b.toList ++ [⟨line, text⟩] := by
  unfold push at h
  split at h
  · cases hg : b.grow with
    | error e => rw [hg] at h; cases h
    | ok c =>
      rw [hg] at h
      cases h
      simp [toList, (entries_grow hg).1]
  · cases h
    simp [toList]

end PragmaBuffer
end Offside
