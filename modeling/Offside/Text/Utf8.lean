/-!
Text as characters and as the bytes of UTF-8. Positions in a text are byte positions throughout,
so cutting at a byte is defined here, and means cutting at the last character boundary not past
it. The main statements are that what is read is what was written and that cutting loses nothing.
-/

namespace Offside.Text

def byteLength (text : List Char) : Nat := text.foldr (fun c n => c.utf8Size + n) 0

@[simp] theorem byteLength_nil : byteLength [] = 0 := rfl

@[simp] theorem byteLength_cons (c : Char) (text : List Char) :
    byteLength (c :: text) = c.utf8Size + byteLength text := rfl

@[simp] theorem byteLength_append (a b : List Char) :
    byteLength (a ++ b) = byteLength a + byteLength b := by
  induction a with
  | nil => simp
  | cons c a ih => simp [ih, Nat.add_assoc]

def encode (text : List Char) : List UInt8 := text.flatMap String.utf8EncodeChar

/-- The character with a given code point, unless there is none. -/
def charOfPoint? (n : Nat) : Option Char :=
  if h : n.isValidChar then some (Char.ofNatAux n h) else none

/-- The six bits of a continuation byte. -/
def continuation? (b : UInt8) : Option Nat :=
  if 128 ≤ b.toNat ∧ b.toNat < 192 then some (b.toNat - 128) else none

/-- Reads on behind the first byte of two. -/
def decodeTwo? (a : UInt8) : List UInt8 → Option (Char × List UInt8)
  | b :: rest => do
    let y ← continuation? b
    let c ← charOfPoint? ((a.toNat - 192) * 64 + y)
    pure (c, rest)
  | _ => none

/-- Reads on behind the first byte of three. -/
def decodeThree? (a : UInt8) : List UInt8 → Option (Char × List UInt8)
  | b :: c :: rest => do
    let y ← continuation? b
    let z ← continuation? c
    let n := (a.toNat - 224) * 4096 + y * 64 + z
    if n < 2048 then none else (charOfPoint? n).map (·, rest)
  | _ => none

/-- Reads on behind the first byte of four. -/
def decodeFour? (a : UInt8) : List UInt8 → Option (Char × List UInt8)
  | b :: c :: d :: rest => do
    let x ← continuation? b
    let y ← continuation? c
    let z ← continuation? d
    let n := (a.toNat - 240) * 262144 + x * 4096 + y * 64 + z
    if n < 65536 then none else (charOfPoint? n).map (·, rest)
  | _ => none

/-- Reads one character. Only the shortest form of a code point is read. -/
def decodeChar? : List UInt8 → Option (Char × List UInt8)
  | [] => none
  | a :: rest =>
    if a.toNat < 128 then (charOfPoint? a.toNat).map (·, rest)
    else if a.toNat < 194 then none
    else if a.toNat < 224 then decodeTwo? a rest
    else if a.toNat < 240 then decodeThree? a rest
    else if a.toNat < 245 then decodeFour? a rest
    else none

theorem val_of_charOfPoint? {n : Nat} {c : Char} (h : charOfPoint? n = some c) :
    c.val.toNat = n := by
  by_cases hn : n.isValidChar
  · rw [charOfPoint?, dif_pos hn] at h
    rw [← Option.some.inj h]
    rfl
  · rw [charOfPoint?, dif_neg hn] at h
    cases h

theorem eq_add_of_continuation? {b : UInt8} {y : Nat} (h : continuation? b = some y) :
    b.toNat = y + 128 ∧ y < 64 := by
  unfold continuation? at h
  split at h
  · have := Option.some.inj h
    omega
  · cases h

theorem ofNat_eq {b : UInt8} {n : Nat} (h : b.toNat = n) : UInt8.ofNat n = b := by
  rw [← h, UInt8.ofNat_toNat]

theorem eq_append_of_decodeTwo? {a : UInt8} {bytes rest : List UInt8} {c : Char}
    (ha : 194 ≤ a.toNat ∧ a.toNat < 224) (h : decodeTwo? a bytes = some (c, rest)) :
    a :: bytes = String.utf8EncodeChar c ++ rest := by
  unfold decodeTwo? at h
  split at h
  · next b _ =>
    obtain ⟨y, hy, h⟩ := Option.bind_eq_some_iff.1 h
    obtain ⟨d, hd, h⟩ := Option.bind_eq_some_iff.1 h
    obtain ⟨rfl, rfl⟩ := Prod.mk.inj (Option.some.inj h)
    have hv := val_of_charOfPoint? hd
    have := eq_add_of_continuation? hy
    simp only [String.utf8EncodeChar, hv]
    rw [if_neg (by omega), if_pos (by omega), ofNat_eq (b := a) (by omega),
      ofNat_eq (b := b) (by omega)]
    rfl
  · cases h

theorem eq_append_of_decodeThree? {a : UInt8} {bytes rest : List UInt8} {c : Char}
    (ha : 224 ≤ a.toNat ∧ a.toNat < 240) (h : decodeThree? a bytes = some (c, rest)) :
    a :: bytes = String.utf8EncodeChar c ++ rest := by
  unfold decodeThree? at h
  split at h
  · next b₁ b₂ _ =>
    obtain ⟨y, hy, h⟩ := Option.bind_eq_some_iff.1 h
    obtain ⟨z, hz, h⟩ := Option.bind_eq_some_iff.1 h
    dsimp only at h
    split at h
    · cases h
    · obtain ⟨d, hd, he⟩ := Option.map_eq_some_iff.1 h
      obtain ⟨rfl, rfl⟩ := Prod.mk.inj he
      have hv := val_of_charOfPoint? hd
      have := eq_add_of_continuation? hy
      have := eq_add_of_continuation? hz
      simp only [String.utf8EncodeChar, hv]
      rw [if_neg (by omega), if_neg (by omega), if_pos (by omega), ofNat_eq (b := a) (by omega),
        ofNat_eq (b := b₁) (by omega), ofNat_eq (b := b₂) (by omega)]
      rfl
  · cases h

theorem eq_append_of_decodeFour? {a : UInt8} {bytes rest : List UInt8} {c : Char}
    (ha : 240 ≤ a.toNat ∧ a.toNat < 245) (h : decodeFour? a bytes = some (c, rest)) :
    a :: bytes = String.utf8EncodeChar c ++ rest := by
  unfold decodeFour? at h
  split at h
  · next b₁ b₂ b₃ _ =>
    obtain ⟨x, hx, h⟩ := Option.bind_eq_some_iff.1 h
    obtain ⟨y, hy, h⟩ := Option.bind_eq_some_iff.1 h
    obtain ⟨z, hz, h⟩ := Option.bind_eq_some_iff.1 h
    dsimp only at h
    split at h
    · cases h
    · obtain ⟨d, hd, he⟩ := Option.map_eq_some_iff.1 h
      obtain ⟨rfl, rfl⟩ := Prod.mk.inj he
      have hv := val_of_charOfPoint? hd
      have := eq_add_of_continuation? hx
      have := eq_add_of_continuation? hy
      have := eq_add_of_continuation? hz
      simp only [String.utf8EncodeChar, hv]
      rw [if_neg (by omega), if_neg (by omega), if_neg (by omega), ofNat_eq (b := a) (by omega),
        ofNat_eq (b := b₁) (by omega), ofNat_eq (b := b₂) (by omega),
        ofNat_eq (b := b₃) (by omega)]
      rfl
  · cases h

/-- What is read is what was written. -/
theorem eq_append_of_decodeChar? {bytes rest : List UInt8} {c : Char}
    (h : decodeChar? bytes = some (c, rest)) : bytes = String.utf8EncodeChar c ++ rest := by
  unfold decodeChar? at h
  split at h
  · cases h
  · next a tail =>
    split at h
    · obtain ⟨d, hd, he⟩ := Option.map_eq_some_iff.1 h
      obtain ⟨rfl, rfl⟩ := Prod.mk.inj he
      simp only [String.utf8EncodeChar, val_of_charOfPoint? hd, show a.toNat ≤ 127 by omega,
        if_true, UInt8.ofNat_toNat, List.cons_append, List.nil_append]
    · split at h
      · cases h
      · split at h
        · exact eq_append_of_decodeTwo? (by omega) h
        · split at h
          · exact eq_append_of_decodeThree? (by omega) h
          · split at h
            · exact eq_append_of_decodeFour? (by omega) h
            · cases h

theorem decodeChar?_length_lt {bytes rest : List UInt8} {c : Char}
    (h : decodeChar? bytes = some (c, rest)) : rest.length < bytes.length := by
  rw [eq_append_of_decodeChar? h, List.length_append, String.length_utf8EncodeChar]
  have := c.utf8Size_pos
  omega

/-- Reads on after `position` bytes that held `read`, given last character first. -/
def decodeFrom (position : Nat) (read : List Char) (bytes : List UInt8) :
    Except Nat (List Char) :=
  match bytes with
  | [] => .ok read.reverse
  | b :: rest =>
    match h : decodeChar? (b :: rest) with
    | none => .error position
    | some (c, rest') =>
      have : rest'.length < (b :: rest).length := decodeChar?_length_lt h
      decodeFrom (position + c.utf8Size) (c :: read) rest'
termination_by bytes.length
decreasing_by assumption

/-- The characters, or how many bytes stand before the first that belongs to no character. -/
def decode (bytes : List UInt8) : Except Nat (List Char) := decodeFrom 0 [] bytes

/-- Moves characters from `text` behind `read` while they fit into `n` bytes. -/
def splitAtByteFrom (read : List Char) (n : Nat) : List Char → List Char × List Char
  | [] => (read.reverse, [])
  | c :: rest =>
    if c.utf8Size ≤ n then splitAtByteFrom (c :: read) (n - c.utf8Size) rest
    else (read.reverse, c :: rest)

/-- The longest initial part of at most `n` bytes, and what follows it. -/
def splitAtByte (n : Nat) (text : List Char) : List Char × List Char :=
  splitAtByteFrom [] n text

theorem splitAtByteFrom_append (read : List Char) (n : Nat) (text : List Char) :
    (splitAtByteFrom read n text).1 ++ (splitAtByteFrom read n text).2 =
      read.reverse ++ text := by
  induction text generalizing read n with
  | nil => simp [splitAtByteFrom]
  | cons c rest ih =>
    unfold splitAtByteFrom
    split
    · rw [ih]; simp
    · rfl

/-- Cutting loses nothing. -/
theorem splitAtByte_append (n : Nat) (text : List Char) :
    (splitAtByte n text).1 ++ (splitAtByte n text).2 = text := by
  simpa [splitAtByte] using splitAtByteFrom_append [] n text

/-- The characters from byte `start` to byte `stop`; none if these are out of order, past the
end, or inside a character. -/
def slice? (text : List Char) (start stop : Nat) : Option (List Char) :=
  let (before, rest) := splitAtByte start text
  let (middle, _) := splitAtByte (stop - start) rest
  if start ≤ stop ∧ byteLength before = start ∧ byteLength middle = stop - start then some middle
  else none

theorem splitAtByteFrom_byteLength (read before rest : List Char) :
    splitAtByteFrom read (byteLength before) (before ++ rest) = (read.reverse ++ before, rest) := by
  induction before generalizing read with
  | nil =>
    rw [byteLength_nil, List.nil_append, List.append_nil]
    cases rest with
    | nil => rfl
    | cons c rest => rw [splitAtByteFrom, if_neg (Nat.not_le.2 c.utf8Size_pos)]
  | cons c before ih =>
    rw [List.cons_append, splitAtByteFrom, byteLength_cons, if_pos (Nat.le_add_right _ _),
      Nat.add_sub_cancel_left, ih, List.reverse_cons, List.append_assoc]
    rfl

/-- To cut where a part ends is to cut the part off. -/
theorem splitAtByte_byteLength (before rest : List Char) :
    splitAtByte (byteLength before) (before ++ rest) = (before, rest) :=
  splitAtByteFrom_byteLength [] before rest

/-- What stands between two parts is cut out where they end and start. -/
theorem slice?_append (before middle rest : List Char) :
    slice? (before ++ (middle ++ rest)) (byteLength before)
      (byteLength before + byteLength middle) = some middle := by
  rw [slice?, splitAtByte_byteLength]
  dsimp only
  rw [Nat.add_sub_cancel_left, splitAtByte_byteLength]
  exact if_pos ⟨Nat.le_add_right _ _, rfl, rfl⟩

end Offside.Text
