import Mathlib.Order.Bounds.Basic
import Offside.Proofs.Text.Decoding

/-!
Reading what was written. A text is read back from its bytes, whatever stands behind them. So the
bytes before the first one that belongs to no character are written from some text, and no text is
written as more of the bytes than these.
-/

namespace Offside.Text

variable {bytes rest : List UInt8} {c : Char} {text : List Char} {n y : Nat}

theorem charOfPoint?_val (c : Char) : charOfPoint? c.val.toNat = some c := by
  have hvalid : c.val.toNat.isValidChar := c.valid
  rw [charOfPoint?, dif_pos hvalid]
  rfl

theorem toNat_ofNat (h : n < 256) : (UInt8.ofNat n).toNat = n := UInt8.toNat_ofNat_of_lt' h

theorem continuation?_ofNat (h : y < 64) : continuation? (UInt8.ofNat (y + 128)) = some y := by
  have hbyte := toNat_ofNat (n := y + 128) (by omega)
  rw [continuation?, hbyte, if_pos (by omega), Nat.add_sub_cancel]

theorem decodeTwo?_encode (h : n < 2048) (rest : List UInt8) :
    decodeTwo? (UInt8.ofNat (n / 64 % 32 + 192)) (UInt8.ofNat (n % 64 + 128) :: rest) =
      (charOfPoint? n).map (·, rest) := by
  have hfirst := toNat_ofNat (n := n / 64 % 32 + 192) (by omega)
  have hpoint : (n / 64 % 32 + 192 - 192) * 64 + n % 64 = n := by omega
  rw [decodeTwo?, continuation?_ofNat (Nat.mod_lt _ (by decide)), hfirst]
  simp only [Option.bind_eq_bind, Option.bind_some, hpoint]
  cases charOfPoint? n <;> rfl

theorem decodeThree?_encode (hlow : 2048 ≤ n) (h : n < 65536) (rest : List UInt8) :
    decodeThree? (UInt8.ofNat (n / 4096 % 16 + 224))
        (UInt8.ofNat (n / 64 % 64 + 128) :: UInt8.ofNat (n % 64 + 128) :: rest) =
      (charOfPoint? n).map (·, rest) := by
  have hfirst := toNat_ofNat (n := n / 4096 % 16 + 224) (by omega)
  have hpoint : (n / 4096 % 16 + 224 - 224) * 4096 + n / 64 % 64 * 64 + n % 64 = n := by omega
  rw [decodeThree?, continuation?_ofNat (Nat.mod_lt _ (by decide)),
    continuation?_ofNat (Nat.mod_lt _ (by decide)), hfirst]
  simp only [Option.bind_eq_bind, Option.bind_some, hpoint]
  rw [if_neg (Nat.not_lt.2 hlow)]

theorem decodeFour?_encode (hlow : 65536 ≤ n) (h : n < 1114112) (rest : List UInt8) :
    decodeFour? (UInt8.ofNat (n / 262144 % 8 + 240))
        (UInt8.ofNat (n / 4096 % 64 + 128) :: UInt8.ofNat (n / 64 % 64 + 128) ::
          UInt8.ofNat (n % 64 + 128) :: rest) =
      (charOfPoint? n).map (·, rest) := by
  have hfirst := toNat_ofNat (n := n / 262144 % 8 + 240) (by omega)
  have hpoint : (n / 262144 % 8 + 240 - 240) * 262144 + n / 4096 % 64 * 4096 +
      n / 64 % 64 * 64 + n % 64 = n := by omega
  rw [decodeFour?, continuation?_ofNat (Nat.mod_lt _ (by decide)),
    continuation?_ofNat (Nat.mod_lt _ (by decide)), continuation?_ofNat (Nat.mod_lt _ (by decide)),
    hfirst]
  -- Step by step: `simp` would have the kernel compare the two numbers by counting.
  rw [Option.bind_eq_bind, Option.bind_some, Option.bind_some, Option.bind_some, hpoint]
  exact if_neg (Nat.not_lt.2 hlow)

/-- A character is read back from its bytes. The cases are the lengths of its encoding. -/
theorem decodeChar?_encode (c : Char) (rest : List UInt8) :
    decodeChar? (String.utf8EncodeChar c ++ rest) = some (c, rest) := by
  have hpoint := charOfPoint?_val c
  have hbound : c.val.toNat < 1114112 := by
    rcases c.valid with h | h <;> omega
  simp only [String.utf8EncodeChar]
  generalize c.val.toNat = n at hpoint hbound
  have hread : (charOfPoint? n).map (·, rest) = some (c, rest) := by rw [hpoint, Option.map_some]
  split
  · next hone =>
    have hfirst := toNat_ofNat (n := n) (by omega)
    rw [List.cons_append, List.nil_append, decodeChar?, hfirst, if_pos (by omega), hread]
  · split
    · next htwo =>
      have hfirst := toNat_ofNat (n := n / 64 % 32 + 192) (by omega)
      simp only [List.cons_append, List.nil_append, decodeChar?]
      rw [hfirst, if_neg (by omega), if_neg (by omega), if_pos (by omega),
        decodeTwo?_encode (by omega), hread]
    · split
      · next hthree =>
        have hfirst := toNat_ofNat (n := n / 4096 % 16 + 224) (by omega)
        simp only [List.cons_append, List.nil_append, decodeChar?]
        rw [hfirst, if_neg (by omega), if_neg (by omega), if_neg (by omega), if_pos (by omega),
          decodeThree?_encode (by omega) (by omega), hread]
      · have hfirst := toNat_ofNat (n := n / 262144 % 8 + 240) (by omega)
        simp only [List.cons_append, List.nil_append, decodeChar?]
        rw [hfirst, if_neg (by omega), if_neg (by omega), if_neg (by omega), if_neg (by omega),
          if_pos (by omega), decodeFour?_encode (by omega) hbound, hread]

/-- The bytes of a text are read as the text, and reading goes on behind them. -/
theorem decodeFrom_encode_append (position : Nat) (read text : List Char) (rest : List UInt8) :
    decodeFrom position read (encode text ++ rest) =
      decodeFrom (position + byteLength text) (text.reverse ++ read) rest := by
  induction text generalizing position read with
  | nil => rfl
  | cons c text ih =>
    have hchar := decodeChar?_encode c (encode text ++ rest)
    rw [encode_cons, List.append_assoc, decodeFrom_of_some hchar, ih, byteLength_cons,
      Nat.add_assoc, List.reverse_cons, List.append_assoc, List.singleton_append]

/-- What is read is what was written, and what was written is read. -/
theorem decode_eq_ok_iff : decode bytes = .ok text ↔ encode text = bytes := by
  refine ⟨encode_of_decode, ?_⟩
  rintro rfl
  have h := decodeFrom_encode_append 0 [] text []
  rw [List.append_nil, List.append_nil, decodeFrom, List.reverse_reverse] at h
  exact h

/-- Where reading fails, it has read a text. -/
theorem exists_of_decodeFrom_eq_error {position i : Nat} {read : List Char}
    (h : decodeFrom position read bytes = .error i) :
    ∃ text rest, bytes = encode text ++ rest ∧ i = position + byteLength text ∧ rest ≠ [] := by
  fun_induction decodeFrom position read bytes with
  | case1 => cases h
  | case2 position read b rest =>
    obtain rfl := Except.error.inj h
    exact ⟨[], b :: rest, rfl, rfl, List.cons_ne_nil _ _⟩
  | case3 position read b rest c rest' hchar _ ih =>
    obtain ⟨text, rest'', rfl, rfl, hne⟩ := ih h
    refine ⟨c :: text, rest'', ?_, by rw [byteLength_cons, Nat.add_assoc], hne⟩
    rw [eq_append_of_decodeChar? hchar, encode_cons, List.append_assoc]

/-- The bytes up to where reading fails are the most that some text is written as. -/
theorem isGreatest_of_decode_eq_error {i : Nat} (h : decode bytes = .error i) :
    i < bytes.length ∧
      IsGreatest {n | n ≤ bytes.length ∧ ∃ text, encode text = bytes.take n} i := by
  obtain ⟨text, rest, rfl, rfl, hne⟩ := exists_of_decodeFrom_eq_error h
  have hlength : (encode text ++ rest).length = byteLength text + rest.length := by
    rw [List.length_append, length_encode]
  have hrest := List.length_pos_iff.2 hne
  rw [Nat.zero_add] at h ⊢
  refine ⟨by omega, ⟨by omega, text, ?_⟩, ?_⟩
  · rw [← length_encode, List.take_left]
  · -- A longer text would have been read further before reading failed.
    rintro n ⟨hn, text', htext'⟩
    have hsplit := List.take_append_drop n (encode text ++ rest)
    rw [← htext'] at hsplit
    have hn' : byteLength text' = n := by
      rw [← length_encode, htext', List.length_take, Nat.min_eq_left hn]
    rw [← hsplit, decode, decodeFrom_encode_append] at h
    obtain ⟨_, _, _, hi, _⟩ := exists_of_decodeFrom_eq_error h
    omega

end Offside.Text
