import Offside.Proofs.Source.Reading

/-!
The size of a text against the size of the bytes that it was read from. What is read as UTF-8 or
as ASCII takes up as many bytes as before. Latin-1 has one byte for every character, and UTF-8 two
for each of the upper half, so that a text may outgrow the bytes that were admitted.
-/

namespace Offside

namespace Source

open Text

variable {mode : DecodeMode} {declared? encoding? : Option String} {bytes : List UInt8}
  {text : List Char} {codec : Codec} {s : Source}

/-- The bytes that take two in UTF-8 where bytes are code points. -/
def isUpper (b : UInt8) : Bool := 128 ≤ b.toNat

theorem utf8Size_charOfByte (b : UInt8) :
    (Codec.charOfByte b).utf8Size = 1 + (isUpper b).toNat := by
  have hnat := toNat_charOfByte b
  have hlt := b.toNat_lt
  rw [← String.length_utf8EncodeChar, isUpper]
  unfold String.utf8EncodeChar
  have hval : (Codec.charOfByte b).val.toNat = b.toNat := hnat
  dsimp only
  rw [hval]
  by_cases hupper : 128 ≤ b.toNat
  · rw [if_neg (by omega), if_pos (by omega), decide_eq_true hupper]
    rfl
  · rw [if_pos (by omega), decide_eq_false hupper]
    rfl

theorem byteLength_map_charOfByte (bytes : List UInt8) :
    byteLength (bytes.map Codec.charOfByte) = bytes.length + bytes.countP isUpper := by
  induction bytes with
  | nil => rfl
  | cons b bytes ih =>
    rw [List.map_cons, byteLength_cons, utf8Size_charOfByte, ih, List.length_cons, List.countP_cons]
    cases isUpper b <;> simp only [Bool.toNat_true, Bool.toNat_false, Bool.false_eq_true, if_true,
      if_false] <;> omega

/-- How large a text is, by what it was read in. -/
theorem byteLength_of_read (h : codec.read bytes = .ok text) :
    byteLength text = bytes.length + if codec = .latin1 then bytes.countP isUpper else 0 := by
  cases codec with
  | utf8 => exact byteLength_of_decode h
  | latin1 =>
    obtain rfl := Except.ok.inj h
    exact byteLength_map_charOfByte bytes
  | ascii =>
    unfold Codec.read at h
    dsimp only at h
    split at h
    · cases h
    · next hnone =>
      obtain rfl := Except.ok.inj h
      have hnever : bytes.countP isUpper = 0 :=
        List.countP_eq_zero.2 fun b hb =>
          ne_true_of_eq_false (List.findIdx?_eq_none_iff.1 hnone b hb)
      rw [byteLength_map_charOfByte, hnever]
      rfl

theorem length_cutMark_le (bytes : List UInt8) : (cutMark bytes).1.length ≤ bytes.length := by
  unfold cutMark
  split
  · exact (List.drop_sublist _ bytes).length_le
  · exact Nat.le_refl _

/-- A text is as large as what was read, but for the upper half of Latin-1. -/
theorem byteLength_of_source (h : decode mode declared? bytes = .ok s) :
    byteLength s.text ≤ maxPosition ↔
      (s.readIn = .latin1 → bytes.length + bytes.countP isUpper ≤ maxPosition) := by
  obtain ⟨hsize, hreading, hread⟩ := read_of_decode h
  have hmarked := (reading_eq_ok s.text hreading).2.2
  have hlength := byteLength_of_read hread
  by_cases hlatin : s.readIn = .latin1
  · have hunmarked : cutMark bytes = (bytes, false) := by
      unfold cutMark at hmarked ⊢
      split at hmarked
      · exact absurd ((hmarked rfl).symm.trans hlatin) (by decide)
      · next hno => rw [if_neg hno]
    rw [if_pos hlatin, hunmarked] at hlength
    rw [hlength]
    exact ⟨fun hle _ => hle, fun hle => hle hlatin⟩
  · rw [if_neg hlatin, Nat.add_zero] at hlength
    have hbody := length_cutMark_le bytes
    exact iff_of_true (by omega) fun heq => absurd heq hlatin

/-- No codec makes two characters of one byte. -/
theorem length_of_read (h : codec.read bytes = .ok text) : text.length ≤ bytes.length := by
  cases codec with
  | utf8 => exact (length_le_byteLength text).trans_eq (byteLength_of_decode h)
  | latin1 =>
    obtain rfl := Except.ok.inj h
    exact (List.length_map _).le
  | ascii =>
    unfold Codec.read at h
    dsimp only at h
    split at h
    · cases h
    · obtain rfl := Except.ok.inj h
      exact (List.length_map _).le

theorem length_of_source (h : decode mode declared? bytes = .ok s) :
    s.text.length ≤ maxPosition := by
  obtain ⟨hsize, -, hread⟩ := read_of_decode h
  exact ((length_of_read hread).trans (length_cutMark_le bytes)).trans hsize

end Source
end Offside
