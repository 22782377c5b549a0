import Offside.Proofs.Source.Sizes
import Offside.Proofs.Text.Prefixes

/-!
Decoding loses nothing. Each codec reads exactly what it writes, and where it fails, it has read
the most that it could. So the bytes of a source, but for a mark in front of them, are what the
codec of its encoding makes of its text; and a byte that cannot be read is told with its place in
the source, behind the longest part that can be.
-/

namespace Offside.Source

open Text

variable {bytes : List UInt8} {text : List Char} {codec : Codec}

namespace Codec

/-- A byte is written for a character below a limit if bytes are code points. -/
theorem ofNat_toNat_eq_iff {limit : Nat} (hlimit : limit ≤ 256) {c : Char} {b : UInt8} :
    (if c.toNat < limit then some (UInt8.ofNat c.toNat) else none) = some b ↔
      c = charOfByte b ∧ b.toNat < limit := by
  constructor
  · intro h
    split at h
    · next hlt =>
      obtain rfl := Option.some.inj h
      have hbyte := toNat_ofNat (n := c.toNat) (by omega)
      exact ⟨by rw [charOfByte, hbyte, Char.ofNat_toNat], by rwa [hbyte]⟩
    · cases h
  · rintro ⟨rfl, hlt⟩
    rw [toNat_charOfByte, if_pos hlt, UInt8.ofNat_toNat]

theorem mapM_eq_some_iff {limit : Nat} (hlimit : limit ≤ 256) :
    (text.mapM fun c => if c.toNat < limit then some (UInt8.ofNat c.toNat) else none) =
        some bytes ↔
      (∀ b ∈ bytes, b.toNat < limit) ∧ bytes.map charOfByte = text := by
  induction text generalizing bytes with
  | nil =>
    rw [List.mapM_nil]
    constructor
    · rintro ⟨⟩
      exact ⟨List.forall_mem_nil _, rfl⟩
    · rintro ⟨-, h⟩
      rw [List.map_eq_nil_iff.1 h]
      rfl
  | cons c text ih =>
    rw [List.mapM_cons]
    constructor
    · intro h
      obtain ⟨b, hb, h⟩ := Option.bind_eq_some_iff.1 h
      obtain ⟨rest, hrest, h⟩ := Option.bind_eq_some_iff.1 h
      obtain rfl := Option.some.inj h
      obtain ⟨rfl, hlt⟩ := (ofNat_toNat_eq_iff hlimit).1 hb
      obtain ⟨hall, rfl⟩ := ih.1 hrest
      exact ⟨List.forall_mem_cons.2 ⟨hlt, hall⟩, rfl⟩
    · rintro ⟨hall, hmap⟩
      cases bytes with
      | nil => cases hmap
      | cons b rest =>
        obtain ⟨rfl, rfl⟩ := List.cons.inj hmap
        obtain ⟨hlt, hall⟩ := List.forall_mem_cons.1 hall
        exact Option.bind_eq_some_iff.2 ⟨b, (ofNat_toNat_eq_iff hlimit).2 ⟨rfl, hlt⟩,
          Option.bind_eq_some_iff.2 ⟨rest, ih.2 ⟨hall, rfl⟩, rfl⟩⟩

theorem read_ascii_eq_ok_iff :
    ascii.read bytes = .ok text ↔ (∀ b ∈ bytes, b.toNat < 128) ∧ bytes.map charOfByte = text := by
  unfold read
  dsimp only
  split
  · next i hi =>
    refine iff_of_false nofun fun h => ?_
    obtain ⟨hlt, hupper, -⟩ := List.findIdx?_eq_some_iff_getElem.1 hi
    have := h.1 _ (List.getElem_mem hlt)
    have := of_decide_eq_true hupper
    omega
  · next hnone =>
    have hall : ∀ b ∈ bytes, b.toNat < 128 := fun b hb =>
      Nat.not_le.1 (of_decide_eq_false (List.findIdx?_eq_none_iff.1 hnone b hb))
    rw [Except.ok.injEq]
    exact ⟨fun h => ⟨hall, h⟩, fun h => h.2⟩

/-- A codec reads exactly what it writes. -/
theorem read_eq_ok_iff : codec.read bytes = .ok text ↔ codec.write? text = some bytes := by
  cases codec with
  | utf8 => exact decode_eq_ok_iff.trans Option.some_inj.symm
  | latin1 =>
    have hall : ∀ b ∈ bytes, b.toNat < 256 := fun b _ => b.toNat_lt
    refine Iff.trans ?_ (mapM_eq_some_iff (Nat.le_refl 256)).symm
    rw [read, Except.ok.injEq]
    exact ⟨fun h => ⟨hall, h⟩, fun h => h.2⟩
  | ascii => exact read_ascii_eq_ok_iff.trans (mapM_eq_some_iff (by decide)).symm

/-- How many of the first bytes are all that a codec writes for some text. -/
def readable (codec : Codec) (bytes : List UInt8) : Set Nat :=
  {n | n ≤ bytes.length ∧ ∃ text, codec.write? text = some (bytes.take n)}

/-- Where a codec fails, it has read the most that it could. Latin-1 never fails. -/
theorem isGreatest_of_read_eq_error {i : Nat} (h : codec.read bytes = .error i) :
    (codec = .utf8 ∨ codec = .ascii) ∧ i < bytes.length ∧ IsGreatest (codec.readable bytes) i := by
  cases codec with
  | utf8 =>
    obtain ⟨hlt, ⟨hle, text, htext⟩, hgreatest⟩ := isGreatest_of_decode_eq_error h
    refine ⟨Or.inl rfl, hlt, ⟨hle, text, congrArg some htext⟩, ?_⟩
    rintro n ⟨hn, text', htext'⟩
    exact hgreatest ⟨hn, text', Option.some.inj htext'⟩
  | latin1 => cases h
  | ascii =>
    unfold read at h
    dsimp only at h
    split at h
    · next i' hi =>
      obtain rfl := Except.error.inj h
      obtain ⟨hlt, hupper, hbefore⟩ := List.findIdx?_eq_some_iff_getElem.1 hi
      refine ⟨Or.inr rfl, hlt, ⟨Nat.le_of_lt hlt, (bytes.take i').map charOfByte, ?_⟩, ?_⟩
      · refine read_eq_ok_iff.1 (read_ascii_eq_ok_iff.2 ⟨fun b hb => ?_, rfl⟩)
        obtain ⟨j, hj, rfl⟩ := List.mem_take_iff_getElem.1 hb
        have := hbefore j (by omega)
        simpa using this
      · rintro n ⟨hn, text', htext'⟩
        obtain ⟨hall, -⟩ := read_ascii_eq_ok_iff.1 (read_eq_ok_iff.2 htext')
        by_contra hnot
        have hmem : bytes[i'] ∈ bytes.take n :=
          List.mem_take_iff_getElem.2 ⟨i', by omega, rfl⟩
        have := hall _ hmem
        have := of_decide_eq_true hupper
        omega
    · cases h

end Codec

/-- A source is a body behind a mark, which says that it is UTF-8, or a body alone. -/
structure MarkedBody (codec : Codec) (bytes lead body : List UInt8) : Prop where
  bytes_eq : bytes = lead ++ body
  lead : lead = mark ∧ codec = .utf8 ∨ lead = [] ∧ ¬mark <+: bytes

/-- What is cut off a source is its mark. -/
theorem exists_markedBody (hmarked : (cutMark bytes).2 = true → codec = .utf8) :
    ∃ lead, MarkedBody codec bytes lead (cutMark bytes).1 ∧
      bytes.length - (cutMark bytes).1.length = lead.length := by
  unfold cutMark at hmarked ⊢
  split at hmarked
  · next hmark =>
    obtain ⟨body, rfl⟩ := List.isPrefixOf_iff_prefix.1 hmark
    rw [if_pos hmark, List.drop_left]
    exact ⟨mark, ⟨rfl, Or.inl ⟨rfl, hmarked rfl⟩⟩, by simp only [List.length_append]; omega⟩
  · next hmark =>
    rw [if_neg hmark]
    exact ⟨[], ⟨rfl, Or.inr ⟨rfl, fun h => hmark (List.isPrefixOf_iff_prefix.2 h)⟩⟩, Nat.sub_self _⟩

/-- Decoding loses nothing. A text that was read is written, in the encoding that is reported or in
UTF-8 if none is, as the bytes of the source behind a mark, and there is a mark only if that is
UTF-8. A byte that cannot be read stands in its place in the source, behind as much of the bytes
after a mark as the codec of the source writes for any text. -/
theorem decode_lossless (mode : DecodeMode) (declared? : Option String) (bytes : List UInt8) :
    (∀ s, decode mode declared? bytes = .ok s →
      ∃ lead body, MarkedBody s.readIn bytes lead body ∧
        (∀ name ∈ s.encoding?, Codec.ofName? name = some s.readIn) ∧
        s.readIn.write? s.text = some body) ∧
    ∀ codec byte position,
      decode mode declared? bytes = .error (.invalidByte codec byte position) →
      ∃ encoding? lead body n, reading mode declared? bytes = .ok (encoding?, codec) ∧
        (codec = .utf8 ∨ codec = .ascii) ∧ MarkedBody codec bytes lead body ∧
        position = lead.length + n ∧ bytes[position]? = some byte ∧
        IsGreatest (codec.readable body) n := by
  refine ⟨fun s h => ?_, fun codec byte position h => ?_⟩
  · obtain ⟨-, hreading, hread⟩ := read_of_decode h
    obtain ⟨-, hnames, hmarked⟩ := reading_eq_ok s.text hreading
    obtain ⟨lead, hbody, -⟩ := exists_markedBody hmarked
    exact ⟨lead, _, hbody, hnames, Codec.read_eq_ok_iff.1 hread⟩
  · obtain ⟨encoding?, i, hreading, hread, hbyte, rfl⟩ := error_of_decode h
    obtain ⟨-, -, hmarked⟩ := reading_eq_ok [] hreading
    obtain ⟨lead, hbody, hlength⟩ := exists_markedBody hmarked
    obtain ⟨hcodec, hlt, hgreatest⟩ := Codec.isGreatest_of_read_eq_error hread
    refine ⟨encoding?, lead, _, i, hreading, hcodec, hbody, by rw [hlength], ?_, hgreatest⟩
    have hplace : bytes[lead.length + i]? = (cutMark bytes).1[i]? := by
      conv_lhs => rw [hbody.bytes_eq]
      rw [List.getElem?_append_right (Nat.le_add_right _ _), Nat.add_sub_cancel_left]
    rw [hlength, hplace, ← hbyte, List.getElem?_eq_getElem hlt]
    rfl

/-- A marked source of one character, and one that breaks off inside of a character. -/
theorem decode_lossless_marked :
    (∃ lead body, MarkedBody .utf8 [0xEF, 0xBB, 0xBF, 0xC3, 0xA9] lead body ∧
      Codec.utf8.write? ['é'] = some body) ∧
    ∃ lead body n, MarkedBody .utf8 [0xEF, 0xBB, 0xBF, 0x61, 0xC3] lead body ∧
      4 = lead.length + n ∧ IsGreatest (Codec.utf8.readable body) n := by
  have hread : decode .cookie none [0xEF, 0xBB, 0xBF, 0xC3, 0xA9] = .ok ⟨['é'], some "utf-8"⟩ := by
    decide +kernel
  have hfails : decode .cookie none [0xEF, 0xBB, 0xBF, 0x61, 0xC3] =
      .error (.invalidByte .utf8 0xC3 4) := by decide +kernel
  have hutf8 : readIn ⟨['é'], some "utf-8"⟩ = .utf8 := by decide
  constructor
  · obtain ⟨lead, body, hbody, -, hwrite⟩ := (decode_lossless _ _ _).1 _ hread
    rw [hutf8] at hbody hwrite
    exact ⟨lead, body, hbody, hwrite⟩
  · obtain ⟨-, lead, body, n, -, -, hbody, hposition, -, hgreatest⟩ :=
      (decode_lossless _ _ _).2 _ _ _ hfails
    exact ⟨lead, body, n, hbody, hposition, hgreatest⟩

end Offside.Source
