import Offside.Text.Utf8
import Offside.Source.Encoding
import Offside.Proofs.Outcome

/-!
Reading UTF-8. No character of more than one byte can take part in a line feed, so bytes are read
line by line. Where the bytes are taken for characters one by one, what is ASCII stays as it was,
and any other character turns into characters of which none is ASCII.
-/

namespace Offside.Text

open Source

variable {bytes more : List UInt8} {text : List Char} {c : Char}

/-- A character and the bytes after it, with a line feed and more behind them. -/
def thenFeed (more : List UInt8) (x : Char × List UInt8) : Char × List UInt8 :=
  (x.1, x.2 ++ 10 :: more)

theorem continuation?_feed : continuation? 10 = none := by decide

theorem decodeTwo?_append_feed (a : UInt8) (bytes more : List UInt8) :
    decodeTwo? a (bytes ++ 10 :: more) = (decodeTwo? a bytes).map (thenFeed more) := by
  cases bytes with
  | nil => rfl
  | cons b rest =>
    simp only [List.cons_append, decodeTwo?]
    cases continuation? b with
    | none => rfl
    | some y =>
      simp only [Option.bind_eq_bind, Option.bind_some]
      cases charOfPoint? ((a.toNat - 192) * 64 + y) <;> rfl

theorem bind_thenFeed {number? : Option Nat} {f g : Nat → Option (Char × List UInt8)}
    (h : ∀ n, f n = (g n).map (thenFeed more)) :
    (number? >>= f) = (number? >>= g).map (thenFeed more) := by
  cases number? with
  | none => rfl
  | some n => exact h n

theorem ofLeast_thenFeed (least n : Nat) (bytes more : List UInt8) :
    (if n < least then none else (charOfPoint? n).map (·, bytes ++ 10 :: more)) =
      (if n < least then none else (charOfPoint? n).map (·, bytes)).map (thenFeed more) := by
  by_cases h : n < least
  · rw [if_pos h, if_pos h, Option.map_none]
  · rw [if_neg h, if_neg h, Option.map_map]
    rfl

theorem decodeThree?_append_feed (a : UInt8) (bytes more : List UInt8) :
    decodeThree? a (bytes ++ 10 :: more) = (decodeThree? a bytes).map (thenFeed more) := by
  match bytes with
  | [] => cases more <;> rfl
  | [b] =>
    simp only [List.cons_append, List.nil_append, decodeThree?, continuation?_feed]
    cases continuation? b <;> rfl
  | b :: c :: rest =>
    exact bind_thenFeed fun _ => bind_thenFeed fun _ => ofLeast_thenFeed _ _ rest more

-- The code point stays an unknown number below: to evaluate a comparison with it would have the
-- kernel count it down.
theorem decodeFour?_append_feed (a : UInt8) (bytes more : List UInt8) :
    decodeFour? a (bytes ++ 10 :: more) = (decodeFour? a bytes).map (thenFeed more) := by
  match bytes with
  | [] =>
    match more with
    | [] => rfl
    | [_] => rfl
    | _ :: _ :: _ => rfl
  | [b] =>
    match more with
    | [] => rfl
    | m :: rest =>
      simp only [List.cons_append, List.nil_append, decodeFour?, continuation?_feed]
      cases continuation? b <;> rfl
  | [b, c] =>
    simp only [List.cons_append, List.nil_append, decodeFour?, continuation?_feed]
    cases continuation? b with
    | none => rfl
    | some x => cases continuation? c <;> rfl
  | b :: c :: d :: rest =>
    exact bind_thenFeed fun _ => bind_thenFeed fun _ => bind_thenFeed fun _ =>
      ofLeast_thenFeed _ _ rest more

/-- The first character is the same if there is one. -/
theorem decodeChar?_append_feed (a : UInt8) (bytes more : List UInt8) :
    decodeChar? (a :: bytes ++ 10 :: more) = (decodeChar? (a :: bytes)).map (thenFeed more) := by
  rw [List.cons_append, decodeChar?, decodeChar?]
  split
  · rw [Option.map_map]
    rfl
  · split
    · rfl
    · rw [decodeTwo?_append_feed, decodeThree?_append_feed, decodeFour?_append_feed]
      repeat' split
      all_goals rfl

theorem decodeFrom_of_none (hne : bytes ≠ []) (h : decodeChar? bytes = none) (position : Nat)
    (read : List Char) : decodeFrom position read bytes = .error position := by
  unfold decodeFrom
  split
  · exact absurd rfl hne
  · split
    · rfl
    · next heq => rw [h] at heq; cases heq

theorem decodeFrom_of_some {rest : List UInt8} (h : decodeChar? bytes = some (c, rest))
    (position : Nat) (read : List Char) :
    decodeFrom position read bytes = decodeFrom (position + c.utf8Size) (c :: read) rest := by
  rw [decodeFrom.eq_def]
  split
  · cases h
  · split
    · next heq => rw [h] at heq; cases heq
    · next heq =>
      rw [h] at heq
      obtain ⟨rfl, rfl⟩ := Prod.mk.inj (Option.some.inj heq)
      rfl

/-- What is read first goes before what is read then, and the positions go on. -/
theorem decodeFrom_append_feed (position : Nat) (read : List Char) (bytes more : List UInt8) :
    decodeFrom position read (bytes ++ 10 :: more) =
      decodeFrom position read bytes >>= fun text =>
        decodeFrom (position + bytes.length + 1) ('\n' :: text.reverse) more := by
  fun_induction decodeFrom position read bytes with
  | case1 position read =>
    have hfeed : decodeChar? (10 :: more) = some ('\n', more) := rfl
    rw [List.nil_append, decodeFrom_of_some hfeed]
    show _ = decodeFrom _ ('\n' :: read.reverse.reverse) more
    rw [List.reverse_reverse]
    rfl
  | case2 position read b rest h =>
    have h' := decodeChar?_append_feed b rest more
    rw [h, Option.map_none] at h'
    rw [decodeFrom_of_none (by simp) h']
    rfl
  | case3 position read b rest c rest' h _ ih =>
    have h' := decodeChar?_append_feed b rest more
    rw [h, Option.map_some] at h'
    have hlength : position + (b :: rest).length + 1 =
        position + c.utf8Size + rest'.length + 1 := by
      rw [eq_append_of_decodeChar? h, List.length_append, String.length_utf8EncodeChar]
      omega
    rw [decodeFrom_of_some h', hlength]
    exact ih

/-- Whether bytes can be read does not depend on what was read before them. -/
theorem isOk_decodeFrom (position : Nat) (read : List Char) (bytes : List UInt8) :
    (decodeFrom position read bytes).isOk = (decode bytes).isOk := by
  suffices h : ∀ (position' : Nat) (read' : List Char),
      (decodeFrom position read bytes).isOk = (decodeFrom position' read' bytes).isOk from h 0 []
  fun_induction decodeFrom position read bytes with
  | case1 position read =>
    intro position' read'
    rw [decodeFrom]
    rfl
  | case2 position read b rest h =>
    intro position' read'
    rw [decodeFrom_of_none (List.cons_ne_nil _ _) h]
    rfl
  | case3 position read b rest c rest' h _ ih =>
    intro position' read'
    rw [decodeFrom_of_some h]
    exact ih _ _

theorem isOk_bind {ε α β : Type} (x : Except ε α) {f : α → Except ε β} {b : Bool}
    (h : ∀ a, (f a).isOk = b) : (x >>= f).isOk = (x.isOk && b) := by
  cases x with
  | error e => rfl
  | ok a => exact h a

/-- Bytes can be read if they can be read before a line feed and behind it. -/
theorem isOk_decode_append_feed (bytes more : List UInt8) :
    (decode (bytes ++ 10 :: more)).isOk = ((decode bytes).isOk && (decode more).isOk) := by
  rw [decode, decodeFrom_append_feed]
  exact isOk_bind (decodeFrom 0 [] bytes) fun text => isOk_decodeFrom _ _ more

theorem decode_concat (bytes : List UInt8) :
    decode (bytes ++ [10]) = (decode bytes).map (· ++ ['\n']) := by
  rw [decode, decodeFrom_append_feed, decode]
  cases decodeFrom 0 [] bytes with
  | error i => rfl
  | ok text =>
    show decodeFrom _ ('\n' :: text.reverse) [] = _
    rw [decodeFrom, List.reverse_cons, List.reverse_reverse]
    rfl

theorem append_of_decodeFrom (position : Nat) (read : List Char) (bytes : List UInt8)
    (h : decodeFrom position read bytes = .ok text) :
    encode text = encode read.reverse ++ bytes := by
  fun_induction decodeFrom position read bytes with
  | case1 position read =>
    rw [← Except.ok.inj h, List.append_nil]
  | case2 => cases h
  | case3 position read b rest c rest' hchar _ ih =>
    rw [ih h, eq_append_of_decodeChar? hchar, List.reverse_cons, encode, encode,
      List.flatMap_append, List.flatMap_singleton, List.append_assoc]

/-- What is read was written. -/
theorem encode_of_decode (h : decode bytes = .ok text) : encode text = bytes :=
  append_of_decodeFrom 0 [] bytes h

theorem encode_cons (c : Char) (text : List Char) :
    encode (c :: text) = String.utf8EncodeChar c ++ encode text := List.flatMap_cons

theorem length_encode (text : List Char) : (encode text).length = byteLength text := by
  induction text with
  | nil => rfl
  | cons c text ih =>
    rw [encode_cons, List.length_append, String.length_utf8EncodeChar, byteLength_cons, ih]

theorem byteLength_of_decode (h : decode bytes = .ok text) : byteLength text = bytes.length := by
  rw [← length_encode, encode_of_decode h]

/-- A text, with its bytes taken for characters one by one. -/
def octets (text : List Char) : List Char := (encode text).map Codec.charOfByte

theorem map_of_decode (h : decode bytes = .ok text) : bytes.map Codec.charOfByte = octets text := by
  rw [octets, encode_of_decode h]

theorem toNat_charOfByte (b : UInt8) : (Codec.charOfByte b).toNat = b.toNat := by
  have hvalid : b.toNat.isValidChar := Or.inl (Nat.lt_trans b.toNat_lt (by decide))
  rw [Codec.charOfByte, Char.ofNat, dif_pos hvalid]
  rfl

theorem charOfByte_ofNat (h : c.toNat < 128) : Codec.charOfByte (UInt8.ofNat c.toNat) = c := by
  have hbyte : (UInt8.ofNat c.toNat).toNat = c.toNat := UInt8.toNat_ofNat_of_lt' (by
    show c.toNat < 256
    omega)
  rw [Codec.charOfByte, hbyte, Char.ofNat_toNat]

theorem octets_cons (c : Char) (text : List Char) :
    octets (c :: text) = (String.utf8EncodeChar c).map Codec.charOfByte ++ octets text := by
  rw [octets, encode_cons, List.map_append]
  rfl

/-- An ASCII character is its byte. -/
theorem octets_cons_of_lt (h : c.toNat < 128) (text : List Char) :
    octets (c :: text) = c :: octets text := by
  have hencode : String.utf8EncodeChar c = [UInt8.ofNat c.toNat] := by
    rw [String.utf8EncodeChar]
    exact if_pos (Nat.le_of_lt_succ h)
  rw [octets_cons, hencode, List.map_singleton, charOfByte_ofNat h, List.singleton_append]

/-- No byte of any other character is ASCII. -/
theorem le_of_mem_utf8EncodeChar (h : 128 ≤ c.toNat) {b : UInt8}
    (hb : b ∈ String.utf8EncodeChar c) : 128 ≤ b.toNat := by
  have hc : ¬c.val.toNat ≤ 127 := Nat.not_le.2 h
  have hbyte : ∀ n, n < 256 → 128 ≤ n → 128 ≤ (UInt8.ofNat n).toNat := by
    intro n hn hle
    rwa [UInt8.toNat_ofNat_of_lt' hn]
  simp only [String.utf8EncodeChar, if_neg hc] at hb
  split at hb
  · simp only [List.mem_cons, List.not_mem_nil, or_false] at hb
    rcases hb with rfl | rfl
    all_goals exact hbyte _ (by omega) (by omega)
  · split at hb
    · simp only [List.mem_cons, List.not_mem_nil, or_false] at hb
      rcases hb with rfl | rfl | rfl
      all_goals exact hbyte _ (by omega) (by omega)
    · simp only [List.mem_cons, List.not_mem_nil, or_false] at hb
      rcases hb with rfl | rfl | rfl | rfl
      all_goals exact hbyte _ (by omega) (by omega)

theorem octets_cons_of_le (h : 128 ≤ c.toNat) (text : List Char) :
    ∃ d ds, octets (c :: text) = (d :: ds) ++ octets text ∧ ∀ x ∈ d :: ds, 128 ≤ x.toNat := by
  have hne : (String.utf8EncodeChar c).map Codec.charOfByte ≠ [] := by
    rw [Ne, List.map_eq_nil_iff, ← List.length_eq_zero_iff, String.length_utf8EncodeChar]
    have := c.utf8Size_pos
    omega
  obtain ⟨d, ds, hds⟩ := List.exists_cons_of_ne_nil hne
  refine ⟨d, ds, by rw [octets_cons, hds], fun x hx => ?_⟩
  rw [← hds] at hx
  obtain ⟨b, hb, rfl⟩ := List.mem_map.1 hx
  rw [toNat_charOfByte]
  exact le_of_mem_utf8EncodeChar h hb

section Ascii

variable {p : Char → Bool} (hp : ∀ c, p c = true → c.toNat < 128)

include hp

theorem takeWhile_octets (text : List Char) : (octets text).takeWhile p = text.takeWhile p := by
  induction text with
  | nil => rfl
  | cons c text ih =>
    by_cases hc : c.toNat < 128
    · rw [octets_cons_of_lt hc, List.takeWhile_cons, List.takeWhile_cons, ih]
    · obtain ⟨d, ds, heq, hds⟩ := octets_cons_of_le (Nat.not_lt.1 hc) text
      have hout : ¬p c = true := fun hpc => hc (hp c hpc)
      have hout' : ¬p d = true := fun hpd => Nat.not_le.2 (hp d hpd) (hds d List.mem_cons_self)
      rw [heq, List.cons_append, List.takeWhile_cons, if_neg hout', List.takeWhile_cons,
        if_neg hout]

theorem dropWhile_octets (text : List Char) :
    (octets text).dropWhile p = octets (text.dropWhile p) := by
  induction text with
  | nil => rfl
  | cons c text ih =>
    by_cases hc : c.toNat < 128
    · rw [octets_cons_of_lt hc, List.dropWhile_cons, List.dropWhile_cons, ih]
      split
      · rfl
      · rw [octets_cons_of_lt hc]
    · obtain ⟨d, ds, heq, hds⟩ := octets_cons_of_le (Nat.not_lt.1 hc) text
      have hout : ¬p c = true := fun hpc => hc (hp c hpc)
      have hout' : ¬p d = true := fun hpd => Nat.not_le.2 (hp d hpd) (hds d List.mem_cons_self)
      rw [heq, List.cons_append, List.dropWhile_cons, if_neg hout', List.dropWhile_cons,
        if_neg hout, heq, List.cons_append]

end Ascii

theorem octets_append_of_lt {word : List Char} (h : ∀ c ∈ word, c.toNat < 128) (text : List Char) :
    octets (word ++ text) = word ++ octets text := by
  induction word with
  | nil => rfl
  | cons c word ih =>
    rw [List.cons_append, octets_cons_of_lt (h c List.mem_cons_self),
      ih fun d hd => h d (List.mem_cons_of_mem _ hd), List.cons_append]

/-- An ASCII word stands at the front of the characters if it stands at the front of the bytes. -/
theorem prefix_octets_iff {word : List Char} (h : ∀ c ∈ word, c.toNat < 128) {text : List Char} :
    word <+: octets text ↔ word <+: text := by
  induction word generalizing text with
  | nil => exact ⟨fun _ => List.nil_prefix, fun _ => List.nil_prefix⟩
  | cons w word ih =>
    have hw := h w List.mem_cons_self
    have hword : ∀ {text : List Char}, word <+: octets text ↔ word <+: text :=
      ih fun d hd => h d (List.mem_cons_of_mem _ hd)
    cases text with
    | nil => exact Iff.rfl
    | cons c text =>
      by_cases hc : c.toNat < 128
      · rw [octets_cons_of_lt hc, List.cons_prefix_cons, List.cons_prefix_cons, hword]
      · obtain ⟨d, ds, heq, hds⟩ := octets_cons_of_le (Nat.not_lt.1 hc) text
        have hle := hds d List.mem_cons_self
        rw [heq, List.cons_append, List.cons_prefix_cons, List.cons_prefix_cons]
        constructor
        · rintro ⟨rfl, _⟩
          omega
        · rintro ⟨rfl, _⟩
          exact absurd hw hc

/-- ASCII bytes are read as the characters with these code points. -/
theorem decode_of_lt (h : ∀ b ∈ bytes, b.toNat < 128) :
    decode bytes = .ok (bytes.map Codec.charOfByte) := by
  suffices hall : ∀ (position : Nat) (read : List Char), decodeFrom position read bytes =
      .ok (read.reverse ++ bytes.map Codec.charOfByte) from hall 0 []
  induction bytes with
  | nil =>
    intro position read
    rw [decodeFrom, List.map_nil, List.append_nil]
  | cons b bytes ih =>
    intro position read
    have hb := h b List.mem_cons_self
    have hchar : decodeChar? (b :: bytes) = some (Codec.charOfByte b, bytes) := by
      have hvalid : b.toNat.isValidChar := Or.inl (by omega)
      rw [decodeChar?, if_pos hb, charOfPoint?, dif_pos hvalid, Codec.charOfByte, Char.ofNat,
        dif_pos hvalid]
      rfl
    rw [decodeFrom_of_some hchar, ih fun d hd => h d (List.mem_cons_of_mem _ hd), List.reverse_cons,
      List.append_assoc]
    rfl

end Offside.Text
