import Offside.Proofs.Source.Cookies

/-!
How a source is decoded. The encoding and its codec are settled first, from the mode, a mark, a
cookie and what is declared; then the codec reads what stands behind the mark. The codec is the one
that the reported encoding names, and is UTF-8 if there is a mark.
-/

namespace Offside.Source

variable {mode : DecodeMode} {declared? encoding? : Option String} {bytes : List UInt8}
  {text : List Char} {codec : Codec} {s : Source}

/-- The codec that a source was read in: UTF-8 if it reports no encoding. -/
def readIn (s : Source) : Codec := (s.encoding?.bind Codec.ofName?).getD .utf8

/-- The encoding that a source is to be read in and its codec, if they can be told. -/
def reading (mode : DecodeMode) (declared? : Option String) (bytes : List UInt8) :
    Except DecodeError (Option String × Codec) :=
  match mode with
  | .raw => .ok (some "utf-8", .utf8)
  | .cookie => do
    let encoding? ← chooseEncoding (declared?.map canonicalName)
      ((cookie? (cutMark bytes).1).map canonicalName) (cutMark bytes).2
    let codec ← codecOf encoding? (cutMark bytes).2
    pure (encoding?, codec)

/-- Decoding settles the encoding and then reads. -/
theorem decode_eq (mode : DecodeMode) (declared? : Option String) (bytes : List UInt8) :
    decode mode declared? bytes =
      if maxPosition < bytes.length then .error (.tooLarge bytes.length)
      else reading mode declared? bytes >>= fun (encoding?, codec) =>
        (readBody codec (cutMark bytes).1 (bytes.length - (cutMark bytes).1.length)).map
          fun text => ⟨text, encoding?⟩ := by
  unfold decode reading
  split
  · rfl
  · cases mode with
    | raw => rfl
    | cookie =>
      dsimp only
      cases chooseEncoding (declared?.map canonicalName)
        ((cookie? (cutMark bytes).1).map canonicalName) (cutMark bytes).2 with
      | error e => rfl
      | ok encoding? =>
        show (codecOf encoding? (cutMark bytes).2 >>= _) =
          ((codecOf encoding? (cutMark bytes).2 >>= _) >>= _)
        cases codecOf encoding? (cutMark bytes).2 with
        | error e => rfl
        | ok codec =>
          show (readBody _ _ _ >>= _) = (readBody _ _ _).map _
          cases readBody codec (cutMark bytes).1 (bytes.length - (cutMark bytes).1.length) <;> rfl

theorem codecOf_eq_ok {marked : Bool} (h : codecOf encoding? marked = .ok codec) :
    (encoding?.bind Codec.ofName?).getD .utf8 = codec ∧
      (∀ name ∈ encoding?, Codec.ofName? name = some codec) ∧ (marked = true → codec = .utf8) := by
  cases encoding? with
  | none =>
    obtain rfl := Except.ok.inj h
    exact ⟨rfl, nofun, fun _ => rfl⟩
  | some name =>
    unfold codecOf at h
    dsimp only at h
    split at h
    · cases h
    · next codec' hname =>
      split at h
      · cases h
      · next hmark =>
        obtain rfl := Except.ok.inj h
        refine ⟨by rw [Option.bind_some, hname, Option.getD_some], fun _ hmem => ?_, ?_⟩
        · rw [← Option.mem_some_iff.1 hmem, hname]
        · intro hmarked
          by_contra hne
          exact hmark (by rw [hmarked, bne_iff_ne.2 hne, Bool.and_self])

/-- The codec is the one that the encoding names, and a mark admits UTF-8 alone. -/
theorem reading_eq_ok (text : List Char)
    (h : reading mode declared? bytes = .ok (encoding?, codec)) :
    readIn ⟨text, encoding?⟩ = codec ∧ (∀ name ∈ encoding?, Codec.ofName? name = some codec) ∧
      ((cutMark bytes).2 = true → codec = .utf8) := by
  cases mode with
  | raw =>
    obtain ⟨rfl, rfl⟩ := Prod.mk.inj (Except.ok.inj h)
    have hname : Codec.ofName? "utf-8" = some .utf8 := by decide
    refine ⟨by rw [readIn, Option.bind_some, hname, Option.getD_some], fun _ hmem => ?_,
      fun _ => rfl⟩
    rw [← Option.mem_some_iff.1 hmem, hname]
  | cookie =>
    obtain ⟨encoding?, -, h⟩ := bind_eq_ok.1 h
    obtain ⟨codec', hcodec, h⟩ := bind_eq_ok.1 h
    obtain ⟨rfl, rfl⟩ := Prod.mk.inj (Except.ok.inj h)
    exact codecOf_eq_ok hcodec

theorem read_of_readBody {body : List UInt8} {base : Nat}
    (h : readBody codec body base = .ok text) : codec.read body = .ok text := by
  unfold readBody at h
  split at h
  · next text' hread =>
    obtain rfl := Except.ok.inj h
    exact hread
  · cases h

/-- What is read of a source, and in what. -/
theorem read_of_decode (h : decode mode declared? bytes = .ok s) :
    bytes.length ≤ maxPosition ∧ reading mode declared? bytes = .ok (s.encoding?, s.readIn) ∧
      s.readIn.read (cutMark bytes).1 = .ok s.text := by
  rw [decode_eq] at h
  split at h
  · cases h
  · next hsize =>
    obtain ⟨⟨encoding?, codec⟩, hreading, h⟩ := bind_eq_ok.1 h
    obtain ⟨text, htext, rfl⟩ := map_eq_ok h
    rw [(reading_eq_ok text hreading).1]
    exact ⟨Nat.not_lt.1 hsize, hreading, read_of_readBody htext⟩

/-- No byte is at fault before the codec is known. -/
theorem reading_ne_invalidByte {byte : UInt8} {position : Nat} :
    reading mode declared? bytes ≠ .error (.invalidByte codec byte position) := by
  intro h
  cases mode with
  | raw => cases h
  | cookie =>
    rcases bind_eq_error.1 h with h | ⟨encoding?, -, h⟩
    · unfold chooseEncoding at h
      split at h
      · split at h <;> cases h
      all_goals cases h
    · rcases bind_eq_error.1 h with h | ⟨codec', -, h⟩
      · unfold codecOf at h
        split at h
        · cases h
        · split at h
          · cases h
          · split at h <;> cases h
      · cases h

/-- What is told of a byte that cannot be read. -/
theorem error_of_decode {byte : UInt8} {position : Nat}
    (h : decode mode declared? bytes = .error (.invalidByte codec byte position)) :
    ∃ encoding? i, reading mode declared? bytes = .ok (encoding?, codec) ∧
      codec.read (cutMark bytes).1 = .error i ∧ (cutMark bytes).1[i]?.getD 0 = byte ∧
      position = bytes.length - (cutMark bytes).1.length + i := by
  rw [decode_eq] at h
  split at h
  · cases h
  · rcases bind_eq_error.1 h with h | ⟨⟨encoding?, codec'⟩, hreading, h⟩
    · exact absurd h reading_ne_invalidByte
    · dsimp only at h
      unfold readBody at h
      split at h
      · cases h
      · next i hread =>
        obtain ⟨rfl, rfl, rfl⟩ := DecodeError.invalidByte.inj (Except.error.inj h)
        exact ⟨encoding?, i, hreading, hread, rfl, rfl⟩

end Offside.Source
