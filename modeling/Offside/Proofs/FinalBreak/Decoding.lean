import Offside.Source
import Offside.Proofs.Text.Breaks
import Offside.Proofs.Text.Decoding

/-!
Decoding bytes that are followed by one more line feed. No multi-byte character, mark or cookie
can take part in the line feed, so that what is read is what was read without it, and a line feed.
-/

namespace Offside

namespace Text

theorem isLayout_newline : isLayout '\n' = false := by decide

theorem encode_concat (text : List Char) : encode (text ++ ['\n']) = encode text ++ [10] := by
  rw [encode, List.flatMap_append]
  rfl

end Text

namespace Source

open Text

theorem read_concat (codec : Codec) (bytes : List UInt8) :
    codec.read (bytes ++ [10]) = (codec.read bytes).map (· ++ ['\n']) := by
  cases codec with
  | utf8 => exact decode_concat bytes
  | latin1 =>
    simp only [Codec.read, List.map_append]
    rfl
  | ascii =>
    simp only [Codec.read, List.findIdx?_append, List.map_append]
    cases bytes.findIdx? fun b => 128 ≤ b.toNat <;> rfl

theorem cutMark_concat (bytes : List UInt8) :
    cutMark (bytes ++ [10]) = ((cutMark bytes).1 ++ [10], (cutMark bytes).2) := by
  match bytes with
  | [] => rfl
  | [a] => simp [cutMark, mark, List.isPrefixOf]
  | [a, b] => simp [cutMark, mark, List.isPrefixOf]
  | a :: b :: c :: rest =>
    simp only [cutMark, mark, List.cons_append, List.isPrefixOf]
    split <;> rfl

theorem isPrefixOf_concat {word : List Char} {a : Char} (ha : a ∉ word) (text : List Char) :
    word.isPrefixOf (text ++ [a]) = word.isPrefixOf text := by
  induction word generalizing text with
  | nil => rw [List.isPrefixOf_nil_left, List.isPrefixOf_nil_left]
  | cons b word ih =>
    rw [List.mem_cons, not_or] at ha
    cases text with
    | nil => simp [List.isPrefixOf, Ne.symm ha.1]
    | cons c text => rw [List.cons_append, List.isPrefixOf, List.isPrefixOf, ih ha.2]

theorem isNameChar_newline : isNameChar '\n' = false := by decide

/-- A declared name ends before the line feed. -/
theorem cookieAt?_concat (text : List Char) : cookieAt? (text ++ ['\n']) = cookieAt? text := by
  unfold cookieAt?
  rw [isPrefixOf_concat (by decide)]
  split
  · next hword =>
    have hlength := (List.isPrefixOf_iff_prefix.1 hword).length_le
    rw [List.drop_append_of_le_length hlength]
    cases text.drop cookieWord.length with
    | nil => rfl
    | cons c rest =>
      have hname :
          ((rest ++ ['\n']).dropWhile fun c => c == ' ' || c == '\t').takeWhile isNameChar =
            (rest.dropWhile fun c => c == ' ' || c == '\t').takeWhile isNameChar := by
        rw [dropWhile_append_cons (by decide), takeWhile_append_cons isNameChar_newline]
      simp only [List.cons_append, hname]
  · rfl

theorem cookieWithin?_concat (text : List Char) :
    cookieWithin? (text ++ ['\n']) = cookieWithin? text := by
  induction text with
  | nil => rfl
  | cons c rest ih =>
    have h := cookieAt?_concat (c :: rest)
    rw [List.cons_append] at h
    rw [List.cons_append, cookieWithin?, cookieWithin?, h, ih]

theorem cookieOfLine?_concat (line : List Char) :
    cookieOfLine? (line ++ ['\n']) = cookieOfLine? line := by
  simp only [cookieOfLine?, dropWhile_append_cons isLayout_newline]
  cases line.dropWhile isLayout with
  | nil => rfl
  | cons c comment =>
    rw [List.cons_append]
    split
    · next heq =>
      obtain ⟨rfl, rfl⟩ := List.cons.inj heq
      exact cookieWithin?_concat comment
    · next hne =>
      split
      · next heq =>
        obtain ⟨rfl, rfl⟩ := List.cons.inj heq
        exact absurd rfl (hne _)
      · rfl

theorem holdsNoCode_concat (line : List Char) :
    holdsNoCode (line ++ ['\n']) = holdsNoCode line := by
  simp only [holdsNoCode, dropWhile_append_cons isLayout_newline]
  cases line.dropWhile isLayout <;> rfl

/-- A line that is cut off before the line feed is the same line. -/
theorem cutLine_concat_of_feed {bytes : List UInt8} (h : bytes.dropWhile (· != 10) ≠ []) :
    cutLine (bytes ++ [10]) = ((cutLine bytes).1, (cutLine bytes).2 ++ [10]) := by
  obtain ⟨b, rest, hdrop⟩ := List.exists_cons_of_ne_nil h
  have hdrop' : (bytes ++ [10]).dropWhile (· != 10) = b :: (rest ++ [10]) := by
    rw [dropWhile_append_cons (by decide), hdrop, List.cons_append]
  have htake : (bytes ++ [10]).takeWhile (· != 10) = bytes.takeWhile (· != 10) :=
    takeWhile_append_cons (by decide) bytes []
  simp only [cutLine, hdrop, hdrop', htake]

theorem cutLine_concat_of_no_feed {bytes : List UInt8} (h : bytes.dropWhile (· != 10) = []) :
    cutLine (bytes ++ [10]) = (bytes ++ [10], []) := by
  have hdrop : (bytes ++ [10]).dropWhile (· != 10) = [10] := by
    rw [dropWhile_append_cons (by decide), h, List.nil_append]
  have htake : (bytes ++ [10]).takeWhile (· != 10) = bytes := by
    have := List.takeWhile_append_dropWhile (p := (· != 10)) (l := bytes)
    rw [takeWhile_append_cons (by decide)]
    rwa [h, List.append_nil] at this
  simp only [cutLine, hdrop, htake]

theorem cutLine_of_no_feed {bytes : List UInt8} (h : bytes.dropWhile (· != 10) = []) :
    cutLine bytes = (bytes, []) := by
  rw [cutLine, h]

theorem cookieInLines?_concat (n : Nat) (bytes : List UInt8) :
    cookieInLines? n (bytes ++ [10]) = cookieInLines? n bytes := by
  induction n generalizing bytes with
  | zero => rfl
  | succ n ih =>
    rw [cookieInLines?, cookieInLines?]
    by_cases h : bytes.dropWhile (· != 10) = []
    · rw [cutLine_concat_of_no_feed h, cutLine_of_no_feed h]
      simp only [decode_concat]
      cases Text.decode bytes with
      | error i => rfl
      | ok line => simp only [Except.map, cookieOfLine?_concat, holdsNoCode_concat]
    · rw [cutLine_concat_of_feed h]
      simp only [ih]

theorem cookie?_concat (bytes : List UInt8) : cookie? (bytes ++ [10]) = cookie? bytes := by
  rw [cookie?, cookie?, cookieInLines?_concat]

/-- A source with a line feed after it. -/
def endLine (s : Source) : Source := { s with text := s.text ++ ['\n'] }

theorem readBody_concat {codec : Codec} {body : List UInt8} {base base' : Nat} {text' : List Char}
    (h : readBody codec (body ++ [10]) base' = .ok text') :
    ∃ text, readBody codec body base = .ok text ∧ text' = text ++ ['\n'] := by
  unfold readBody at *
  rw [read_concat] at h
  cases hread : codec.read body with
  | error i =>
    rw [hread] at h
    cases h
  | ok text =>
    rw [hread] at h
    cases h
    exact ⟨text, rfl, rfl⟩

/-- Bytes that can be read with a line feed after them can be read without it. -/
theorem decode_of_concat {mode : DecodeMode} {declared? : Option String} {bytes : List UInt8}
    {s' : Source} (h : decode mode declared? (bytes ++ [10]) = .ok s') :
    ∃ s, decode mode declared? bytes = .ok s ∧ s' = s.endLine := by
  unfold decode at *
  rw [cutMark_concat] at h
  split at h
  · cases h
  · next hsize =>
    rw [List.length_append] at hsize
    rw [if_neg (by omega)]
    cases mode with
    | raw =>
      obtain ⟨text', htext', h⟩ := bind_eq_ok.1 h
      obtain ⟨text, htext, rfl⟩ := readBody_concat htext'
      cases h
      exact ⟨⟨text, some "utf-8"⟩, bind_eq_ok.2 ⟨text, htext, rfl⟩, rfl⟩
    | cookie =>
      simp only [cookie?_concat] at h
      obtain ⟨encoding?, hencoding, h⟩ := bind_eq_ok.1 h
      obtain ⟨codec, hcodec, h⟩ := bind_eq_ok.1 h
      obtain ⟨text', htext', h⟩ := bind_eq_ok.1 h
      obtain ⟨text, htext, rfl⟩ := readBody_concat htext'
      cases h
      exact ⟨⟨text, encoding?⟩, bind_eq_ok.2 ⟨encoding?, hencoding, bind_eq_ok.2
        ⟨codec, hcodec, bind_eq_ok.2 ⟨text, htext, rfl⟩⟩⟩, rfl⟩

end Source
end Offside
