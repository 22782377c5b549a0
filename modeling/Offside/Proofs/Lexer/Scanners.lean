import Offside.Lexer.Plain
import Offside.Proofs.Text.Breaks

/-!
What the scanner of plain tokens takes from a text. A token and what is left make up the text, and
no plain token holds a line break.
-/

namespace Offside

open Text

namespace Plain

theorem fraction_append (text : List Char) : (fraction text).1 ++ (fraction text).2 = text := by
  unfold fraction
  split
  · rw [List.cons_append, List.takeWhile_append_dropWhile]
  · rfl

theorem sign_append (text : List Char) : (sign text).1 ++ (sign text).2 = text := by
  unfold sign
  split
  · split <;> rfl
  · rfl

theorem imaginary_append (text : List Char) :
    (imaginary text).1 ++ (imaginary text).2 = text := by
  unfold imaginary
  split
  · split <;> rfl
  · rfl

theorem exponent_append (text : List Char) : (exponent text).1 ++ (exponent text).2 = text := by
  unfold exponent
  split
  · next e rest =>
    have hsign := sign_append rest
    dsimp only
    split
    · split
      · rfl
      · rw [List.cons_append, List.append_assoc, List.takeWhile_append_dropWhile, hsign]
    · rfl
  · rfl

theorem decimalTail_append (read text : List Char) :
    (decimalTail read text).1 ++ (decimalTail read text).2 = read ++ text := by
  have hexponent := exponent_append text
  have himaginary := imaginary_append (exponent text).2
  simp only [decimalTail, List.append_assoc, himaginary, hexponent]

theorem append_of_word? {text : List Char} {x : List Char × List Char} (h : word? text = some x) :
    x.1 ++ x.2 = text := by
  unfold word? at h
  split at h
  · split at h
    · obtain rfl := Option.some.inj h
      exact List.takeWhile_append_dropWhile
    · cases h
  · cases h

theorem append_of_radixNumeral? {text : List Char} {x : List Char × List Char}
    (h : radixNumeral? text = some x) : x.1 ++ x.2 = text := by
  unfold radixNumeral? at h
  split at h
  · obtain ⟨isDigit, _, h⟩ := Option.bind_eq_some_iff.1 h
    dsimp only at h
    split at h
    · cases h
    · obtain rfl := Option.some.inj h
      simp only [List.cons_append, List.takeWhile_append_dropWhile]
  · cases h

theorem append_of_decimalNumeral? {text : List Char} {x : List Char × List Char}
    (h : decimalNumeral? text = some x) : x.1 ++ x.2 = text := by
  unfold decimalNumeral? at h
  split at h
  · cases h
  · next c rest =>
    split at h
    · have hfraction := fraction_append ((c :: rest).dropWhile isDecimalChar)
      generalize fraction ((c :: rest).dropWhile isDecimalChar) = f at h hfraction
      obtain rfl := Option.some.inj h
      rw [decimalTail_append, List.append_assoc, hfraction, List.takeWhile_append_dropWhile]
    · split at h
      · have hfraction := fraction_append (c :: rest)
        generalize fraction (c :: rest) = f at h hfraction
        obtain rfl := Option.some.inj h
        rw [decimalTail_append, hfraction]
      · cases h

theorem append_of_operatorOf? {n : Nat} {text : List Char} {x : Kind × List Char × List Char}
    (h : operatorOf? n text = some x) : x.2.1 ++ x.2.2 = text := by
  obtain ⟨k, _, rfl⟩ := Option.map_eq_some_iff.1 h
  exact List.take_append_drop n text

/-- A token and what is left make up the text. -/
theorem append_of_scan? {text read rest : List Char} {k : Kind}
    (h : scan? text = some (k, read, rest)) : read ++ rest = text := by
  simp only [scan?, numeral?, operator?, Option.orElse_eq_orElse, Option.orElse_eq_or,
    Option.or_eq_some_iff, Option.map_eq_some_iff] at h
  rcases h with ⟨_, h, he⟩ | ⟨_, ⟨_, h, he⟩ | ⟨_, h⟩⟩
  · cases he
    exact append_of_word? h
  · cases he
    rcases h with h | ⟨_, h⟩
    · exact append_of_radixNumeral? h
    · exact append_of_decimalNumeral? h
  · rcases h with h | ⟨_, h | ⟨_, h⟩⟩
    all_goals exact append_of_operatorOf? h

theorem unbroken_sign (text : List Char) : Unbroken (sign text).1 := by
  unfold sign
  split
  · split
    · next h =>
      rcases h with rfl | rfl
      all_goals exact unbroken_cons.2 ⟨by decide, unbroken_nil⟩
    · exact unbroken_nil
  · exact unbroken_nil

theorem unbroken_decimals (text : List Char) : Unbroken (text.takeWhile isDecimalChar) :=
  unbroken_takeWhile (by decide) (by decide) text

theorem unbroken_fraction (text : List Char) : Unbroken (fraction text).1 := by
  unfold fraction
  split
  · exact unbroken_cons.2 ⟨by decide, unbroken_decimals _⟩
  · exact unbroken_nil

theorem unbroken_exponent (text : List Char) : Unbroken (exponent text).1 := by
  unfold exponent
  split
  · next e rest =>
    split
    · next he =>
      have hsign := unbroken_sign rest
      dsimp only
      split
      · exact unbroken_nil
      · refine unbroken_cons.2 ⟨?_, unbroken_append.2 ⟨hsign, unbroken_decimals _⟩⟩
        rcases he with rfl | rfl <;> decide
    · exact unbroken_nil
  · exact unbroken_nil

theorem unbroken_imaginary (text : List Char) : Unbroken (imaginary text).1 := by
  unfold imaginary
  split
  · split
    · next h =>
      rcases h with rfl | rfl
      all_goals exact unbroken_cons.2 ⟨by decide, unbroken_nil⟩
    · exact unbroken_nil
  · exact unbroken_nil

theorem unbroken_decimalTail {read : List Char} (h : Unbroken read) (text : List Char) :
    Unbroken (decimalTail read text).1 := by
  have hexponent := unbroken_exponent text
  have himaginary := unbroken_imaginary (exponent text).2
  exact unbroken_append.2 ⟨unbroken_append.2 ⟨h, hexponent⟩, himaginary⟩

theorem unbroken_word? {text : List Char} {x : List Char × List Char} (h : word? text = some x) :
    Unbroken x.1 := by
  unfold word? at h
  split at h
  · split at h
    · obtain rfl := Option.some.inj h
      exact unbroken_takeWhile (by decide) (by decide) _
    · cases h
  · cases h

theorem unbroken_of_radixDigits? {letter : Char} {isDigit : Char → Bool}
    (h : radixDigits? letter = some isDigit) :
    isBreak letter = false ∧ ∀ text : List Char, Unbroken (text.takeWhile isDigit) := by
  have hletter : isBreak letter = false := by
    rw [isBreak, Bool.or_eq_false_iff, beq_eq_false_iff_ne, beq_eq_false_iff_ne]
    constructor
    · rintro rfl
      have hnone : radixDigits? '\n' = none := by decide
      rw [hnone] at h
      cases h
    · rintro rfl
      have hnone : radixDigits? '\r' = none := by decide
      rw [hnone] at h
      cases h
  refine ⟨hletter, fun text => ?_⟩
  unfold radixDigits? at h
  split at h
  · cases h
    exact unbroken_takeWhile (by decide) (by decide) text
  · cases h
    exact unbroken_takeWhile (by decide) (by decide) text
  · cases h
    exact unbroken_takeWhile (by decide) (by decide) text
  · cases h

theorem unbroken_radixNumeral? {text : List Char} {x : List Char × List Char}
    (h : radixNumeral? text = some x) : Unbroken x.1 := by
  unfold radixNumeral? at h
  split at h
  · obtain ⟨isDigit, hdigits, h⟩ := Option.bind_eq_some_iff.1 h
    dsimp only at h
    split at h
    · cases h
    · obtain rfl := Option.some.inj h
      obtain ⟨hletter, htake⟩ := unbroken_of_radixDigits? hdigits
      exact unbroken_cons.2 ⟨by decide, unbroken_cons.2 ⟨hletter, htake _⟩⟩
  · cases h

theorem unbroken_decimalNumeral? {text : List Char} {x : List Char × List Char}
    (h : decimalNumeral? text = some x) : Unbroken x.1 := by
  unfold decimalNumeral? at h
  split at h
  · cases h
  · next c rest =>
    split at h
    · obtain rfl := Option.some.inj h
      exact unbroken_decimalTail (unbroken_append.2 ⟨unbroken_decimals _, unbroken_fraction _⟩) _
    · split at h
      · obtain rfl := Option.some.inj h
        exact unbroken_decimalTail (unbroken_fraction _) _
      · cases h

theorem unbroken_of_spelling? {s : String} {k : Kind} (h : k.spelling? = some s) :
    Unbroken s.toList := by
  cases k
  all_goals first | (obtain rfl := Option.some.inj h; decide) | cases h

/-- No operator is spelled with a line break. -/
theorem unbroken_of_ofSpelling? {s : String} {k : Kind} (h : Kind.ofSpelling? s = some k) :
    Unbroken s.toList := by
  unfold Kind.ofSpelling? at h
  split at h
  · next heq =>
    rw [eq_of_beq heq]
    decide
  · have hk := List.find?_some h
    exact unbroken_of_spelling? (eq_of_beq hk)

theorem unbroken_operatorOf? {n : Nat} {text : List Char} {x : Kind × List Char × List Char}
    (h : operatorOf? n text = some x) : Unbroken x.2.1 := by
  obtain ⟨k, hk, rfl⟩ := Option.map_eq_some_iff.1 h
  have hunbroken := unbroken_of_ofSpelling? hk
  rwa [String.toList_ofList] at hunbroken

end Plain

/-- Whether a kind is that of a word, a numeral or an operator. -/
def Kind.isPlain (k : Kind) : Bool :=
  k == .word || k == .numeral || k == .async || k == .await || k.spelling?.isSome

namespace Plain

theorem isPlain_operatorOf? {n : Nat} {text : List Char} {x : Kind × List Char × List Char}
    (h : operatorOf? n text = some x) : x.1.isPlain = true := by
  obtain ⟨k, hk, rfl⟩ := Option.map_eq_some_iff.1 h
  unfold Kind.ofSpelling? at hk
  split at hk
  · cases hk
    rfl
  · have hspelling := List.find?_some hk
    show k.isPlain = true
    rw [Kind.isPlain, eq_of_beq hspelling]
    exact Bool.or_true _

/-- A plain token is a word, a numeral or an operator, and holds no line break. -/
theorem plain_of_scan? {text read rest : List Char} {k : Kind}
    (h : scan? text = some (k, read, rest)) : k.isPlain = true ∧ Unbroken read := by
  simp only [scan?, numeral?, operator?, Option.orElse_eq_orElse, Option.orElse_eq_or,
    Option.or_eq_some_iff, Option.map_eq_some_iff] at h
  rcases h with ⟨_, h, he⟩ | ⟨_, ⟨_, h, he⟩ | ⟨_, h⟩⟩
  · cases he
    exact ⟨rfl, unbroken_word? h⟩
  · cases he
    rcases h with h | ⟨_, h⟩
    · exact ⟨rfl, unbroken_radixNumeral? h⟩
    · exact ⟨rfl, unbroken_decimalNumeral? h⟩
  · rcases h with h | ⟨_, h | ⟨_, h⟩⟩
    all_goals exact ⟨isPlain_operatorOf? h, unbroken_operatorOf? h⟩

/-- No operator is spelled with a hash. -/
theorem hash_not_mem_of_ofSpelling? {s : String} {k : Kind} (h : Kind.ofSpelling? s = some k) :
    '#' ∉ s.toList := by
  unfold Kind.ofSpelling? at h
  split at h
  · next heq =>
    rw [eq_of_beq heq]
    decide
  · have hk := List.find?_some h
    have hspelling : k.spelling? = some s := eq_of_beq hk
    cases k
    all_goals first | (obtain rfl := Option.some.inj hspelling; decide) | cases hspelling

theorem operatorOf?_hash (n : Nat) (rest : List Char) :
    operatorOf? (n + 1) ('#' :: rest) = none := by
  rw [operatorOf?, Option.map_eq_none_iff, ← Option.not_isSome_iff_eq_none,
    Option.isSome_iff_exists]
  rintro ⟨k, hk⟩
  apply hash_not_mem_of_ofSpelling? hk
  rw [String.toList_ofList]
  exact List.mem_cons_self

theorem scan?_hash (rest : List Char) : scan? ('#' :: rest) = none := by
  have hword : word? ('#' :: rest) = none := rfl
  have hnumeral : numeral? ('#' :: rest) = none := rfl
  rw [scan?, hword, hnumeral, operator?, operatorOf?_hash, operatorOf?_hash, operatorOf?_hash]
  rfl

theorem scan?_nil : scan? [] = none := by decide

/-- A plain token starts with neither a hash nor a line break. -/
theorem exists_head_of_scan? {text read rest : List Char} {k : Kind}
    (h : scan? text = some (k, read, rest)) :
    ∃ c tail, text = c :: tail ∧ c ≠ '#' ∧ isBreak c = false := by
  cases text with
  | nil =>
    rw [scan?_nil] at h
    cases h
  | cons c tail =>
    refine ⟨c, tail, rfl, ?_, ?_⟩
    · rintro rfl
      rw [scan?_hash] at h
      cases h
    · obtain ⟨d, read', rfl⟩ := List.exists_cons_of_ne_nil (scan?_read_ne_nil (by simp) h)
      have happend := append_of_scan? h
      obtain rfl : d = c := (List.cons.inj happend).1
      exact (plain_of_scan? h).2 d List.mem_cons_self

end Plain

end Offside
