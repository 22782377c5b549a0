import Offside.Proofs.Lexer.Scanners
import Offside.Proofs.Lexer.Stretches

/-!
Scanners before a line break. A plain token never reaches into a line break, and neither does the
opening of a literal, so that both are the same whatever the break is and whatever follows it. How
the body of a literal is read on is said here character by character.
-/

namespace Offside

open Text

variable {b : Char}

namespace Plain

/-- What was read and what is left, with more text behind it. -/
def thenMore (more : List Char) (x : List Char × List Char) : List Char × List Char :=
  (x.1, x.2 ++ more)

theorem word?_before (hb : isBreak b = true) (text more : List Char) :
    word? (text ++ b :: more) = (word? text).map (thenMore (b :: more)) := by
  have hword : isWordChar b = false := eq_false_of_isBreak (by decide) (by decide) hb
  cases text with
  | nil =>
    have hstart : isWordStart b = false := eq_false_of_isBreak (by decide) (by decide) hb
    simp [word?, hstart]
  | cons c rest =>
    have htake := takeWhile_append_cons hword (c :: rest) more
    have hdrop := dropWhile_append_cons hword (c :: rest) more
    rw [List.cons_append] at htake hdrop
    rw [List.cons_append, word?, word?, htake, hdrop]
    split <;> rfl

theorem radixDigits?_break {letter : Char} {isDigit : Char → Bool}
    (h : radixDigits? letter = some isDigit) (hb : isBreak b = true) : isDigit b = false := by
  unfold radixDigits? at h
  split at h
  all_goals
    first
    | (obtain rfl := Option.some.inj h; exact eq_false_of_isBreak (by decide) (by decide) hb)
    | cases h

theorem radixNumeral?_of_ne {c : Char} (hc : c ≠ '0') (rest : List Char) :
    radixNumeral? (c :: rest) = none := by
  unfold radixNumeral?
  split
  · next heq => exact absurd (List.cons.inj heq).1 hc
  · rfl

theorem radixNumeral?_before (hb : isBreak b = true) (text more : List Char) :
    radixNumeral? (text ++ b :: more) = (radixNumeral? text).map (thenMore (b :: more)) := by
  have hzero : b ≠ '0' := by
    rintro rfl
    cases hb
  have hletter : radixDigits? b = none := by
    cases hradix : radixDigits? b with
    | none => rfl
    | some isDigit => exact absurd hb (by simp [(unbroken_of_radixDigits? hradix).1])
  cases text with
  | nil => exact radixNumeral?_of_ne hzero more
  | cons c text =>
    rw [List.cons_append]
    by_cases hc : c = '0'
    · subst hc
      cases text with
      | nil => simp [radixNumeral?, hletter]
      | cons letter rest =>
        rw [List.cons_append, radixNumeral?, radixNumeral?]
        cases hradix : radixDigits? letter with
        | none => rfl
        | some isDigit =>
          have hbreak := radixDigits?_break hradix hb
          simp only [Option.bind_eq_bind, Option.bind_some, takeWhile_append_cons hbreak,
            dropWhile_append_cons hbreak]
          split <;> rfl
    · rw [radixNumeral?_of_ne hc, radixNumeral?_of_ne hc]
      rfl

theorem isDecimalChar_break (hb : isBreak b = true) : isDecimalChar b = false :=
  eq_false_of_isBreak (by decide) (by decide) hb

theorem fraction_of_ne {c : Char} (hc : c ≠ '.') (rest : List Char) :
    fraction (c :: rest) = ([], c :: rest) := by
  unfold fraction
  split
  · next heq => exact absurd (List.cons.inj heq).1 hc
  · rfl

theorem fraction_before (hb : isBreak b = true) (text more : List Char) :
    fraction (text ++ b :: more) = thenMore (b :: more) (fraction text) := by
  cases text with
  | nil =>
    refine fraction_of_ne ?_ more
    rintro rfl
    cases hb
  | cons c rest =>
    rw [List.cons_append]
    by_cases hc : c = '.'
    · subst hc
      rw [fraction, fraction, takeWhile_append_cons (isDecimalChar_break hb),
        dropWhile_append_cons (isDecimalChar_break hb)]
      rfl
    · rw [fraction_of_ne hc, fraction_of_ne hc]
      rfl

theorem sign_before (hb : isBreak b = true) (text more : List Char) :
    sign (text ++ b :: more) = thenMore (b :: more) (sign text) := by
  cases text with
  | nil =>
    have hsign : ¬(b = '+' ∨ b = '-') := by
      rintro (rfl | rfl) <;> cases hb
    rw [List.nil_append, sign, if_neg hsign]
    rfl
  | cons c rest =>
    rw [List.cons_append, sign, sign]
    split <;> rfl

theorem imaginary_before (hb : isBreak b = true) (text more : List Char) :
    imaginary (text ++ b :: more) = thenMore (b :: more) (imaginary text) := by
  cases text with
  | nil =>
    have hletter : ¬(b = 'j' ∨ b = 'J') := by
      rintro (rfl | rfl) <;> cases hb
    rw [List.nil_append, imaginary, if_neg hletter]
    rfl
  | cons c rest =>
    rw [List.cons_append, imaginary, imaginary]
    split <;> rfl

theorem exponent_before (hb : isBreak b = true) (text more : List Char) :
    exponent (text ++ b :: more) = thenMore (b :: more) (exponent text) := by
  cases text with
  | nil =>
    have hletter : ¬(b = 'e' ∨ b = 'E') := by
      rintro (rfl | rfl) <;> cases hb
    rw [List.nil_append, exponent, if_neg hletter]
    rfl
  | cons e rest =>
    rw [List.cons_append, exponent, exponent, sign_before hb]
    simp only [thenMore, takeWhile_append_cons (isDecimalChar_break hb),
      dropWhile_append_cons (isDecimalChar_break hb)]
    split
    · split <;> rfl
    · rfl

theorem decimalTail_before (hb : isBreak b = true) (read text more : List Char) :
    decimalTail read (text ++ b :: more) = thenMore (b :: more) (decimalTail read text) := by
  simp only [decimalTail, exponent_before hb, thenMore, imaginary_before hb]

theorem decimalNumeral?_before (hb : isBreak b = true) (text more : List Char) :
    decimalNumeral? (text ++ b :: more) = (decimalNumeral? text).map (thenMore (b :: more)) := by
  have hdecimal := isDecimalChar_break hb
  have hdigit : b.isDigit = false := eq_false_of_isBreak (by decide) (by decide) hb
  cases text with
  | nil =>
    have hpoint : b ≠ '.' := by
      rintro rfl
      cases hb
    simp [decimalNumeral?, hdigit, hpoint]
  | cons c rest =>
    have htake := takeWhile_append_cons hdecimal (c :: rest) more
    have hdrop := dropWhile_append_cons hdecimal (c :: rest) more
    have hfraction := fraction_before hb (c :: rest) more
    have hhead : ((rest ++ b :: more).head?.map Char.isDigit).getD false =
        (rest.head?.map Char.isDigit).getD false := by
      cases rest with
      | nil => exact hdigit
      | cons d rest => rfl
    rw [List.cons_append] at htake hdrop hfraction
    rw [List.cons_append, decimalNumeral?, decimalNumeral?, htake, hdrop, hhead, hfraction,
      fraction_before hb]
    simp only [thenMore, decimalTail_before hb]
    split
    · rfl
    · split <;> rfl

theorem numeral?_before (hb : isBreak b = true) (text more : List Char) :
    numeral? (text ++ b :: more) = (numeral? text).map (thenMore (b :: more)) := by
  rw [numeral?, numeral?, radixNumeral?_before hb, decimalNumeral?_before hb]
  cases radixNumeral? text <;> rfl

/-- An operator, with more text behind what is left. -/
def operatorThenMore (more : List Char) (x : Kind × List Char × List Char) :
    Kind × List Char × List Char :=
  (x.1, thenMore more x.2)

theorem operatorOf?_before_of_le {n : Nat} {text : List Char} (h : n ≤ text.length)
    (more : List Char) :
    operatorOf? n (text ++ more) = (operatorOf? n text).map (operatorThenMore more) := by
  rw [operatorOf?, operatorOf?, List.take_append_of_le_length h, List.drop_append_of_le_length h,
    Option.map_map]
  rfl

/-- No operator is spelled with a line break. -/
theorem operatorOf?_before_of_lt (hb : isBreak b = true) {n : Nat} {text : List Char}
    (h : text.length < n) (more : List Char) : operatorOf? n (text ++ b :: more) = none := by
  have hmem : b ∈ (text ++ b :: more).take n := by
    rw [List.take_append, List.take_of_length_le (Nat.le_of_lt h)]
    obtain ⟨m, hm⟩ := Nat.exists_eq_add_of_lt h
    have hlength : n - text.length = m + 1 := by omega
    rw [hlength, List.take_succ_cons]
    exact List.mem_append_right _ List.mem_cons_self
  rw [operatorOf?]
  cases hk : Kind.ofSpelling? (String.ofList ((text ++ b :: more).take n)) with
  | none => rfl
  | some k =>
    have hunbroken := unbroken_of_ofSpelling? hk b (by rwa [String.toList_ofList])
    rw [hb] at hunbroken
    cases hunbroken

/-- An operator of at most `n + 1` characters of a text that has no more than `n`. -/
theorem operatorOf?_of_lt {n : Nat} {text : List Char} (h : text.length ≤ n) :
    operatorOf? (n + 1) text = operatorOf? n text := by
  simp only [operatorOf?, List.take_of_length_le h, List.drop_of_length_le h,
    List.take_of_length_le (Nat.le_succ_of_le h), List.drop_of_length_le (Nat.le_succ_of_le h)]

theorem operator?_before (hb : isBreak b = true) (text more : List Char) :
    operator? (text ++ b :: more) = (operator? text).map (operatorThenMore (b :: more)) := by
  unfold operator?
  by_cases h₃ : 3 ≤ text.length
  · rw [operatorOf?_before_of_le h₃, operatorOf?_before_of_le (n := 2) (by omega),
      operatorOf?_before_of_le (n := 1) (by omega)]
    cases operatorOf? 3 text with
    | some x => rfl
    | none => cases operatorOf? 2 text <;> rfl
  · rw [operatorOf?_before_of_lt hb (n := 3) (by omega), operatorOf?_of_lt (n := 2) (by omega)]
    by_cases h₂ : 2 ≤ text.length
    · rw [operatorOf?_before_of_le h₂, operatorOf?_before_of_le (n := 1) (by omega)]
      cases operatorOf? 2 text <;> rfl
    · rw [operatorOf?_before_of_lt hb (n := 2) (by omega), operatorOf?_of_lt (n := 1) (by omega)]
      by_cases h₁ : 1 ≤ text.length
      · rw [operatorOf?_before_of_le h₁]
        cases operatorOf? 1 text <;> rfl
      · obtain rfl : text = [] := List.length_eq_zero_iff.1 (by omega)
        have hnil : operatorOf? 1 [] = none := by decide
        rw [operatorOf?_before_of_lt hb (n := 1) (by decide), hnil]
        rfl

/-- The plain token at the start of a text is the same before a line break. -/
theorem scan?_before (hb : isBreak b = true) (text more : List Char) :
    scan? (text ++ b :: more) = (scan? text).map (operatorThenMore (b :: more)) := by
  rw [scan?, scan?, word?_before hb, numeral?_before hb, operator?_before hb]
  cases word? text with
  | some x => rfl
  | none => cases numeral? text <;> rfl

end Plain

namespace Literal

/-- An opening, with more text behind what follows it. -/
def Opening.thenMore (more : List Char) (o : Opening) : Opening := { o with rest := o.rest ++ more }

theorem openingAfter?_before (hb : isBreak b = true) (letters text more : List Char) :
    openingAfter? letters (text ++ b :: more) =
      (openingAfter? letters text).map (Opening.thenMore (b :: more)) := by
  have hquote := isQuote_break hb
  match text with
  | [] => simp [openingAfter?, hquote]
  | [q] =>
    cases more with
    | nil =>
      simp only [List.cons_append, List.nil_append, openingAfter?]
      split <;> rfl
    | cons d more =>
      simp only [List.cons_append, List.nil_append, openingAfter?]
      split
      · next hq =>
        rw [if_neg]
        · rfl
        · rintro ⟨rfl, _⟩
          rw [hquote] at hq
          cases hq
      · rfl
  | [q, q₁] =>
    simp only [List.cons_append, List.nil_append, openingAfter?]
    split
    · next hq =>
      rw [if_neg]
      · rfl
      · rintro ⟨_, rfl⟩
        rw [hquote] at hq
        cases hq
    · rfl
  | q :: q₁ :: q₂ :: rest =>
    simp only [List.cons_append, openingAfter?]
    split
    · split <;> rfl
    · rfl

theorem isQuote_of_isPrefixLetter {c : Char} (h : isPrefixLetter c = true) :
    isQuote c = false := by
  by_contra hquote
  simp only [isQuote, Bool.not_eq_false, Bool.or_eq_true, beq_iff_eq] at hquote
  rcases hquote with rfl | rfl <;> exact absurd h (by decide)

theorem opening?_before (hb : isBreak b = true) (text more : List Char) :
    opening? (text ++ b :: more) = (opening? text).map (Opening.thenMore (b :: more)) := by
  have hletter : isPrefixLetter b = false := eq_false_of_isBreak (by decide) (by decide) hb
  match text with
  | [] =>
    cases more with
    | nil => exact openingAfter?_before hb [] [] []
    | cons d more =>
      have hafter := openingAfter?_before hb [] [] (d :: more)
      simp only [List.nil_append, opening?, hletter] at *
      exact hafter
  | [a] =>
    have hafter := openingAfter?_before hb [] [a] more
    simp only [List.cons_append, List.nil_append, opening?] at *
    split
    · next ha =>
      have hquote := isQuote_of_isPrefixLetter ha
      simp [openingAfter?, hquote, isQuote_break hb, hletter]
    · exact hafter
  | a :: c :: rest =>
    have h₀ := openingAfter?_before hb [] (a :: c :: rest) more
    have h₁ := openingAfter?_before hb [a] (c :: rest) more
    have h₂ := openingAfter?_before hb [a, c] rest more
    simp only [List.cons_append, opening?] at *
    split
    · split
      · exact h₂
      · exact h₁
    · exact h₀

end Literal

namespace Lexer

theorem isLayout_break (hb : isBreak b = true) : isLayout b = false :=
  eq_false_of_isBreak (by decide) (by decide) hb

/-- A definition follows on the same line or not at all. -/
theorem definitionFollows_before (hb : isBreak b = true) (text more : List Char) :
    definitionFollows (text ++ b :: more) = definitionFollows text := by
  rw [definitionFollows, definitionFollows, dropWhile_append_cons (isLayout_break hb),
    Plain.scan?_before hb]
  cases Plain.scan? (text.dropWhile isLayout) with
  | none => rfl
  | some x =>
    obtain ⟨kind, read, rest⟩ := x
    cases kind <;> rfl

end Lexer
end Offside
