import Offside.Token.Kind

/-!
Plain tokens: words, numerals and operators, each of which is the longest one its text starts
with. Each scanner gives what it read and what is left; an empty first part means that there was
nothing to read.
-/

namespace Offside.Plain

def isWordStart (c : Char) : Bool := c.isAlpha || c == '_' || 128 ≤ c.toNat

def isWordChar (c : Char) : Bool := isWordStart c || c.isDigit

def isDecimalChar (c : Char) : Bool := c.isDigit || c == '_'

def isHexChar (c : Char) : Bool :=
  isDecimalChar c || ('a' ≤ c && c ≤ 'f') || ('A' ≤ c && c ≤ 'F')

def isOctalChar (c : Char) : Bool := ('0' ≤ c && c ≤ '7') || c == '_'

def isBinaryChar (c : Char) : Bool := c == '0' || c == '1' || c == '_'

/-- The digits that a radix letter announces. -/
def radixDigits? (letter : Char) : Option (Char → Bool) :=
  match letter.toLower with
  | 'x' => some isHexChar
  | 'o' => some isOctalChar
  | 'b' => some isBinaryChar
  | _ => none

/-- A zero, a radix letter, and at least one digit. -/
def radixNumeral? : List Char → Option (List Char × List Char)
  | '0' :: letter :: rest => do
    let isDigit ← radixDigits? letter
    let digits := rest.takeWhile isDigit
    if digits.isEmpty then none else some ('0' :: letter :: digits, rest.dropWhile isDigit)
  | _ => none

/-- A point and the digits behind it, of which there may be none. -/
def fraction : List Char → List Char × List Char
  | '.' :: rest => ('.' :: rest.takeWhile isDecimalChar, rest.dropWhile isDecimalChar)
  | text => ([], text)

def sign : List Char → List Char × List Char
  | c :: rest => if c = '+' ∨ c = '-' then ([c], rest) else ([], c :: rest)
  | [] => ([], [])

/-- A letter, a sign if there is one, and at least one digit. -/
def exponent : List Char → List Char × List Char
  | e :: rest =>
    if e = 'e' ∨ e = 'E' then
      let (s, afterSign) := sign rest
      let digits := afterSign.takeWhile isDecimalChar
      if digits.isEmpty then ([], e :: rest)
      else (e :: (s ++ digits), afterSign.dropWhile isDecimalChar)
    else ([], e :: rest)
  | [] => ([], [])

/-- The letter of an imaginary number. -/
def imaginary : List Char → List Char × List Char
  | c :: rest => if c = 'j' ∨ c = 'J' then ([c], rest) else ([], c :: rest)
  | [] => ([], [])

/-- What may follow the digits of a decimal numeral. -/
def decimalTail (read text : List Char) : List Char × List Char :=
  let (e, rest) := exponent text
  let (j, rest) := imaginary rest
  (read ++ e ++ j, rest)

/-- A numeral that starts with a digit, or with a point and a digit. -/
def decimalNumeral? : List Char → Option (List Char × List Char)
  | [] => none
  | c :: rest =>
    if c.isDigit then
      let (f, afterFraction) := fraction ((c :: rest).dropWhile isDecimalChar)
      some (decimalTail ((c :: rest).takeWhile isDecimalChar ++ f) afterFraction)
    else if c = '.' ∧ (rest.head?.map Char.isDigit).getD false then
      let (f, afterFraction) := fraction (c :: rest)
      some (decimalTail f afterFraction)
    else none

def numeral? (text : List Char) : Option (List Char × List Char) :=
  radixNumeral? text <|> decimalNumeral? text

def word? : List Char → Option (List Char × List Char)
  | c :: rest =>
    if isWordStart c then
      some ((c :: rest).takeWhile isWordChar, (c :: rest).dropWhile isWordChar)
    else none
  | [] => none

/-- The operator of at most `n` characters that a text starts with. -/
def operatorOf? (n : Nat) (text : List Char) : Option (Kind × List Char × List Char) :=
  (Kind.ofSpelling? (String.ofList (text.take n))).map fun k => (k, text.take n, text.drop n)

/-- Operators are at most three characters long. -/
def operator? (text : List Char) : Option (Kind × List Char × List Char) :=
  operatorOf? 3 text <|> operatorOf? 2 text <|> operatorOf? 1 text

/-- The plain token that a text starts with. -/
def scan? (text : List Char) : Option (Kind × List Char × List Char) :=
  (word? text).map (fun (read, rest) => (.word, read, rest)) <|>
    (numeral? text).map (fun (read, rest) => (.numeral, read, rest)) <|>
      operator? text

theorem word?_read_ne_nil {text read rest : List Char} (h : word? text = some (read, rest)) :
    read ≠ [] := by
  unfold word? at h
  split at h
  · split at h
    · next c _ hc =>
      simp only [Option.some.injEq, Prod.mk.injEq] at h
      rw [← h.1, List.takeWhile_cons]
      simp [isWordChar, hc]
    · simp at h
  · simp at h

theorem radixNumeral?_read_ne_nil {text read rest : List Char}
    (h : radixNumeral? text = some (read, rest)) : read ≠ [] := by
  unfold radixNumeral? at h
  split at h
  · simp only [Option.bind_eq_bind, Option.bind_eq_some_iff] at h
    obtain ⟨_, _, h⟩ := h
    split at h
    · simp at h
    · simp only [Option.some.injEq, Prod.mk.injEq] at h
      simp [← h.1]
  · simp at h

theorem decimalTail_read_ne_nil {read text : List Char} (h : read ≠ []) :
    (decimalTail read text).1 ≠ [] := by
  simp [decimalTail, h]

theorem decimalNumeral?_read_ne_nil {text read rest : List Char}
    (h : decimalNumeral? text = some (read, rest)) : read ≠ [] := by
  unfold decimalNumeral? at h
  split at h
  · simp at h
  · next c cs =>
    split at h
    · next hc =>
      have h : _ = read := congrArg Prod.fst (Option.some.inj h)
      rw [← h]
      exact decimalTail_read_ne_nil (by simp [isDecimalChar, hc])
    · split at h
      · next hc =>
        obtain ⟨rfl, _⟩ := hc
        have h : _ = read := congrArg Prod.fst (Option.some.inj h)
        rw [← h]
        exact decimalTail_read_ne_nil (by simp)
      · simp at h

theorem operatorOf?_read_ne_nil {n : Nat} {text read rest : List Char} {k : Kind}
    (hn : 0 < n) (hc : text ≠ []) (h : operatorOf? n text = some (k, read, rest)) :
    read ≠ [] := by
  unfold operatorOf? at h
  obtain ⟨_, _, h⟩ := Option.map_eq_some_iff.1 h
  simp only [Prod.mk.injEq] at h
  obtain ⟨_, rfl, _⟩ := h
  simp only [ne_eq, List.take_eq_nil_iff, not_or]
  exact ⟨by omega, hc⟩

/-- A token takes up at least one character. -/
theorem scan?_read_ne_nil {text read rest : List Char} {k : Kind} (hc : text ≠ [])
    (h : scan? text = some (k, read, rest)) : read ≠ [] := by
  simp only [scan?, numeral?, operator?, Option.orElse_eq_orElse, Option.orElse_eq_or,
    Option.or_eq_some_iff, Option.map_eq_some_iff] at h
  rcases h with ⟨⟨_, _⟩, h, he⟩ | ⟨_, ⟨⟨_, _⟩, h, he⟩ | ⟨_, h⟩⟩
  · simp only [Prod.mk.injEq] at he
    obtain ⟨_, rfl, rfl⟩ := he
    exact word?_read_ne_nil h
  · simp only [Prod.mk.injEq] at he
    obtain ⟨_, rfl, rfl⟩ := he
    rcases h with h | ⟨_, h⟩
    · exact radixNumeral?_read_ne_nil h
    · exact decimalNumeral?_read_ne_nil h
  · rcases h with h | ⟨_, h | ⟨_, h⟩⟩
    all_goals exact operatorOf?_read_ne_nil (by decide) hc h

/-- What a token adds to the number of open brackets, and what it takes off. -/
def opens : Kind → Bool
  | .lpar | .lsqb | .lbrace => true
  | _ => false

def closes : Kind → Bool
  | .rpar | .rsqb | .rbrace => true
  | _ => false

end Offside.Plain
