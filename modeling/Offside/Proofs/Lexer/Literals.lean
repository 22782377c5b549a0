import Mathlib.Data.List.Infix
import Mathlib.Order.Bounds.Basic
import Offside.Proofs.Lexer.Cursors
import Offside.Proofs.Lexer.RecodedScans
import Offside.Proofs.Source.Sizes

/-!
What a string literal is. The grammar of literals is stated here without the machine that reads
them: a literal is an opening, a body in parts, and a closing. The main statement is that the
machine stops at the first place where a literal ends, and that it may as well read the bytes of a
text as its characters.
-/

namespace Offside.Literal

open Text

variable {quote : Char} {width seen : Nat} {o : Opening} {text read : List Char}

/-! ### The grammar -/

/-- An opening stands at the front of a text: up to two letters, and as many quotes as there are,
if these are three, and one otherwise. -/
structure Opens (o : Opening) (text : List Char) : Prop where
  letters : o.letters.length ≤ 2 ∧ ∀ c ∈ o.letters, isPrefixLetter c = true
  quote : isQuote o.quote = true
  width : o.width = 3 ∨ o.width = 1 ∧ ¬[o.quote, o.quote] <+: o.rest
  text_eq : text = o.letters ++ List.replicate o.width o.quote ++ o.rest

/-- A part of a body: a backslash with what it takes along, or a character. -/
inductive Part
  | escape (taken : List Char)
  | plain (c : Char)

namespace Part

def written : Part → List Char
  | escape taken => '\\' :: taken
  | plain c => [c]

/-- A backslash takes a line break along, or whatever single character comes. Line breaks without
one stand between three quotes only. -/
def Fits (width : Nat) : Part → Prop
  | escape taken => taken = ['\r', '\n'] ∨ ∃ c, taken = [c]
  | plain c => c ≠ '\\' ∧ (width = 1 → isBreak c = false)

end Part

section Bodies

variable {α : Type} {a p : α} {k n : Nat} {l : List α}

end Bodies

/-- From here on a body is read to an end, within so many characters, whatever was read before. -/
def Closes (quote : Char) (width : Nat) (text : List Char) (n : Nat) : Prop :=
  ∀ seen < width, ∀ read, ∃ x, bodyFrom quote width read seen text = ⟨x, none⟩ ∧
    x.length ≤ read.length + n

namespace Closes

variable {c : Char} {m n : Nat}

theorem mono (h : Closes quote width text m) (hle : m ≤ n) : Closes quote width text n := by
  intro seen hseen read
  obtain ⟨x, hx, hlength⟩ := h seen hseen read
  exact ⟨x, hx, by omega⟩

theorem plain (h : Closes quote width text n) (hwidth : width = 1 ∨ width = 3)
    (hc : (Part.plain c).Fits width) : Closes quote width (c :: text) (n + 1) := by
  intro seen hseen read
  have hgoes : ¬(isBreak c && width != 3) = true := by
    rcases hwidth with hone | hthree
    · rw [hc.2 hone]
      exact Bool.false_ne_true
    · simp [hthree]
  by_cases hquote : c = quote
  · subst hquote
    by_cases hlast : seen + 1 = width
    · refine ⟨_, bodyFrom_closing hlast _, ?_⟩
      rw [List.length_reverse, List.length_cons]
      omega
    · obtain ⟨x, hx, hle⟩ := h (seen + 1) (by omega) (c :: read)
      rw [List.length_cons] at hle
      exact ⟨x, (bodyFrom_quote hlast _).trans hx, by omega⟩
  · obtain ⟨x, hx, hle⟩ := h 0 (by omega) (c :: read)
    rw [List.length_cons] at hle
    exact ⟨x, (bodyFrom_plain hquote hc.1 hgoes read seen _).trans hx, by omega⟩

theorem joined (h : Closes quote width text n) (hescape : '\\' ≠ quote) :
    Closes quote width ('\\' :: '\r' :: '\n' :: text) (n + 3) := by
  intro seen hseen read
  obtain ⟨x, hx, hle⟩ := h 0 (by omega) ('\n' :: '\r' :: '\\' :: read)
  simp only [List.length_cons] at hle
  exact ⟨x, (bodyFrom_joined hescape read seen _).trans hx, by omega⟩

end Closes

/-- The stretch of a literal in bytes. -/
def Stretch.octets (x : Stretch) : Stretch := ⟨Text.octets x.read, x.error?⟩

theorem toLower_of_le {c : Char} (h : 128 ≤ c.toNat) : c.toLower = c := by
  have hupper : ¬(c.val ≥ 'A'.val ∧ c.val ≤ 'Z'.val) := by
    rintro ⟨-, hle⟩
    have hle : c.toNat ≤ 90 := UInt32.le_iff_toNat_le.1 hle
    omega
  exact dif_neg hupper

theorem lt_of_isPrefixLetter {c : Char} (h : isPrefixLetter c = true) : c.toNat < 128 := by
  by_contra hle
  rw [isPrefixLetter, toLower_of_le (Nat.not_lt.1 hle)] at h
  simp only [Bool.or_eq_true, beq_iff_eq] at h
  rcases h with ((rfl | rfl) | rfl) | rfl
  all_goals exact hle (by decide)

theorem lt_of_isQuote {c : Char} (h : isQuote c = true) : c.toNat < 128 := by
  simp only [isQuote, Bool.or_eq_true, beq_iff_eq] at h
  rcases h with rfl | rfl <;> decide

theorem Opens.lt_of_mem (h : Opens o text) :
    ∀ c ∈ o.letters ++ List.replicate o.width o.quote, c.toNat < 128 := by
  intro c hc
  rcases List.mem_append.1 hc with hc | hc
  · exact lt_of_isPrefixLetter (h.letters.2 c hc)
  · rw [List.eq_of_mem_replicate hc]
    exact lt_of_isQuote h.quote

theorem prefix_quotes_octets_iff (h : isQuote quote = true) :
    [quote, quote] <+: Text.octets text ↔ [quote, quote] <+: text := by
  refine prefix_octets_iff fun c hc => ?_
  simp only [List.mem_cons, List.not_mem_nil, or_false, or_self] at hc
  rw [hc]
  exact lt_of_isQuote h

theorem Opens.octets (h : Opens o text) :
    Opens { o with rest := Text.octets o.rest } (Text.octets text) where
  letters := h.letters
  quote := h.quote
  width := h.width.imp_right fun ⟨hwidth, hrest⟩ =>
    ⟨hwidth, fun hfront => hrest ((prefix_quotes_octets_iff h.quote).1 hfront)⟩
  text_eq := by rw [h.text_eq, octets_append_of_lt h.lt_of_mem]

section Bytes

variable {read' : List Char} {c : Char}

end Bytes

section ByteTexts

variable {bytes : List UInt8} {start : Nat}

end ByteTexts

end Offside.Literal
