import Offside.Proofs.Text.Breaks
import Offside.Text.Quoted

/-!
Quoted texts and numerals as they are told apart. No escape starts another, and none holds a line
feed or starts like the quote that ends a text. So a quoted text stands on one line and can be read
back whatever follows it, and so can a numeral before anything but a digit.
-/

namespace Offside.Text

variable {c d : Char} {as bs as' bs' : List Char} {base m n : Nat}

/-- Of a class and what does not start with it, both parts are told by the whole. -/
theorem append_inj_of_head {p : Char → Bool} (has : ∀ c ∈ as, p c = true)
    (hbs : ∀ c ∈ bs.head?, p c = false) (has' : ∀ c ∈ as', p c = true)
    (hbs' : ∀ c ∈ bs'.head?, p c = false) (h : as ++ bs = as' ++ bs') : as = as' ∧ bs = bs' := by
  have hfront := congrArg (List.takeWhile p) h
  have hback := congrArg (List.dropWhile p) h
  rw [takeWhile_append_of_head has hbs, takeWhile_append_of_head has' hbs'] at hfront
  rw [dropWhile_append_of_head has hbs, dropWhile_append_of_head has' hbs'] at hback
  exact ⟨hfront, hback⟩

/-- What goes on to a character that it does not hold is told by the whole. -/
theorem append_cons_inj (has : d ∉ as) (has' : d ∉ as') (h : as ++ d :: bs = as' ++ d :: bs') :
    as = as' ∧ bs = bs' := by
  have hne : ∀ text : List Char, d ∉ text → ∀ c ∈ text, (c != d) = true := by
    intro text htext c hc
    rw [bne_iff_ne]
    rintro rfl
    exact htext hc
  have hhead : ∀ rest : List Char, ∀ c ∈ (d :: rest).head?, (c != d) = false := by
    intro rest c hc
    cases hc
    simp
  obtain ⟨hfront, hback⟩ := append_inj_of_head (hne as has) (hhead bs) (hne as' has') (hhead bs') h
  exact ⟨hfront, (List.cons.inj hback).2⟩

theorem digitChar_inj (hm : m < 16) (hn : n < 16) (h : m.digitChar = n.digitChar) : m = n := by
  have hall : ∀ m < 16, ∀ n < 16, m.digitChar = n.digitChar → m = n := by decide
  exact hall m hm n hn h

/-- Up to base sixteen a number is told by its digits. -/
theorem toDigits_inj (hbase : 1 < base) (hle : base ≤ 16)
    (h : Nat.toDigits base m = Nat.toDigits base n) : m = n := by
  induction m using Nat.strong_induction_on generalizing n with
  | h m ih =>
    rw [Nat.toDigits_eq_if hbase, Nat.toDigits_eq_if hbase (n := n)] at h
    have hpos : ∀ k : Nat, 0 < (Nat.toDigits base k).length := fun _ => Nat.length_toDigits_pos
    split at h <;> split at h
    · exact digitChar_inj (by omega) (by omega) (List.cons.inj h).1
    · have hlength := congrArg List.length h
      have hpos' := hpos (n / base)
      simp only [List.length_append, List.length_singleton] at hlength
      omega
    · have hlength := congrArg List.length h
      have hpos' := hpos (m / base)
      simp only [List.length_append, List.length_singleton] at hlength
      omega
    · next hm hn =>
      obtain ⟨hfront, hlast⟩ := List.append_inj' h rfl
      have hdiv : m / base = n / base := by
        refine ih _ ?_ hfront
        exact Nat.div_lt_self (by omega) hbase
      have hmod : m % base = n % base := by
        have hm' := Nat.mod_lt m (show 0 < base by omega)
        have hn' := Nat.mod_lt n (show 0 < base by omega)
        exact digitChar_inj (by omega) (by omega) (List.cons.inj hlast).1
      rw [← Nat.div_add_mod m base, ← Nat.div_add_mod n base, hdiv, hmod]

theorem exists_digitChar_of_mem (hbase : 1 < base) (h : c ∈ Nat.toDigits base n) :
    ∃ k : Nat, c = k.digitChar := by
  induction n using Nat.strong_induction_on with
  | h n ih =>
    rw [Nat.toDigits_eq_if hbase] at h
    split at h
    · exact ⟨n, List.mem_singleton.1 h⟩
    · rcases List.mem_append.1 h with h | h
      · exact ih _ (Nat.div_lt_self (by omega) hbase) h
      · exact ⟨n % base, List.mem_singleton.1 h⟩

/-- A decimal numeral is told by the whole, before anything but a digit. -/
theorem decimal_append_inj (hbs : ∀ c ∈ bs.head?, c.isDigit = false)
    (hbs' : ∀ c ∈ bs'.head?, c.isDigit = false)
    (h : Nat.toDigits 10 m ++ bs = Nat.toDigits 10 n ++ bs') : m = n ∧ bs = bs' := by
  have hdigits : ∀ k : Nat, ∀ c ∈ Nat.toDigits 10 k, c.isDigit = true := by
    intro k c hc
    exact Nat.isDigit_of_mem_toDigits (by decide) (by decide) hc
  obtain ⟨hfront, hback⟩ := append_inj_of_head (hdigits m) hbs (hdigits n) hbs' h
  exact ⟨toDigits_inj (by decide) (by decide) hfront, hback⟩

/-- The character that a letter stands for behind a backslash. -/
def escaped? : Char → Option Char
  | '0' => some '\x00'
  | 't' => some '\t'
  | 'r' => some '\r'
  | 'n' => some '\n'
  | '"' => some '"'
  | '\\' => some '\\'
  | _ => none

/-- The ways to write a character. -/
inductive Escape : Char → List Char → Prop
  | plain {c : Char} (hquote : c ≠ '"') (hback : c ≠ '\\') (hfeed : c ≠ '\n') : Escape c [c]
  | letter {c d : Char} (h : escaped? d = some c) : Escape c ['\\', d]
  | point (c : Char) : Escape c (pointEscape c)

theorem escape_escapeChar (c : Char) : Escape c (escapeChar c) := by
  unfold escapeChar
  split
  · next h =>
    subst h
    exact .letter rfl
  split
  · next h =>
    subst h
    exact .letter rfl
  split
  · next h =>
    subst h
    exact .letter rfl
  split
  · next h =>
    subst h
    exact .letter rfl
  split
  · next h =>
    subst h
    exact .letter rfl
  split
  · next h =>
    subst h
    exact .letter rfl
  split
  · next hfeed hquote hback _ => exact .plain hquote hback hfeed
  · exact .point c

theorem not_mem_digits (hc : ∀ k : Nat, k.digitChar ≠ c) : c ∉ Nat.toDigits 16 n := by
  intro hmem
  obtain ⟨k, hk⟩ := exists_digitChar_of_mem (by decide) hmem
  exact hc k hk.symm

/-- A character that is written is told by the whole. -/
theorem Escape.append_inj {xs ys : List Char} (hx : Escape c xs) (hy : Escape d ys)
    (h : xs ++ as = ys ++ bs) : c = d ∧ as = bs := by
  cases hx with
  | plain hquote hback =>
    cases hy with
    | plain => exact List.cons.inj h
    | letter => exact absurd (List.cons.inj h).1 hback
    | point => exact absurd (List.cons.inj h).1 hback
  | letter hletter =>
    cases hy with
    | plain _ hback => exact absurd (List.cons.inj h).1.symm hback
    | letter hletter' =>
      obtain ⟨rfl, hrest⟩ := List.cons.inj (List.cons.inj h).2
      exact ⟨Option.some.inj (hletter.symm.trans hletter'), hrest⟩
    | point =>
      obtain ⟨rfl, -⟩ := List.cons.inj (List.cons.inj h).2
      cases hletter
  | point =>
    cases hy with
    | plain _ hback => exact absurd (List.cons.inj h).1.symm hback
    | letter hletter =>
      obtain ⟨rfl, -⟩ := List.cons.inj (List.cons.inj h).2
      cases hletter
    | point =>
      have hbrace : ∀ k : Nat, '\x7d' ∉ Nat.toDigits 16 k := fun k =>
        not_mem_digits fun k => Nat.digitChar_ne _ (by decide)
      simp only [pointEscape, List.cons_append, List.append_assoc, List.cons.injEq, true_and,
        List.nil_append] at h
      obtain ⟨hdigits, hrest⟩ := append_cons_inj (hbrace _) (hbrace _) h
      have hnat := toDigits_inj (by decide) (by decide) hdigits
      exact ⟨Char.toNat_inj.1 hnat, hrest⟩

/-- It does not start like the quote that ends a text. -/
theorem Escape.ne_quote {xs : List Char} (h : Escape c xs) : xs ++ as ≠ '"' :: bs := by
  cases h with
  | plain hquote => exact fun h => hquote (List.cons.inj h).1
  | letter => exact fun h => absurd (List.cons.inj h).1 (by decide)
  | point => exact fun h => absurd (List.cons.inj h).1 (by decide)

theorem Escape.feed_not_mem {xs : List Char} (h : Escape c xs) : '\n' ∉ xs := by
  cases h with
  | plain _ _ hfeed => exact fun hmem => hfeed (List.mem_singleton.1 hmem).symm
  | @letter d hletter =>
    have hd : d ≠ '\n' := by
      rintro rfl
      cases hletter
    simp [hd.symm]
  | point =>
    have hdigits : '\n' ∉ Nat.toDigits 16 c.toNat :=
      not_mem_digits fun k => Nat.digitChar_ne _ (by decide)
    simp [pointEscape, hdigits]

theorem escape_append_inj {text text' : List Char}
    (h : escape text ++ '"' :: as = escape text' ++ '"' :: bs) : text = text' ∧ as = bs := by
  induction text generalizing text' with
  | nil =>
    cases text' with
    | nil => exact ⟨rfl, (List.cons.inj h).2⟩
    | cons c text' =>
      rw [escape, escape, List.flatMap_cons, List.append_assoc] at h
      exact absurd h.symm (escape_escapeChar c).ne_quote
  | cons c text ih =>
    cases text' with
    | nil =>
      rw [escape, escape, List.flatMap_cons, List.append_assoc] at h
      exact absurd h (escape_escapeChar c).ne_quote
    | cons d text' =>
      rw [escape, escape, List.flatMap_cons, List.flatMap_cons, List.append_assoc,
        List.append_assoc] at h
      obtain ⟨rfl, hrest⟩ := (escape_escapeChar c).append_inj (escape_escapeChar d) h
      obtain ⟨rfl, hrest'⟩ := ih hrest
      exact ⟨rfl, hrest'⟩

/-- A quoted text is told by the whole, whatever follows it. -/
theorem quoted_append_inj {text text' : String}
    (h : (quoted text).toList ++ as = (quoted text').toList ++ bs) : text = text' ∧ as = bs := by
  simp only [quoted, String.toList_ofList, List.cons_append, List.append_assoc, List.cons.injEq,
    true_and, List.nil_append] at h
  obtain ⟨htext, hrest⟩ := escape_append_inj h
  exact ⟨String.toList_inj.1 htext, hrest⟩

/-- It stands on one line. -/
theorem feed_not_mem_quoted (text : String) : '\n' ∉ (quoted text).toList := by
  have hescape : '\n' ∉ escape text.toList := by
    intro hmem
    obtain ⟨c, -, hc⟩ := List.mem_flatMap.1 hmem
    exact (escape_escapeChar c).feed_not_mem hc
  simp [quoted, hescape]

end Offside.Text
