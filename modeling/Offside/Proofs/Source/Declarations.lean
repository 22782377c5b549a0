import Mathlib.Data.Bool.AllAny
import Offside.Source.Cookie
import Offside.Proofs.Text.Breaks
import Offside.Proofs.Text.Decoding

/-!
What a coding cookie is, told by the text alone: a declaration is a word with a sign, blanks and a
name, a comment declares what its first declaration names, and a source declares what the comment
on its first line declares, or else the one on its second. The search for a cookie is compared with
this, and nothing in it depends on whether a text is seen as characters or as the bytes of UTF-8.
-/

namespace Offside.Source

open Text

/-- What a declaration of an encoding name looks like. -/
def Declaration (name cookie : List Char) : Prop :=
  ∃ sign blanks, (sign = ':' ∨ sign = '=') ∧ (∀ c ∈ blanks, c = ' ' ∨ c = '\t') ∧
    name ≠ [] ∧ (∀ c ∈ name, isNameChar c = true) ∧ cookie = cookieWord ++ sign :: (blanks ++ name)

/-- A name is over where such a text begins. -/
def EndsName (after : List Char) : Prop := ∀ c ∈ after.head?, isNameChar c = false

/-- A comment that is cut into what stands before its first declaration, the declaration, and what
stands behind it. -/
structure DeclaresFirst (name before cookie after : List Char) : Prop where
  declaration : Declaration name cookie
  ends : EndsName after
  first : ∀ front back, before = front ++ back → back ≠ [] →
    ∀ name' cookie', Declaration name' cookie' → ¬cookie' <+: back ++ (cookie ++ after)

/-- A line that is a comment, cut around the first declaration in the comment. -/
def DeclaresIn (name before cookie after : List Char) : Prop :=
  ∃ blanks front, (∀ c ∈ blanks, isLayout c = true) ∧ before = blanks ++ '#' :: front ∧
    DeclaresFirst name front cookie after

/-- A line that is blank or a comment. A carriage return ends what is looked at. -/
def IsIdle (line : List Char) : Prop :=
  ∃ blanks rest, (∀ c ∈ blanks, isLayout c = true) ∧ line = blanks ++ rest ∧
    ∀ c ∈ rest.head?, c = '#' ∨ c = '\r'

/-- The first one or two lines of a source, as far as they are looked at, cut around the cookie. -/
inductive NamesEncoding (name : List Char) : List Char → List Char → List Char → Prop
  | first {before cookie after : List Char} (hfeed : '\n' ∉ before ++ (cookie ++ after))
      (hdeclares : DeclaresIn name before cookie after) : NamesEncoding name before cookie after
  | second {line before cookie after : List Char} (hline : '\n' ∉ line) (hidle : IsIdle line)
      (hnone : ∀ name' before' cookie' after', DeclaresIn name' before' cookie' after' →
        line ≠ before' ++ (cookie' ++ after'))
      (hfeed : '\n' ∉ before ++ (cookie ++ after))
      (hdeclares : DeclaresIn name before cookie after) :
      NamesEncoding name (line ++ '\n' :: before) cookie after

variable {text line name : List Char}

theorem isSpacing_iff {c : Char} : (c == ' ' || c == '\t') = true ↔ c = ' ' ∨ c = '\t' := by
  rw [Bool.or_eq_true, beq_iff_eq, beq_iff_eq]

theorem not_isSpacing_of_isNameChar {c : Char} (h : isNameChar c = true) :
    (c == ' ' || c == '\t') = false := by
  by_contra hspacing
  rcases isSpacing_iff.1 (eq_true_of_ne_false hspacing) with rfl | rfl
  all_goals exact absurd h (by decide)

/-- What is read at the start of a text is a declaration. -/
theorem exists_declaration (h : cookieAt? text = some name) :
    ∃ cookie after, text = cookie ++ after ∧ Declaration name cookie ∧ EndsName after := by
  unfold cookieAt? at h
  split at h
  · next hword =>
    obtain ⟨tail, rfl⟩ := List.isPrefixOf_iff_prefix.1 hword
    rw [List.drop_left] at h
    cases tail with
    | nil => cases h
    | cons sign rest =>
      dsimp only at h
      split at h
      · next hsign =>
        split at h
        · cases h
        · next hname =>
          obtain rfl := Option.some.inj h
          set blanks := rest.takeWhile fun c => c == ' ' || c == '\t'
          set value := rest.dropWhile fun c => c == ' ' || c == '\t'
          have hrest : rest =
              blanks ++ (value.takeWhile isNameChar ++ value.dropWhile isNameChar) := by
            rw [List.takeWhile_append_dropWhile, List.takeWhile_append_dropWhile]
          refine ⟨cookieWord ++ sign :: (blanks ++ value.takeWhile isNameChar),
            value.dropWhile isNameChar, ?_, ⟨sign, blanks, hsign, ?_, ?_, ?_, rfl⟩,
            head?_dropWhile value⟩
          · conv_lhs => rw [hrest]
            simp only [List.append_assoc, List.cons_append]
          · exact fun c hc => isSpacing_iff.1
              (List.mem_takeWhile_imp (p := fun c => c == ' ' || c == '\t') hc)
          · rwa [List.isEmpty_iff] at hname
          · exact fun c hc => List.mem_takeWhile_imp hc
      · cases h
  · cases h

/-- A declaration is read at the start of a text if its name is over behind it. -/
theorem cookieAt?_append {cookie after : List Char} (h : Declaration name cookie)
    (hends : EndsName after) : cookieAt? (cookie ++ after) = some name := by
  obtain ⟨sign, blanks, hsign, hblanks, hne, hname, rfl⟩ := h
  have hvalue : ((blanks ++ (name ++ after)).dropWhile fun c => c == ' ' || c == '\t') =
      name ++ after := by
    refine dropWhile_append_of_head (fun c hc => isSpacing_iff.2 (hblanks c hc)) fun c hc => ?_
    rw [List.head?_append_of_ne_nil _ hne] at hc
    exact not_isSpacing_of_isNameChar (hname c (List.mem_of_mem_head? hc))
  have htake : (name ++ after).takeWhile isNameChar = name := takeWhile_append_of_head hname hends
  rw [cookieAt?, if_pos (List.isPrefixOf_iff_prefix.2 ⟨_, (List.append_assoc ..).symm⟩),
    List.append_assoc, List.drop_left]
  simp only [List.cons_append, List.append_assoc, hvalue, htake, if_pos hsign, List.isEmpty_iff,
    if_neg hne]

/-- A declaration goes on to the end of the name. -/
theorem isSome_cookieAt? {cookie : List Char} (h : Declaration name cookie)
    (hstarts : cookie <+: text) : (cookieAt? text).isSome := by
  obtain ⟨sign, blanks, hsign, hblanks, hne, hname, rfl⟩ := h
  obtain ⟨after, rfl⟩ := hstarts
  have hlonger : Declaration (name ++ after.takeWhile isNameChar)
      (cookieWord ++ sign :: (blanks ++ (name ++ after.takeWhile isNameChar))) := by
    refine ⟨sign, blanks, hsign, hblanks, List.append_ne_nil_of_left_ne_nil hne _, ?_, rfl⟩
    intro c hc
    rcases List.mem_append.1 hc with hc | hc
    · exact hname c hc
    · exact List.mem_takeWhile_imp hc
  have hread := cookieAt?_append hlonger (head?_dropWhile after)
  simp only [List.append_assoc, List.cons_append, List.takeWhile_append_dropWhile] at hread ⊢
  rw [hread]
  rfl

theorem Declaration.ne_nil {cookie : List Char} (h : Declaration name cookie) : cookie ≠ [] := by
  obtain ⟨sign, blanks, -, -, -, -, rfl⟩ := h
  exact List.append_ne_nil_of_right_ne_nil _ (List.cons_ne_nil _ _)

theorem Declaration.head_eq {c : Char} {cookie : List Char} (h : Declaration name cookie)
    (hstarts : cookie <+: c :: text) : c = 'c' := by
  obtain ⟨sign, blanks, -, -, -, -, rfl⟩ := h
  obtain ⟨tail, htail⟩ := hstarts
  exact (List.cons.inj htail).1.symm

/-- Behind a text in which no declaration begins, the first letter of the word told, a declaration
is the first. -/
theorem declaresFirst_of_not_mem {front cookie after : List Char} (h : Declaration name cookie)
    (hends : EndsName after) (hfront : 'c' ∉ front) : DeclaresFirst name front cookie after := by
  refine ⟨h, hends, ?_⟩
  rintro before back rfl hback name' cookie' hdeclaration hstarts
  obtain ⟨c, back, rfl⟩ := List.exists_cons_of_ne_nil hback
  obtain rfl := hdeclaration.head_eq hstarts
  exact hfront (List.mem_append_right _ List.mem_cons_self)

theorem declaresFirst_nil {cookie after : List Char} (h : Declaration name cookie)
    (hends : EndsName after) : DeclaresFirst name [] cookie after :=
  declaresFirst_of_not_mem h hends List.not_mem_nil

theorem DeclaresFirst.cons {c : Char} {before cookie after : List Char}
    (h : DeclaresFirst name before cookie after)
    (hc : ∀ name' cookie', Declaration name' cookie' →
      ¬cookie' <+: c :: (before ++ (cookie ++ after))) :
    DeclaresFirst name (c :: before) cookie after := by
  refine ⟨h.declaration, h.ends, ?_⟩
  intro front back heq hback
  cases front with
  | nil =>
    obtain rfl : back = c :: before := heq.symm
    exact hc
  | cons d front => exact h.first front back (List.cons.inj heq).2 hback

theorem DeclaresFirst.tail {c : Char} {before cookie after : List Char}
    (h : DeclaresFirst name (c :: before) cookie after) : DeclaresFirst name before cookie after :=
  ⟨h.declaration, h.ends, fun front back heq hback =>
    h.first (c :: front) back (by rw [heq, List.cons_append]) hback⟩

/-- The search in a comment finds its first declaration. -/
theorem cookieWithin?_eq_some_iff : cookieWithin? text = some name ↔
    ∃ before cookie after, text = before ++ (cookie ++ after) ∧
      DeclaresFirst name before cookie after := by
  induction text with
  | nil =>
    constructor
    · intro h
      cases h
    · rintro ⟨before, cookie, after, htext, hfirst⟩
      have := List.append_eq_nil_iff.1 (List.append_eq_nil_iff.1 htext.symm).2
      exact absurd this.1 hfirst.declaration.ne_nil
  | cons c rest ih =>
    rw [cookieWithin?]
    cases hat : cookieAt? (c :: rest) with
    | some name' =>
      obtain ⟨cookie', after', htext', hdeclaration', hends'⟩ := exists_declaration hat
      constructor
      · intro h
        obtain rfl : name' = name := Option.some.inj h
        exact ⟨[], cookie', after', htext', declaresFirst_nil hdeclaration' hends'⟩
      · rintro ⟨before, cookie, after, htext, hfirst⟩
        have hbefore : before = [] := by
          by_contra hne
          refine hfirst.first [] before rfl hne name' cookie' hdeclaration' ⟨after', ?_⟩
          rw [← htext', htext]
        rw [htext, hbefore, List.nil_append] at hat
        exact hat.symm.trans (cookieAt?_append hfirst.declaration hfirst.ends)
    | none =>
      have hnot : ∀ name' cookie', Declaration name' cookie' → ¬cookie' <+: c :: rest := by
        intro name' cookie' hdeclaration hstarts
        have := isSome_cookieAt? hdeclaration hstarts
        rw [hat] at this
        cases this
      refine ih.trans ⟨?_, ?_⟩
      · rintro ⟨before, cookie, after, rfl, hfirst⟩
        exact ⟨c :: before, cookie, after, rfl, hfirst.cons hnot⟩
      · rintro ⟨before, cookie, after, htext, hfirst⟩
        cases before with
        | nil => exact absurd ⟨after, htext.symm⟩ (hnot _ _ hfirst.declaration)
        | cons d before =>
          obtain ⟨rfl, rfl⟩ := List.cons.inj htext
          exact ⟨before, cookie, after, rfl, hfirst.tail⟩

theorem cookieOfLine?_eq_some_iff : cookieOfLine? line = some name ↔
    ∃ before cookie after, line = before ++ (cookie ++ after) ∧
      DeclaresIn name before cookie after := by
  constructor
  · intro h
    unfold cookieOfLine? at h
    split at h
    · next comment hcomment =>
      obtain ⟨front, cookie, after, rfl, hfirst⟩ := cookieWithin?_eq_some_iff.1 h
      refine ⟨line.takeWhile isLayout ++ '#' :: front, cookie, after, ?_, line.takeWhile isLayout,
        front, fun c hc => List.mem_takeWhile_imp hc, rfl, hfirst⟩
      have := List.takeWhile_append_dropWhile (p := isLayout) (l := line)
      rw [hcomment] at this
      rw [List.append_assoc]
      exact this.symm
    · cases h
  · rintro ⟨before, cookie, after, rfl, blanks, front, hblanks, rfl, hfirst⟩
    have hdrop : (blanks ++ '#' :: front ++ (cookie ++ after)).dropWhile isLayout =
        '#' :: (front ++ (cookie ++ after)) := by
      rw [List.append_assoc]
      exact dropWhile_append_of_head hblanks (forall_mem_head?_cons.2 (by decide))
    simp only [cookieOfLine?, hdrop]
    exact cookieWithin?_eq_some_iff.2 ⟨front, cookie, after, rfl, hfirst⟩

theorem cookieOfLine?_eq_none_iff : cookieOfLine? line = none ↔
    ∀ name before cookie after, DeclaresIn name before cookie after →
      line ≠ before ++ (cookie ++ after) := by
  rw [Option.eq_none_iff_forall_ne_some]
  refine forall_congr' fun name => ?_
  rw [Ne, cookieOfLine?_eq_some_iff]
  push Not
  refine forall_congr' fun before => forall_congr' fun cookie => forall_congr' fun after => ?_
  exact ⟨fun h hdeclares heq => h heq hdeclares, fun h heq hdeclares => h hdeclares heq⟩

/-- A line leaves the search open if it is blank or a comment. -/
theorem holdsNoCode_iff (hfeed : '\n' ∉ line) : holdsNoCode line = true ↔ IsIdle line := by
  have hline := List.takeWhile_append_dropWhile (p := isLayout) (l := line)
  have hnewline : '\n' ∉ line.dropWhile isLayout := fun h =>
    hfeed ((List.dropWhile_sublist _).mem h)
  constructor
  · intro h
    refine ⟨line.takeWhile isLayout, line.dropWhile isLayout, fun c hc => List.mem_takeWhile_imp hc,
      hline.symm, ?_⟩
    unfold holdsNoCode at h
    intro c hc
    cases hdrop : line.dropWhile isLayout with
    | nil =>
      rw [hdrop] at hc
      cases hc
    | cons d rest =>
      rw [hdrop] at h hc hnewline
      obtain rfl : d = c := Option.some.inj hc
      simp only [Bool.or_eq_true, beq_iff_eq] at h
      rcases h with (h | rfl) | h
      · exact Or.inl h
      · exact absurd List.mem_cons_self hnewline
      · exact Or.inr h
  · rintro ⟨blanks, rest, hblanks, rfl, hrest⟩
    have hdrop : (blanks ++ rest).dropWhile isLayout = rest := by
      refine dropWhile_append_of_head hblanks fun c hc => ?_
      rcases hrest c hc with rfl | rfl
      all_goals decide
    rw [holdsNoCode, hdrop]
    cases rest with
    | nil => rfl
    | cons c rest =>
      rcases hrest c rfl with rfl | rfl
      all_goals rfl

theorem lt_of_isLayout {c : Char} (h : isLayout c = true) : c.toNat < 128 := by
  simp only [isLayout, Bool.or_eq_true, beq_iff_eq] at h
  rcases h with (rfl | rfl) | rfl
  all_goals decide

theorem lt_of_isNameChar {c : Char} (h : isNameChar c = true) : c.toNat < 128 := by
  have hle : ∀ high : Char, c.val ≤ high.val → high.toNat < 128 → c.toNat < 128 :=
    fun high hc hhigh => Nat.lt_of_le_of_lt (UInt32.le_iff_toNat_le.1 hc) hhigh
  simp only [isNameChar, Bool.or_eq_true, beq_iff_eq] at h
  rcases h with ((h | rfl) | rfl) | rfl
  · rcases Bool.or_eq_true_iff.1 h with h | h
    · rcases Bool.or_eq_true_iff.1 h with h | h
      · exact hle 'Z' (of_decide_eq_true h).2 (by decide)
      · exact hle 'z' (of_decide_eq_true (Bool.and_eq_true_iff.1 h).2) (by decide)
    · exact hle '9' (of_decide_eq_true (Bool.and_eq_true_iff.1 h).2) (by decide)
  all_goals decide

theorem lt_of_mem_cookieWord : ∀ c ∈ cookieWord, c.toNat < 128 :=
  List.all_iff_forall_prop.1 (by decide)

theorem isPrefixOf_octets (text : List Char) :
    cookieWord.isPrefixOf (octets text) = cookieWord.isPrefixOf text := by
  rw [Bool.eq_iff_iff, List.isPrefixOf_iff_prefix, List.isPrefixOf_iff_prefix]
  exact prefix_octets_iff lt_of_mem_cookieWord

theorem cookieAt?_octets (text : List Char) : cookieAt? (octets text) = cookieAt? text := by
  rw [cookieAt?, cookieAt?, isPrefixOf_octets]
  split
  · next hword =>
    obtain ⟨tail, rfl⟩ := List.isPrefixOf_iff_prefix.1 hword
    rw [octets_append_of_lt lt_of_mem_cookieWord, List.drop_left, List.drop_left]
    cases tail with
    | nil => rfl
    | cons c rest =>
      by_cases hc : c.toNat < 128
      · have hblank : ∀ c : Char, (c == ' ' || c == '\t') = true → c.toNat < 128 := by
          intro c h
          rcases isSpacing_iff.1 h with rfl | rfl
          all_goals decide
        rw [octets_cons_of_lt hc]
        simp only [dropWhile_octets hblank, takeWhile_octets fun _ => lt_of_isNameChar]
      · obtain ⟨d, ds, heq, hds⟩ := octets_cons_of_le (Nat.not_lt.1 hc) rest
        have hnot : ∀ e : Char, 128 ≤ e.toNat → ¬(e = ':' ∨ e = '=') := by
          rintro e he (rfl | rfl)
          all_goals exact absurd he (by decide)
        rw [heq, List.cons_append]
        simp only [if_neg (hnot c (Nat.not_lt.1 hc)), if_neg (hnot d (hds d List.mem_cons_self))]
  · rfl

/-- No declaration begins with a character that is not ASCII. -/
theorem cookieWithin?_cons_of_le {c : Char} (h : 128 ≤ c.toNat) (text : List Char) :
    cookieWithin? (c :: text) = cookieWithin? text := by
  have hat : cookieAt? (c :: text) = none := by
    refine if_neg fun hword => ?_
    obtain ⟨tail, htail⟩ := List.isPrefixOf_iff_prefix.1 hword
    obtain rfl : 'c' = c := (List.cons.inj htail).1
    exact absurd h (by decide)
  rw [cookieWithin?, hat]

theorem cookieWithin?_append_of_le {front : List Char} (h : ∀ c ∈ front, 128 ≤ c.toNat)
    (text : List Char) : cookieWithin? (front ++ text) = cookieWithin? text := by
  induction front with
  | nil => rfl
  | cons c front ih =>
    rw [List.cons_append, cookieWithin?_cons_of_le (h c List.mem_cons_self),
      ih fun d hd => h d (List.mem_cons_of_mem _ hd)]

theorem cookieWithin?_octets (text : List Char) :
    cookieWithin? (octets text) = cookieWithin? text := by
  induction text with
  | nil => rfl
  | cons c text ih =>
    by_cases hc : c.toNat < 128
    · have hat := cookieAt?_octets (c :: text)
      rw [octets_cons_of_lt hc] at hat ⊢
      rw [cookieWithin?, cookieWithin?, hat, ih]
    · obtain ⟨d, ds, heq, hds⟩ := octets_cons_of_le (Nat.not_lt.1 hc) text
      rw [heq, cookieWithin?_append_of_le hds, cookieWithin?_cons_of_le (Nat.not_lt.1 hc), ih]

theorem cookieOfLine?_octets (line : List Char) :
    cookieOfLine? (octets line) = cookieOfLine? line := by
  rw [cookieOfLine?, cookieOfLine?, dropWhile_octets fun _ => lt_of_isLayout]
  cases line.dropWhile isLayout with
  | nil => rfl
  | cons c comment =>
    by_cases hc : c.toNat < 128
    · rw [octets_cons_of_lt hc]
      by_cases hmark : c = '#'
      · subst hmark
        exact cookieWithin?_octets comment
      · simp [hmark]
    · obtain ⟨d, ds, heq, hds⟩ := octets_cons_of_le (Nat.not_lt.1 hc) comment
      have hmark : ∀ e : Char, 128 ≤ e.toNat → e ≠ '#' := by
        rintro e he rfl
        exact absurd he (by decide)
      have hc' := hmark c (Nat.not_lt.1 hc)
      have hd := hmark d (hds d List.mem_cons_self)
      rw [heq, List.cons_append]
      simp [hc', hd]

theorem holdsNoCode_octets (line : List Char) : holdsNoCode (octets line) = holdsNoCode line := by
  rw [holdsNoCode, holdsNoCode, dropWhile_octets fun _ => lt_of_isLayout]
  cases line.dropWhile isLayout with
  | nil => rfl
  | cons c rest =>
    by_cases hc : c.toNat < 128
    · rw [octets_cons_of_lt hc]
    · obtain ⟨d, ds, heq, hds⟩ := octets_cons_of_le (Nat.not_lt.1 hc) rest
      have hnot : ∀ e : Char, 128 ≤ e.toNat → (e == '#' || e == '\n' || e == '\r') = false := by
        intro e he
        by_contra h
        simp only [Bool.not_eq_false, Bool.or_eq_true, beq_iff_eq] at h
        rcases h with (rfl | rfl) | rfl
        all_goals exact absurd he (by decide)
      rw [heq, List.cons_append]
      exact (hnot d (hds d List.mem_cons_self)).trans (hnot c (Nat.not_lt.1 hc)).symm

end Offside.Source
