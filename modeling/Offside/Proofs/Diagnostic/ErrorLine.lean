import Mathlib.Data.List.DropRight
import Mathlib.Order.Bounds.Basic
import Offside.Proofs.Diagnostic.Caret
import Offside.Proofs.Text.Breaks

/-!
Which line a failure is shown on. It is the line that the place of the failure is on, where a place
inside a character is taken to be before it, and a place past the text at its end. The line feed
that ends the text belongs to the line that it ends. The main statement is that this line is shown
unless the text ends with an empty one, for then the last line that is not empty is shown.
-/

namespace Offside

namespace Text

theorem eq_nil_of_byteLength_le {text : List Char} (h : byteLength text ≤ 0) : text = [] := by
  cases text with
  | nil => rfl
  | cons c text =>
    have hpos := c.utf8Size_pos
    rw [byteLength_cons] at h
    omega

/-- Of two parts that a text starts with the one with fewer bytes starts the other. -/
theorem prefix_of_byteLength_le {a b text : List Char} (ha : a <+: text) (hb : b <+: text)
    (h : byteLength a ≤ byteLength b) : a <+: b := by
  rcases List.prefix_or_prefix_of_prefix ha hb with hab | ⟨more, rfl⟩
  · exact hab
  · rw [byteLength_append] at h
    have hmore : more = [] := eq_nil_of_byteLength_le (by omega)
    simp [hmore]

theorem byteLength_splitAtByte_le (n : Nat) (text : List Char) :
    byteLength (splitAtByte n text).1 ≤ n := by
  induction text generalizing n with
  | nil => exact Nat.zero_le n
  | cons c text ih =>
    rw [splitAtByte_cons]
    split
    · have hrest := ih (n - c.utf8Size)
      rw [byteLength_cons]
      omega
    · exact Nat.zero_le n

theorem le_byteLength_splitAtByte {n : Nat} {before text : List Char} (h : before <+: text)
    (hn : byteLength before ≤ n) : byteLength before ≤ byteLength (splitAtByte n text).1 := by
  induction before generalizing n text with
  | nil => exact Nat.zero_le _
  | cons c before ih =>
    cases text with
    | nil => exact absurd h (by simp)
    | cons d text =>
      obtain ⟨rfl, hbefore⟩ := List.cons_prefix_cons.1 h
      rw [byteLength_cons] at hn
      have hrest := ih hbefore (show byteLength before ≤ n - c.utf8Size by omega)
      rw [splitAtByte_cons, if_pos (by omega), byteLength_cons, byteLength_cons]
      omega

/-- A text is cut at the last place between two characters that is not past the byte. -/
theorem isGreatest_splitAtByte (n : Nat) (text : List Char) :
    IsGreatest {k | k ≤ n ∧ ∃ before, before <+: text ∧ byteLength before = k}
      (byteLength (splitAtByte n text).1) := by
  refine ⟨⟨byteLength_splitAtByte_le n text, _, splitAtByte_front n text, rfl⟩, ?_⟩
  rintro k ⟨hk, before, hbefore, rfl⟩
  exact le_byteLength_splitAtByte hbefore hk

theorem dropEndWhile_append_of_forall {p : Char → Bool} {a b : List Char}
    (h : ∀ c ∈ b, p c = true) : dropEndWhile p (a ++ b) = dropEndWhile p a := by
  unfold dropEndWhile
  rw [List.reverse_append, List.dropWhile_append_of_pos (by simpa using h)]

theorem dropEndWhile_append_of_exists {p : Char → Bool} {a b : List Char}
    (h : ∃ c ∈ b, p c = false) : dropEndWhile p (a ++ b) = a ++ dropEndWhile p b := by
  have hsome : (b.reverse.dropWhile p).isEmpty = false := by
    simpa [List.isEmpty_eq_false_iff, List.dropWhile_eq_nil_iff] using h
  unfold dropEndWhile
  rw [List.reverse_append, List.dropWhile_append, hsome, if_neg Bool.false_ne_true,
    List.reverse_append, List.reverse_reverse]

theorem dropEndWhile_congr {p q : Char → Bool} {text : List Char} (h : ∀ c ∈ text, p c = q c) :
    dropEndWhile p text = dropEndWhile q text := by
  have hdrop : ∀ text : List Char, (∀ c ∈ text, p c = q c) →
      text.dropWhile p = text.dropWhile q := by
    intro text h
    induction text with
    | nil => rfl
    | cons c text ih =>
      obtain ⟨hc, htext⟩ := List.forall_mem_cons.1 h
      rw [List.dropWhile_cons, List.dropWhile_cons, hc, ih htext]
  unfold dropEndWhile
  rw [hdrop text.reverse fun c hc => h c (List.mem_reverse.1 hc)]

theorem dropEndWhile_eq_nil_iff {p : Char → Bool} {text : List Char} :
    dropEndWhile p text = [] ↔ ∀ c ∈ text, p c = true := List.rdropWhile_eq_nil_iff

/-- What is dropped from the end of a text belongs to the class, and what it is dropped from does
not end with the class. -/
theorem exists_dropEndWhile (p : Char → Bool) (text : List Char) :
    ∃ dropped, text = dropEndWhile p text ++ dropped ∧ ∀ c ∈ dropped, p c = true :=
  ⟨text.rtakeWhile p, List.rdropWhile_append_rtakeWhile.symm, fun _ => List.mem_rtakeWhile_imp⟩

theorem getLast?_dropEndWhile (p : Char → Bool) (text : List Char) :
    ∀ c ∈ (dropEndWhile p text).getLast?, p c = false := by
  intro c hc
  rw [dropEndWhile, List.getLast?_reverse] at hc
  exact head?_dropWhile text.reverse c hc

end Text

namespace Diagnostic

open Text

variable {d : Diagnostic} {text : String} {o : Nat} {front line back before after : List Char}

/-- The line of a text that a place is on, between what stands before and behind it. -/
structure IsLineAt (o : Nat) (text front line back : List Char) : Prop where
  text_eq : text = front ++ (line ++ back)
  feedless : '\n' ∉ line
  opened : ∀ c ∈ front.getLast?, c = '\n'
  closed : ∀ c ∈ back.head?, c = '\n'
  place : if o = byteLength text ∧ text.getLast? = some '\n' then back = ['\n']
    else byteLength front ≤ o ∧ o ≤ byteLength front + byteLength line

/-- Whether a place is behind an empty line that ends a text which is not all empty. -/
def BehindEmptyLine (o : Nat) (text line back : List Char) : Prop :=
  o = byteLength text ∧ back = ['\n'] ∧ (∀ c ∈ line, c = '\r') ∧ ∃ c ∈ text, isBreak c = false

theorem ne_feed_of_not_mem (h : '\n' ∉ line) : ∀ c ∈ line, (c != '\n') = true := by
  intro c hc
  rw [bne_iff_ne]
  rintro rfl
  exact h hc

/-- Back to the line feed before a place. -/
theorem takeWhile_reverse_of_opened {left : List Char} (hleft : '\n' ∉ left)
    (hopened : ∀ c ∈ front.getLast?, c = '\n') :
    ((front ++ left).reverse.takeWhile (· != '\n')).reverse = left := by
  have hne : ∀ c ∈ left.reverse, (c != '\n') = true := by
    intro c hc
    exact ne_feed_of_not_mem hleft c (List.mem_reverse.1 hc)
  have hhead : ∀ c ∈ front.reverse.head?, (c != '\n') = false := by
    intro c hc
    rw [List.head?_reverse] at hc
    rw [hopened c hc]
    rfl
  rw [List.reverse_append, takeWhile_append_of_head hne hhead, List.reverse_reverse]

/-- On to the line feed behind it. -/
theorem takeWhile_of_closed {right : List Char} (hright : '\n' ∉ right)
    (hclosed : ∀ c ∈ back.head?, c = '\n') :
    (right ++ back).takeWhile (· != '\n') = right := by
  apply takeWhile_append_of_head (ne_feed_of_not_mem hright)
  intro c hc
  rw [hclosed c hc]
  rfl

/-- The line around a place where the text is cut. -/
theorem errorLine?_of_splitText {left right : List Char} (htext : d.text? = some text)
    (hsplit : splitText d.offset text.toList = (front ++ left, right ++ back))
    (hleft : '\n' ∉ left) (hright : '\n' ∉ right) (hopened : ∀ c ∈ front.getLast?, c = '\n')
    (hclosed : ∀ c ∈ back.head?, c = '\n') :
    d.errorLine? = some (dropEndWhile (· == '\r') (left ++ right), byteLength left) := by
  unfold errorLine?
  rw [htext, Option.map_some, hsplit]
  dsimp only
  rw [takeWhile_reverse_of_opened hleft hopened, takeWhile_of_closed hright hclosed]

theorem splitText_of_end {offset : Nat} {text : List Char}
    (hend : byteLength (splitAtByte offset text).1 = byteLength text)
    (hfeed : text.getLast? = some '\n') :
    splitText offset text =
      (dropEndWhile isBreak text, text.drop (dropEndWhile isBreak text).length) := by
  have hcut := splitAtByte_append offset text
  unfold splitText
  generalize splitAtByte offset text = cut at hend hcut
  obtain ⟨before, after⟩ := cut
  subst hcut
  dsimp only at hend
  rw [byteLength_append] at hend
  obtain rfl : after = [] := eq_nil_of_byteLength_le (by omega)
  rw [List.append_nil] at hfeed ⊢
  dsimp only
  rw [hfeed, if_pos (by decide)]

theorem splitText_of_not_end {offset : Nat} {text : List Char}
    (h : ¬(byteLength (splitAtByte offset text).1 = byteLength text ∧
      text.getLast? = some '\n')) :
    splitText offset text = splitAtByte offset text := by
  have hcut := splitAtByte_append offset text
  unfold splitText
  generalize splitAtByte offset text = cut at h hcut
  obtain ⟨before, after⟩ := cut
  subst hcut
  dsimp only at h ⊢
  refine if_neg fun hend => h ?_
  rw [Bool.and_eq_true, List.isEmpty_iff, beq_iff_eq] at hend
  obtain ⟨rfl, hfeed⟩ := hend
  rw [List.append_nil]
  exact ⟨rfl, hfeed⟩

/-- A place on a line cuts it in two. -/
theorem exists_cut (htext : before ++ after = front ++ (line ++ back))
    (hfront : byteLength front ≤ byteLength before)
    (hline : byteLength before ≤ byteLength front + byteLength line) :
    ∃ left right, line = left ++ right ∧ before = front ++ left ∧ after = right ++ back := by
  have hbefore : before <+: front ++ (line ++ back) := ⟨after, htext⟩
  obtain ⟨left, rfl⟩ := prefix_of_byteLength_le (List.prefix_append front _) hbefore hfront
  rw [List.append_assoc, List.append_cancel_left_eq] at htext
  have hleft : left <+: line := by
    rw [byteLength_append] at hline
    exact prefix_of_byteLength_le ⟨after, htext⟩ (List.prefix_append line back) (by omega)
  obtain ⟨right, rfl⟩ := hleft
  rw [List.append_assoc, List.append_cancel_left_eq] at htext
  exact ⟨left, right, rfl, rfl, htext⟩

theorem IsLineAt.within (h : IsLineAt o text.toList front line back)
    (hinner : ¬(o = byteLength text.toList ∧ text.toList.getLast? = some '\n')) :
    byteLength front ≤ o ∧ o ≤ byteLength front + byteLength line := by
  have hplace := h.place
  rwa [if_neg hinner] at hplace

/-- A place that is not behind the last line feed is on the line that is shown. -/
theorem errorLine?_of_inner (htext : d.text? = some text)
    (ho : o = byteLength (splitAtByte d.offset text.toList).1)
    (h : IsLineAt o text.toList front line back)
    (hinner : ¬(o = byteLength text.toList ∧ text.toList.getLast? = some '\n')) :
    d.errorLine? = some (dropEndWhile (· == '\r') line, o - byteLength front) := by
  obtain ⟨hfront, hline⟩ := h.within hinner
  subst ho
  have hsplit := splitText_of_not_end hinner
  have hcut := (splitAtByte_append d.offset text.toList).trans h.text_eq
  obtain ⟨left, right, rfl, hbefore, hafter⟩ := exists_cut hcut hfront hline
  have hfeedless := h.feedless
  rw [List.mem_append, not_or] at hfeedless
  have hsplit' : splitText d.offset text.toList = (front ++ left, right ++ back) :=
    hsplit.trans (Prod.ext hbefore hafter)
  rw [errorLine?_of_splitText htext hsplit' hfeedless.1 hfeedless.2 h.opened h.closed, hbefore,
    byteLength_append, Nat.add_sub_cancel_left]

theorem isBreak_eq_of_feedless (h : '\n' ∉ line) : ∀ c ∈ line, isBreak c = (c == '\r') := by
  intro c hc
  have hne : (c == '\n') = false := by
    rw [beq_eq_false_iff_ne]
    rintro rfl
    exact h hc
  rw [isBreak, hne, Bool.false_or]

/-- Behind the line feed of a line that is not empty, this is the line that is shown. -/
theorem errorLine?_of_end (htext : d.text? = some text)
    (hend : byteLength (splitAtByte d.offset text.toList).1 = byteLength text.toList)
    (hsplit : text.toList = front ++ (line ++ ['\n'])) (hfeedless : '\n' ∉ line)
    (hopened : ∀ c ∈ front.getLast?, c = '\n') (hsome : ∃ c ∈ line, isBreak c = false) :
    d.errorLine? = some (dropEndWhile (· == '\r') line,
      byteLength (dropEndWhile (· == '\r') line)) := by
  have hfeed : text.toList.getLast? = some '\n' := by
    rw [hsplit, ← List.append_assoc, List.getLast?_concat]
  have hkept : dropEndWhile isBreak text.toList = front ++ dropEndWhile (· == '\r') line := by
    obtain ⟨c, hc, hbreak⟩ := hsome
    have hfeedBreak : ∀ c ∈ ['\n'], isBreak c = true := by simp [isBreak]
    have hreturns := isBreak_eq_of_feedless hfeedless
    rw [hsplit, dropEndWhile_append_of_exists ⟨c, List.mem_append_left _ hc, hbreak⟩,
      dropEndWhile_append_of_forall hfeedBreak, dropEndWhile_congr hreturns]
  obtain ⟨returns, hline, -⟩ := exists_dropEndWhile (· == '\r') line
  have hcut := splitText_of_end hend hfeed
  generalize hcore : dropEndWhile (· == '\r') line = core at hkept hline ⊢
  have hdrop : text.toList.drop (front ++ core).length = returns ++ ['\n'] := by
    rw [hsplit, hline, List.append_assoc, ← List.append_assoc, List.drop_left]
  rw [hkept, hdrop] at hcut
  rw [hline, List.mem_append, not_or] at hfeedless
  rw [errorLine?_of_splitText htext hcut hfeedless.1 hfeedless.2 hopened (by simp), ← hline, hcore]

/-- Behind the line feed of an empty line, what is shown is empty only if the text is. -/
theorem errorLine?_of_emptyEnd (htext : d.text? = some text)
    (hend : byteLength (splitAtByte d.offset text.toList).1 = byteLength text.toList)
    (hfeed : text.toList.getLast? = some '\n') :
    (∃ n, d.errorLine? = some ([], n)) ↔ ∀ c ∈ text.toList, isBreak c = true := by
  have hcut := splitText_of_end hend hfeed
  have hlast := getLast?_dropEndWhile isBreak text.toList
  have hempty : dropEndWhile isBreak text.toList = [] ↔ ∀ c ∈ text.toList, isBreak c = true :=
    dropEndWhile_eq_nil_iff
  generalize dropEndWhile isBreak text.toList = kept at hcut hlast hempty
  have hshown : d.errorLine? = some (dropEndWhile (· == '\r')
      ((kept.reverse.takeWhile (· != '\n')).reverse ++
        (text.toList.drop kept.length).takeWhile (· != '\n')),
      byteLength (kept.reverse.takeWhile (· != '\n')).reverse) := by
    unfold errorLine?
    rw [htext, Option.map_some, hcut]
  rw [hshown]
  simp only [Option.some.injEq, Prod.mk.injEq, exists_and_left, exists_eq', and_true,
    dropEndWhile_eq_nil_iff]
  rw [← hempty]
  constructor
  · intro hreturns
    by_contra hkept
    -- the last character that is kept is no line break, and stands on the line that is shown
    obtain ⟨c, hc⟩ := Option.ne_none_iff_exists'.1 (mt List.getLast?_eq_none_iff.1 hkept)
    have hbreak := hlast c hc
    rw [isBreak, Bool.or_eq_false_iff] at hbreak
    obtain ⟨hfeed, hreturn⟩ := hbreak
    rw [← List.head?_reverse, List.head?_eq_some_iff] at hc
    obtain ⟨more, hmore⟩ := hc
    have hmem : c ∈ kept.reverse.takeWhile (· != '\n') := by
      rw [hmore, List.takeWhile_cons, bne, hfeed]
      exact List.mem_cons_self
    have hshows := hreturns c (List.mem_append_left _ (List.mem_reverse.2 hmem))
    rw [hreturn] at hshows
    cases hshows
  · intro hkept c hc
    have hall := hempty.1 hkept
    subst hkept
    have hne := List.mem_takeWhile_imp hc
    have hmem := hall c (List.takeWhile_subset _ hc)
    simpa [isBreak, bne_iff_ne.1 hne] using hmem

theorem exists_opened (before : List Char) :
    ∃ front left, before = front ++ left ∧ '\n' ∉ left ∧ ∀ c ∈ front.getLast?, c = '\n' := by
  obtain ⟨left, hsplit, hleft⟩ := exists_dropEndWhile (· != '\n') before
  refine ⟨_, left, hsplit, fun hmem => absurd (hleft _ hmem) (by decide), fun c hc => ?_⟩
  simpa using getLast?_dropEndWhile _ before c hc

/-- Every place is on a line. -/
theorem exists_isLineAt {text : List Char}
    (h : ∃ before, before <+: text ∧ byteLength before = o) :
    ∃ front line back, IsLineAt o text front line back := by
  obtain ⟨before, ⟨after, rfl⟩, rfl⟩ := h
  by_cases hend : byteLength before = byteLength (before ++ after) ∧
      (before ++ after).getLast? = some '\n'
  · obtain ⟨body, hbody⟩ := List.getLast?_eq_some_iff.1 hend.2
    obtain ⟨front, line, rfl, hline, hopened⟩ := exists_opened body
    refine ⟨front, line, ['\n'], ?_, hline, hopened, by simp, ?_⟩
    · rw [hbody, List.append_assoc]
    · rw [if_pos hend]
  · obtain ⟨front, left, rfl, hleft, hopened⟩ := exists_opened before
    have hright : '\n' ∉ after.takeWhile (· != '\n') := by
      intro hmem
      exact absurd (List.mem_takeWhile_imp hmem) (by decide)
    refine ⟨front, left ++ after.takeWhile (· != '\n'), after.dropWhile (· != '\n'), ?_, ?_,
      hopened, fun c hc => ?_, ?_⟩
    · rw [List.append_assoc, List.append_assoc, List.takeWhile_append_dropWhile]
    · rw [List.mem_append, not_or]
      exact ⟨hleft, hright⟩
    · simpa using head?_dropWhile after c hc
    · rw [if_neg hend, byteLength_append, byteLength_append]
      omega

/-- Behind the line feed of a line, this is the line that is shown unless it is empty and the text
is not. -/
theorem errorLine?_iff_of_end (htext : d.text? = some text)
    (hend : byteLength (splitAtByte d.offset text.toList).1 = byteLength text.toList)
    (hsplit : text.toList = front ++ (line ++ ['\n'])) (hfeedless : '\n' ∉ line)
    (hopened : ∀ c ∈ front.getLast?, c = '\n') :
    (∃ n, d.errorLine? = some (dropEndWhile (· == '\r') line, n)) ↔
      ¬BehindEmptyLine (byteLength (splitAtByte d.offset text.toList).1) text.toList line
        ['\n'] := by
  by_cases hsome : ∃ c ∈ line, isBreak c = false
  · have hshown := errorLine?_of_end htext hend hsplit hfeedless hopened hsome
    refine iff_of_true ⟨_, hshown⟩ ?_
    intro hbehind
    obtain ⟨c, hc, hbreak⟩ := hsome
    rw [hbehind.2.2.1 c hc] at hbreak
    cases hbreak
  · have hfeed : text.toList.getLast? = some '\n' := by
      rw [hsplit, ← List.append_assoc, List.getLast?_concat]
    have hreturns : ∀ c ∈ line, (c == '\r') = true := by
      intro c hc
      by_contra hbreak
      rw [← isBreak_eq_of_feedless hfeedless c hc] at hbreak
      exact hsome ⟨c, hc, Bool.eq_false_of_not_eq_true hbreak⟩
    rw [dropEndWhile_eq_nil_iff.2 hreturns, errorLine?_of_emptyEnd htext hend hfeed]
    constructor
    · intro hall hbehind
      obtain ⟨c, hc, hbreak⟩ := hbehind.2.2.2
      rw [hall c hc] at hbreak
      cases hbreak
    · intro hnot c hc
      by_contra hbreak
      apply hnot
      have hempty : ∀ c ∈ line, c = '\r' := fun c hc => beq_iff_eq.1 (hreturns c hc)
      exact ⟨hend, rfl, hempty, c, hc, Bool.eq_false_of_not_eq_true hbreak⟩

/-- What is shown is the line that the place of the failure is on, without the carriage returns at
its end, but not behind an empty line that ends a text. -/
theorem errorLine?_iff (htext : d.text? = some text)
    (ho : IsGreatest
      {n | n ≤ d.offset ∧ ∃ before, before <+: text.toList ∧ byteLength before = n} o) :
    (∃ front line back, IsLineAt o text.toList front line back) ∧
      ∀ front line back, IsLineAt o text.toList front line back →
        ((∃ n, d.errorLine? = some (dropEndWhile (· == '\r') line, n)) ↔
          ¬BehindEmptyLine o text.toList line back) := by
  obtain rfl := ho.unique (isGreatest_splitAtByte d.offset text.toList)
  refine ⟨exists_isLineAt ho.1.2, ?_⟩
  intro front line back h
  by_cases hend : byteLength (splitAtByte d.offset text.toList).1 = byteLength text.toList ∧
      text.toList.getLast? = some '\n'
  · have hback := h.place
    rw [if_pos hend] at hback
    subst hback
    exact errorLine?_iff_of_end htext hend.1 h.text_eq h.feedless h.opened
  · refine iff_of_true ⟨_, errorLine?_of_inner htext rfl h hend⟩ ?_
    rintro ⟨hplace, rfl, -, -⟩
    refine hend ⟨hplace, ?_⟩
    rw [h.text_eq, ← List.append_assoc, List.getLast?_concat]

/-- A bracket that nothing closes, before an empty line. -/
def openBracket (offset : Nat) : Diagnostic :=
  ⟨.endOfFile, "deck", 1, offset, some "é(\r\n\n", none, none⟩

/-- Inside the accent the failure is on the line of the bracket. -/
theorem errorLine?_iff_openBracket :
    IsGreatest {n | n ≤ 1 ∧ ∃ before, before <+: "é(\r\n\n".toList ∧ byteLength before = n} 0 ∧
      IsLineAt 0 "é(\r\n\n".toList [] "é(\r".toList "\n\n".toList ∧
      ∃ n, (openBracket 1).errorLine? = some ("é(".toList, n) := by
  have ho : IsGreatest
      {n | n ≤ 1 ∧ ∃ before, before <+: "é(\r\n\n".toList ∧ byteLength before = n} 0 :=
    isGreatest_splitAtByte 1 "é(\r\n\n".toList
  have hline : IsLineAt 0 "é(\r\n\n".toList [] "é(\r".toList "\n\n".toList :=
    ⟨by decide, by decide, by simp, by simp, by decide⟩
  have htext : (openBracket 1).text? = some "é(\r\n\n" := rfl
  have hshown := (errorLine?_iff htext ho).2 _ _ _ hline
  have hbehind : ¬BehindEmptyLine 0 "é(\r\n\n".toList "é(\r".toList "\n\n".toList := by
    rintro ⟨-, hback, -⟩
    exact absurd hback (by decide)
  exact ⟨ho, hline, hshown.2 hbehind⟩

/-- Behind the empty line the failure is shown on the line before it. -/
theorem errorLine?_behind_emptyLine :
    IsGreatest {n | n ≤ 6 ∧ ∃ before, before <+: "é(\r\n\n".toList ∧ byteLength before = n} 6 ∧
      IsLineAt 6 "é(\r\n\n".toList "é(\r\n".toList [] ['\n'] ∧
      ¬∃ n, (openBracket 6).errorLine? = some ([], n) := by
  refine ⟨isGreatest_splitAtByte 6 "é(\r\n\n".toList,
    ⟨by decide, by decide, by simp, by simp, by decide⟩, ?_⟩
  have hshown : (openBracket 6).errorLine? = some ("é(".toList, 3) := by decide +kernel
  rintro ⟨n, hn⟩
  rw [hshown] at hn
  exact absurd (Prod.mk.inj (Option.some.inj hn)).1 (by decide)

end Diagnostic
end Offside
