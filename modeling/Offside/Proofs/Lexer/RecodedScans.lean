import Offside.Proofs.Lexer.BeforeBreaks
import Offside.Proofs.Text.Recoding

/-!
Scanners on a text with other line breaks. A plain token ends before a line break and is the same
whichever it is. A literal may hold line breaks, in its body and behind backslashes there, and holds
the new ones in their places.
-/

namespace Offside

open Text

variable {br text : List Char}

namespace Plain

/-- The plain token that a text starts with does not change. -/
theorem scan?_recode (hbr : IsReturn br) (hclean : '\r' ∉ text) :
    scan? (recode br text) = (scan? text).map fun x => (x.1, x.2.1, recode br x.2.2) := by
  obtain ⟨line, hline, htext⟩ := exists_line hclean
  have hrest : ∀ x ∈ scan? line, Unbroken x.2.2 := by
    intro x hx
    rw [← append_of_scan? (Option.mem_def.1 hx)] at hline
    exact (unbroken_append.1 hline).2
  rcases htext with rfl | ⟨more, rfl⟩
  · rw [recode_of_unbroken hline]
    cases hscan : scan? text with
    | none => rfl
    | some x => rw [Option.map_some, recode_of_unbroken (hrest x hscan)]
  · obtain ⟨tail, rfl⟩ := hbr.exists_cons
    rw [recode_append, recode_of_unbroken hline, recode_feed, List.cons_append,
      scan?_before (by decide), scan?_before (by decide), Option.map_map]
    cases hscan : scan? line with
    | none => rfl
    | some x =>
      simp only [Option.map_some, Function.comp_apply, operatorThenMore, thenMore, recode_append,
        recode_feed, recode_of_unbroken (hrest x hscan), List.cons_append]

end Plain

namespace Literal

theorem opening?_recode (hbr : IsReturn br) (hclean : '\r' ∉ text) :
    opening? (recode br text) =
      (opening? text).map fun o => { o with rest := recode br o.rest } := by
  obtain ⟨line, hline, htext⟩ := exists_line hclean
  have hrest : ∀ o ∈ opening? line, Unbroken o.rest := by
    intro o ho
    rw [append_of_opening? (Option.mem_def.1 ho)] at hline
    exact (unbroken_append.1 hline).2
  rcases htext with rfl | ⟨more, rfl⟩
  · rw [recode_of_unbroken hline]
    cases hopening : opening? text with
    | none => rfl
    | some o => rw [Option.map_some, recode_of_unbroken (hrest o hopening)]
  · obtain ⟨tail, rfl⟩ := hbr.exists_cons
    rw [recode_append, recode_of_unbroken hline, recode_feed, List.cons_append,
      opening?_before (by decide), opening?_before (by decide), Option.map_map]
    cases hopening : opening? line with
    | none => rfl
    | some o =>
      simp only [Option.map_some, Function.comp_apply, Opening.thenMore, recode_append,
        recode_feed, recode_of_unbroken (hrest o hopening), List.cons_append]

/-- What a literal takes up, with other line breaks. -/
def Stretch.recode (br : List Char) (x : Stretch) : Stretch := ⟨Text.recode br x.read, x.error?⟩

variable {quote : Char} {width : Nat} {read read' : List Char}

/-- What has been read, last character first, with one more character that is no line feed. -/
theorem reverse_cons_recode (h : read'.reverse = Text.recode br read.reverse) {c : Char}
    (hc : c ≠ '\n') : (c :: read').reverse = Text.recode br (c :: read).reverse := by
  rw [List.reverse_cons, List.reverse_cons, recode_append, h, recode_cons hc, recode_nil]

/-- The same with a line feed. -/
theorem reverse_feed_recode (h : read'.reverse = Text.recode br read.reverse) :
    (br.reverse ++ read').reverse = Text.recode br ('\n' :: read).reverse := by
  rw [List.reverse_append, List.reverse_reverse, List.reverse_cons, recode_append, h, recode_feed,
    recode_nil, List.append_nil]

/-- A backslash takes a line break along, be it one character or two. -/
theorem bodyFrom_escaped_return (hbr : IsReturn br) (hescape : '\\' ≠ quote) (seen : Nat) :
    bodyFrom quote width read seen ('\\' :: (br ++ Text.recode br text)) =
      bodyFrom quote width (br.reverse ++ '\\' :: read) 0 (Text.recode br text) := by
  rcases hbr with hbr | hbr
  · subst hbr
    exact bodyFrom_joined hescape read seen _
  · have hhead := IsReturn.head?_recode (Or.inr hbr) text
    subst hbr
    refine bodyFrom_escaped hescape read seen ?_
    intro rest _ hrest
    exact hhead (congrArg List.head? hrest)

theorem ne_quote_of_isBreak (hquote : isQuote quote = true) {c : Char} (hc : isBreak c = true) :
    c ≠ quote := by
  rintro rfl
  rw [isQuote_break hc] at hquote
  cases hquote

/-- A literal with three quotes goes on behind a line break, be it one character or two. -/
theorem bodyFrom_return (hbr : IsReturn br) (hquote : isQuote quote = true) (hwidth : width = 3)
    (seen : Nat) :
    bodyFrom quote width read seen (br ++ Text.recode br text) =
      bodyFrom quote width (br.reverse ++ read) 0 (Text.recode br text) := by
  have hplain : ∀ c : Char, isBreak c = true → ∀ read seen rest,
      bodyFrom quote width read seen (c :: rest) = bodyFrom quote width (c :: read) 0 rest := by
    intro c hc read seen rest
    have hescape : c ≠ '\\' := by
      rintro rfl
      cases hc
    exact bodyFrom_plain (ne_quote_of_isBreak hquote hc) hescape (by simp [hwidth]) read seen rest
  rcases hbr with rfl | rfl
  · exact (hplain '\r' (by decide) _ _ _).trans (hplain '\n' (by decide) _ _ _)
  · exact hplain '\r' (by decide) _ _ _

/-- A body is read alike, whichever the line breaks are. -/
theorem bodyFrom_recode (hbr : IsReturn br) (hquote : isQuote quote = true)
    (hread : read'.reverse = Text.recode br read.reverse) (seen : Nat) (hclean : '\r' ∉ text) :
    bodyFrom quote width read' seen (Text.recode br text) =
      (bodyFrom quote width read seen text).recode br := by
  have hfeed : '\n' ≠ quote := ne_quote_of_isBreak hquote (by decide)
  -- on how the text with line feeds is read: the other reading may take two steps for one
  induction read, seen, text using bodyFrom.induct quote width generalizing read' with
  | case1 read seen =>
    rw [recode_nil, bodyFrom, bodyFrom, hread]
    rfl
  | case2 read seen rest hseen =>
    rw [recode_cons hfeed.symm, bodyFrom_closing hseen, bodyFrom_closing hseen,
      reverse_cons_recode hread hfeed.symm]
    rfl
  | case3 read seen rest hseen ih =>
    rw [recode_cons hfeed.symm, bodyFrom_quote hseen, bodyFrom_quote hseen]
    exact ih (reverse_cons_recode hread hfeed.symm) (List.not_mem_of_not_mem_cons hclean)
  | case4 read seen hescape ih =>
    rw [recode_cons (by decide), recode_nil, bodyFrom_lone hescape, bodyFrom_lone hescape]
    exact ih (reverse_cons_recode hread (by decide)) List.not_mem_nil
  | case5 read seen rest hescape ih => exact absurd (by simp) hclean
  | case6 read seen d rest hd hescape ih =>
    have hrest : '\r' ∉ rest :=
      List.not_mem_of_not_mem_cons (List.not_mem_of_not_mem_cons hclean)
    have hreturn : d ≠ '\r' := by
      rintro rfl
      exact hclean (by simp)
    have hstep := reverse_cons_recode hread (c := '\\') (by decide)
    rw [bodyFrom_escaped hescape read seen hd, recode_cons (by decide)]
    by_cases hfeed' : d = '\n'
    · subst hfeed'
      rw [recode_feed, bodyFrom_escaped_return hbr hescape]
      exact ih (reverse_feed_recode hstep) hrest
    · rw [recode_cons hfeed', bodyFrom_escaped hescape _ _ fun _ heq => absurd heq hreturn]
      exact ih (reverse_cons_recode hstep hfeed') hrest
  | case7 read seen c rest hne hescape hbreak =>
    -- the line feed ends a literal with single quotes, and so does what stands in its place
    have hwidth : isBreak c = true ∧ (width != 3) = true := Bool.and_eq_true_iff.1 hbreak
    obtain rfl : c = '\n' := by
      refine eq_feed_of_isBreak ?_ hwidth.1
      rintro rfl
      exact hclean List.mem_cons_self
    obtain ⟨more, rfl⟩ := hbr.exists_cons
    have hreturn : (isBreak '\r' && width != 3) = true := Bool.and_eq_true_iff.2 ⟨rfl, hwidth.2⟩
    rw [bodyFrom_broken hne hescape hbreak, recode_feed, List.cons_append,
      bodyFrom_broken (ne_quote_of_isBreak hquote rfl) (by decide) hreturn, hread]
    rfl
  | case8 read seen c rest hne hescape hbreak ih =>
    have hrest := List.not_mem_of_not_mem_cons hclean
    rw [bodyFrom_plain hne hescape hbreak]
    by_cases hfeed' : c = '\n'
    · subst hfeed'
      have hwidth : width = 3 := by simpa [isBreak] using hbreak
      rw [recode_feed, bodyFrom_return hbr hquote hwidth]
      exact ih (reverse_feed_recode hread) hrest
    · rw [recode_cons hfeed', bodyFrom_plain hne hescape hbreak]
      exact ih (reverse_cons_recode hread hfeed') hrest

/-- A literal takes up what it took up, with the new line breaks, or fails as it failed. -/
theorem stretch?_recode (hbr : IsReturn br) (hclean : '\r' ∉ text) :
    stretch? (Text.recode br text) = (stretch? text).map (Stretch.recode br) := by
  unfold stretch?
  rw [opening?_recode hbr hclean, Option.map_map, Option.map_map]
  cases hopening : opening? text with
  | none => rfl
  | some o =>
    have hquote := opening?_quote hopening
    have happend := append_of_opening? hopening
    have hopens := unbroken_opening? hopening
    have hrest : '\r' ∉ o.rest := by
      intro hmem
      exact hclean (happend ▸ List.mem_append_right _ hmem)
    refine congrArg some (bodyFrom_recode hbr hquote ?_ 0 hrest)
    rw [List.reverse_reverse, recode_of_unbroken hopens]

end Literal

namespace Lexer

/-- Whether a definition follows does not change. -/
theorem definitionFollows_recode (hbr : IsReturn br) (hclean : '\r' ∉ text) :
    definitionFollows (recode br text) = definitionFollows text := by
  obtain ⟨line, hline, rfl | ⟨more, rfl⟩⟩ := exists_line hclean
  · rw [recode_of_unbroken hline]
  · obtain ⟨tail, rfl⟩ := hbr.exists_cons
    rw [recode_append, recode_of_unbroken hline, recode_feed, List.cons_append,
      definitionFollows_before (by decide), definitionFollows_before (by decide)]

end Lexer
end Offside
