import Offside.Lexer.Turn
import Offside.Proofs.Lexer.Cursors

/-!
Literals without the count of their lines. Where a literal ends does not depend on the lines that
are counted in it, so a stretch is read by the scanner's rules with the count left out, and the
count is then told by what was read: the line breaks in it, and the place behind the last of them.
To move over a literal is therefore to advance over its text.
-/

namespace Offside

open Text

namespace Literal

theorem isQuote_break {c : Char} (h : isBreak c = true) : isQuote c = false :=
  eq_false_of_isBreak (by decide) (by decide) h

theorem openingAfter?_quote {letters text : List Char} {o : Opening}
    (h : openingAfter? letters text = some o) : isQuote o.quote = true := by
  unfold openingAfter? at h
  grind

theorem opening?_quote {text : List Char} {o : Opening} (h : opening? text = some o) :
    isQuote o.quote = true := by
  unfold opening? at h
  grind [openingAfter?_quote]

theorem append_of_openingAfter? {letters text : List Char} {o : Opening}
    (h : openingAfter? letters text = some o) :
    o.letters = letters ∧ text = List.replicate o.width o.quote ++ o.rest := by
  unfold openingAfter? at h
  split at h
  · cases h
  · split at h
    · split at h
      · split at h
        · next hquotes =>
          cases h
          obtain ⟨rfl, rfl⟩ := hquotes
          exact ⟨rfl, rfl⟩
        · cases h
          exact ⟨rfl, rfl⟩
      · cases h
        exact ⟨rfl, rfl⟩
    · cases h

/-- The prefix letters, the opening quotes and what is left make up the text. -/
theorem append_of_opening? {text : List Char} {o : Opening} (h : opening? text = some o) :
    text = o.letters ++ List.replicate o.width o.quote ++ o.rest := by
  unfold opening? at h
  split at h
  · split at h
    · split at h
      all_goals
        obtain ⟨hletters, happend⟩ := append_of_openingAfter? h
        rw [hletters, List.append_assoc, ← happend]
        rfl
    · obtain ⟨hletters, happend⟩ := append_of_openingAfter? h
      rw [hletters, List.append_assoc, ← happend]
      rfl
  · obtain ⟨hletters, happend⟩ := append_of_openingAfter? h
    rw [hletters, List.append_assoc, ← happend]
    rfl

theorem isPrefixLetter_of_opening? {text : List Char} {o : Opening} (h : opening? text = some o) :
    ∀ c ∈ o.letters, isPrefixLetter c = true := by
  unfold opening? at h
  split at h
  · split at h
    · next ha =>
      split at h
      · next hb => simp [(append_of_openingAfter? h).1, ha, hb]
      · simp [(append_of_openingAfter? h).1, ha]
    · simp [(append_of_openingAfter? h).1]
  · simp [(append_of_openingAfter? h).1]

/-- The letters and the quotes that open a literal hold no line break. -/
theorem unbroken_opening? {text : List Char} {o : Opening} (h : opening? text = some o) :
    Unbroken (o.letters ++ List.replicate o.width o.quote) := by
  refine unbroken_append.2 ⟨?_, ?_⟩
  · exact unbroken_of_forall (by decide) (by decide) (isPrefixLetter_of_opening? h)
  · refine unbroken_of_forall (p := isQuote) (by decide) (by decide) ?_
    intro c hc
    rw [List.eq_of_mem_replicate hc]
    exact opening?_quote h

theorem isBreak_quote {c : Char} (h : isQuote c = true) : isBreak c = false := by
  by_contra hbreak
  rw [isQuote_break (eq_true_of_ne_false hbreak)] at h
  cases h

/-- The part of a text that a literal takes up, and why it has no end. -/
structure Stretch where
  read : List Char
  error? : Option LexError
  deriving DecidableEq, Inhabited

/-- Reads a body to its end. `seen` closing quotes stand right before `text`, and all that was
read so far is `read`, last character first. -/
def bodyFrom (quote : Char) (width : Nat) (read : List Char) (seen : Nat)
    (text : List Char) : Stretch :=
  match text with
  | [] => ⟨read.reverse, some (if width = 3 then .endOfFileInLiteral else .endOfLineInLiteral)⟩
  | c :: rest =>
    if c = quote then
      if seen + 1 = width then ⟨(c :: read).reverse, none⟩
      else bodyFrom quote width (c :: read) (seen + 1) rest
    else if c = '\\' then
      match rest with
      | [] => bodyFrom quote width (c :: read) 0 []
      | d :: rest =>
        match d, rest with
        | '\r', '\n' :: rest => bodyFrom quote width ('\n' :: '\r' :: c :: read) 0 rest
        | d, rest => bodyFrom quote width (d :: c :: read) 0 rest
    else if Text.isBreak c && width != 3 then ⟨read.reverse, some .endOfLineInLiteral⟩
    else bodyFrom quote width (c :: read) 0 rest
termination_by text.length

variable {quote : Char} {width : Nat}

theorem bodyFrom_nil (read : List Char) (seen : Nat) :
    (bodyFrom quote width read seen []).error? ≠ none := by
  rw [bodyFrom]
  exact Option.some_ne_none _

theorem bodyFrom_closing {read : List Char} {seen : Nat} (h : seen + 1 = width)
    (rest : List Char) :
    bodyFrom quote width read seen (quote :: rest) = ⟨(quote :: read).reverse, none⟩ := by
  rw [bodyFrom.eq_def]
  simp [h]

theorem bodyFrom_quote {read : List Char} {seen : Nat} (h : seen + 1 ≠ width)
    (rest : List Char) :
    bodyFrom quote width read seen (quote :: rest) =
      bodyFrom quote width (quote :: read) (seen + 1) rest := by
  rw [bodyFrom.eq_def]
  simp [h]

theorem bodyFrom_joined (h : '\\' ≠ quote) (read : List Char) (seen : Nat) (rest : List Char) :
    bodyFrom quote width read seen ('\\' :: '\r' :: '\n' :: rest) =
      bodyFrom quote width ('\n' :: '\r' :: '\\' :: read) 0 rest := by
  rw [bodyFrom.eq_def]
  simp [h]

theorem bodyFrom_escaped (h : '\\' ≠ quote) (read : List Char) (seen : Nat) {d : Char}
    {rest : List Char} (hd : ∀ rest', d = '\r' → rest = '\n' :: rest' → False) :
    bodyFrom quote width read seen ('\\' :: d :: rest) =
      bodyFrom quote width (d :: '\\' :: read) 0 rest := by
  rw [bodyFrom.eq_def]
  simp only [h, if_false, if_true]

/-- A backslash that ends the text takes nothing along. -/
theorem bodyFrom_lone (h : '\\' ≠ quote) (read : List Char) (seen : Nat) :
    bodyFrom quote width read seen ['\\'] = bodyFrom quote width ('\\' :: read) 0 [] := by
  rw [bodyFrom.eq_def]
  simp [h]

theorem bodyFrom_broken {c : Char} (hquote : c ≠ quote) (hescape : c ≠ '\\')
    (h : (isBreak c && width != 3) = true) (read : List Char) (seen : Nat) (rest : List Char) :
    bodyFrom quote width read seen (c :: rest) = ⟨read.reverse, some .endOfLineInLiteral⟩ := by
  rw [bodyFrom.eq_def]
  simp [hquote, hescape, h]

theorem bodyFrom_plain {c : Char} (hquote : c ≠ quote) (hescape : c ≠ '\\')
    (h : ¬(isBreak c && width != 3) = true) (read : List Char) (seen : Nat) (rest : List Char) :
    bodyFrom quote width read seen (c :: rest) = bodyFrom quote width (c :: read) 0 rest := by
  rw [bodyFrom.eq_def]
  simp [hquote, hescape, h]

/-- The stretch of a literal with a given opening. -/
def stretch (o : Opening) : Stretch :=
  bodyFrom o.quote o.width ((o.letters ++ List.replicate o.width o.quote).reverse) 0 o.rest

/-- The stretch of the literal that a text starts with. -/
def stretch? (text : List Char) : Option Stretch := (opening? text).map stretch

theorem append_of_bodyFrom (quote : Char) (width : Nat) (read : List Char) (seen : Nat)
    (text : List Char) :
    ∃ more rest, (bodyFrom quote width read seen text).read = read.reverse ++ more ∧
      text = more ++ rest := by
  have extend : ∀ {x : Stretch} {read t text : List Char},
      (∃ more rest, x.read = (t.reverse ++ read).reverse ++ more ∧ text = more ++ rest) →
        ∃ more rest, x.read = read.reverse ++ more ∧ t ++ text = more ++ rest := by
    rintro x read t text ⟨more, rest, hread, rfl⟩
    refine ⟨t ++ more, rest, ?_, (List.append_assoc _ _ _).symm⟩
    rw [hread, List.reverse_append, List.reverse_reverse, List.append_assoc]
  fun_induction bodyFrom quote width read seen text with
  | case1 => exact ⟨[], [], (List.append_nil _).symm, rfl⟩
  | case2 read seen rest => exact ⟨[quote], rest, List.reverse_cons, rfl⟩
  | case3 read seen rest _ ih => exact extend (t := [quote]) ih
  | case4 read seen _ ih => exact extend (t := ['\\']) ih
  | case5 read seen rest _ ih => exact extend (t := ['\\', '\r', '\n']) ih
  | case6 read seen d rest _ _ ih => exact extend (t := ['\\', d]) ih
  | case7 read seen c rest => exact ⟨[], c :: rest, (List.append_nil _).symm, rfl⟩
  | case8 read seen c rest _ _ _ ih => exact extend (t := [c]) ih

/-- A body that ends ends with the quote. -/
theorem getLast?_bodyFrom {quote : Char} {width : Nat} {read : List Char} {seen : Nat}
    {text : List Char} (h : (bodyFrom quote width read seen text).error? = none) :
    (bodyFrom quote width read seen text).read.getLast? = some quote := by
  fun_induction bodyFrom quote width read seen text with
  | case1 => cases h
  | case2 => rw [List.getLast?_reverse, List.head?_cons]
  | case3 _ _ _ _ ih => exact ih h
  | case4 _ _ _ ih => exact ih h
  | case5 _ _ _ _ ih => exact ih h
  | case6 _ _ _ _ _ _ ih => exact ih h
  | case7 => cases h
  | case8 _ _ _ _ _ _ _ ih => exact ih h

/-- A literal and what is left make up the text. -/
theorem append_of_stretch? {text : List Char} {x : Stretch} (h : stretch? text = some x) :
    ∃ rest, text = x.read ++ rest := by
  obtain ⟨o, ho, rfl⟩ := Option.map_eq_some_iff.1 h
  obtain ⟨more, rest, hread, hrest⟩ := append_of_bodyFrom o.quote o.width
    ((o.letters ++ List.replicate o.width o.quote).reverse) 0 o.rest
  refine ⟨rest, ?_⟩
  rw [stretch, hread, List.reverse_reverse, append_of_opening? ho, hrest]
  simp only [List.append_assoc]

theorem stretch?_length {text : List Char} {x : Stretch} (h : stretch? text = some x) :
    x.read.length ≤ text.length := by
  obtain ⟨rest, happend⟩ := append_of_stretch? h
  rw [happend, List.length_append]
  exact Nat.le_add_right _ _

/-- A literal ends with a quote. -/
theorem getLast?_of_stretch? {text : List Char} {x : Stretch} (h : stretch? text = some x)
    (herror : x.error? = none) : ∃ q, x.read.getLast? = some q ∧ isQuote q = true := by
  obtain ⟨o, ho, rfl⟩ := Option.map_eq_some_iff.1 h
  exact ⟨o.quote, getLast?_bodyFrom herror, opening?_quote ho⟩

/-- A literal starts with neither a hash nor a line break. -/
theorem exists_head_of_stretch? {text : List Char} {x : Stretch} (h : stretch? text = some x) :
    ∃ c tail, text = c :: tail ∧ c ≠ '#' ∧ isBreak c = false := by
  obtain ⟨o, hopening, _⟩ := Option.map_eq_some_iff.1 h
  cases text with
  | nil => cases hopening
  | cons c tail =>
    refine ⟨c, tail, rfl, ?_⟩
    have hfirst : isQuote c = true ∨ isPrefixLetter c = true := by
      by_contra hneither
      rw [not_or, Bool.not_eq_true, Bool.not_eq_true] at hneither
      have hnone : opening? (c :: tail) = none := by
        cases tail with
        | nil => simp [opening?, openingAfter?, hneither.1]
        | cons d tail => simp [opening?, openingAfter?, hneither.1, hneither.2]
      rw [hnone] at hopening
      cases hopening
    constructor
    · rintro rfl
      rcases hfirst with hquote | hletter
      · cases hquote
      · cases hletter
    · cases hbreak : isBreak c with
      | false => rfl
      | true =>
        rw [isBreak, Bool.or_eq_true, beq_iff_eq, beq_iff_eq] at hbreak
        rcases hbreak with rfl | rfl
        all_goals
          rcases hfirst with hquote | hletter
          · cases hquote
          · cases hletter

/-- The extent of a stretch, with the lines in it counted. -/
def Stretch.counted (x : Stretch) : Extent :=
  ⟨x.read, x.error?, .ofNat (breakStops x.read).length, (breakStops x.read).getLast?⟩

namespace Scan

variable {s : Scan} {c : Char}

/-- A scan has counted the lines of what it has read. -/
structure Counts (s : Scan) : Prop where
  size : s.size = s.read.length
  newlines : s.newlines = .ofNat (breakStops s.read.reverse).length
  lastLineStart : s.lastLineStart? = (breakStops s.read.reverse).getLast?

theorem breakStops_concat {text : List Char} (hcut : ¬Splits text [c]) :
    breakStops (text ++ [c]) =
      if isBreak c then breakStops text ++ [text.length + 1] else breakStops text := by
  rw [breakStops, breakStopsFrom_append 0 hcut, breakStopsFrom_cons _ (not_splits_nil_right _),
    Nat.zero_add]
  split
  · rfl
  · exact List.append_nil _

theorem Counts.take (h : s.Counts) (hc : isBreak c = false) : (s.take c).Counts := by
  have hcut : ¬Splits s.read.reverse [c] := by
    rintro ⟨_, hhead⟩
    obtain rfl : c = '\n' := Option.some.inj hhead
    cases hc
  have hstops : breakStops (s.take c).read.reverse = breakStops s.read.reverse := by
    rw [Scan.take, List.reverse_cons, breakStops_concat hcut, hc, if_neg Bool.false_ne_true]
  exact ⟨congrArg (· + 1) h.size, by rw [hstops]; exact h.newlines,
    by rw [hstops]; exact h.lastLineStart⟩

/-- A line has been opened behind what was read before and all the stops of it. -/
theorem Counts.openLine {s' : Scan} (h : s.Counts) (hsize : s'.size = s'.read.length)
    (hnewlines : s'.newlines = s.newlines)
    (hstops : breakStops s'.read.reverse = breakStops s.read.reverse ++ [s'.read.length]) :
    s'.openLine.Counts := by
  refine ⟨hsize, ?_, ?_⟩
  · show s'.newlines + 1 = .ofNat (breakStops s'.read.reverse).length
    rw [hnewlines, h.newlines, hstops, List.length_append, List.length_singleton,
      UInt32.ofNat_add]
    rfl
  · show some s'.size = (breakStops s'.read.reverse).getLast?
    rw [hstops, hsize, List.getLast?_concat]

theorem Counts.takeBreak (h : s.Counts) (hc : isBreak c = true)
    (hcut : ¬Splits s.read.reverse [c]) : (s.take c).openLine.Counts := by
  refine h.openLine (congrArg (· + 1) h.size) rfl ?_
  rw [Scan.take, List.reverse_cons, breakStops_concat hcut, if_pos hc, List.length_reverse,
    List.length_cons]

theorem Counts.takeJoined (h : s.Counts) : ((s.take '\r').take '\n').openLine.Counts := by
  refine h.openLine (congrArg (· + 1 + 1) h.size) rfl ?_
  have hcut : ¬Splits s.read.reverse ['\r', '\n'] := by
    rintro ⟨_, hhead⟩
    cases hhead
  have happend : ((s.take '\r').take '\n').read.reverse = s.read.reverse ++ ['\r', '\n'] := by
    simp only [Scan.take, List.reverse_cons, List.append_assoc, List.cons_append, List.nil_append]
  rw [happend, breakStops, breakStopsFrom_append 0 hcut, breakStopsFrom_joined, Nat.zero_add,
    List.length_reverse]
  rfl

theorem Counts.stop (h : s.Counts) (error? : Option LexError) :
    s.stop error? = Stretch.counted ⟨s.read.reverse, error?⟩ := by
  rw [Scan.stop, Stretch.counted, h.newlines, h.lastLineStart]

/-- Only the character taken last matters to a cut behind it. -/
theorem cut_take {rest : List Char} (h : ¬Splits [c] rest) (s : Scan) :
    ¬Splits (s.take c).read.reverse rest := by
  rw [Scan.take, List.reverse_cons, splits_append_left (List.cons_ne_nil _ _)]
  exact h

theorem counts_start {opening : List Char} (h : Unbroken opening) : (start opening).Counts := by
  have hstops : breakStops (start opening).read.reverse = [] := by
    rw [start, List.reverse_reverse, breakStops_of_unbroken h]
  refine ⟨(List.length_reverse).symm, ?_, ?_⟩
  · rw [hstops]
    rfl
  · rw [hstops]
    rfl

end Scan

/-- The scanner comes to where the stretch ends, and has counted the lines up to there. -/
theorem scanFrom_eq {s : Scan} {seen : Nat} {text : List Char} (hquote : isBreak quote = false)
    (h : s.Counts) (hcut : ¬Splits s.read.reverse text) :
    scanFrom quote width s seen text = (bodyFrom quote width s.read seen text).counted := by
  have hslash : isBreak '\\' = false := rfl
  have hfeed : ∀ rest, ¬Splits ['\n'] rest := fun rest h => by cases h.1
  fun_induction scanFrom quote width s seen text with
  | case1 =>
    rw [bodyFrom]
    exact h.stop _
  | case2 s seen rest hseen =>
    rw [bodyFrom_closing hseen]
    exact (h.take hquote).stop none
  | case3 s seen rest hseen ih =>
    rw [bodyFrom_quote hseen]
    exact ih (h.take hquote) (Scan.cut_take (not_splits_singleton hquote rest) s)
  | case4 s seen hescape ih =>
    rw [bodyFrom_lone hescape]
    exact ih (h.take hslash) (not_splits_nil_right _)
  | case5 s seen rest hescape ih =>
    rw [bodyFrom_joined hescape]
    exact ih (h.take hslash).takeJoined (Scan.cut_take (hfeed rest) _)
  | case6 s seen d rest hd hbreak hescape ih =>
    rw [bodyFrom_escaped hescape _ _ hd]
    exact ih ((h.take hslash).takeBreak hbreak (Scan.cut_take (not_splits_singleton hslash [d]) s))
      (Scan.cut_take (not_splits_of_not_joined hd) _)
  | case7 s seen d rest hd hbreak hescape ih =>
    rw [bodyFrom_escaped hescape _ _ hd]
    exact ih ((h.take hslash).take (eq_false_of_ne_true hbreak))
      (Scan.cut_take (not_splits_of_not_joined hd) _)
  | case8 s seen hwidth rest hne hescape hbreak ih =>
    have hfeedQuote : '\n' ≠ quote := by
      rintro rfl
      cases hquote
    rw [bodyFrom_plain hne hescape (by simp [hwidth]),
      bodyFrom_plain hfeedQuote (by decide) (by simp [hwidth])]
    exact ih h.takeJoined (Scan.cut_take (hfeed rest) _)
  | case9 s seen hwidth c rest hc hne hescape hbreak ih =>
    rw [bodyFrom_plain hne hescape (by simp [hwidth])]
    have hcutBreak : ¬Splits s.read.reverse [c] := by
      rwa [← List.singleton_append, splits_append_right (List.cons_ne_nil _ _)] at hcut
    exact ih (h.takeBreak hbreak hcutBreak) (Scan.cut_take (not_splits_of_not_joined hc) s)
  | case10 s seen c rest hne hescape hbreak hwidth =>
    rw [bodyFrom_broken hne hescape (by simp [hbreak, hwidth])]
    exact h.stop _
  | case11 s seen c rest hne hescape hbreak ih =>
    rw [bodyFrom_plain hne hescape (by simp [hbreak])]
    exact ih (h.take (eq_false_of_ne_true hbreak))
      (Scan.cut_take (not_splits_singleton (eq_false_of_ne_true hbreak) rest) s)

/-- A scan never stops inside a line break. -/
theorem not_splits_of_scanFrom {s : Scan} {seen : Nat} {text rest : List Char}
    (hquote : isBreak quote = false) (hcut : ¬Splits s.read.reverse text)
    (h : s.read.reverse ++ text = (scanFrom quote width s seen text).read ++ rest) :
    ¬Splits (scanFrom quote width s seen text).read rest := by
  have hslash : isBreak '\\' = false := rfl
  have hfeed : ∀ rest, ¬Splits ['\n'] rest := fun rest h => by cases h.1
  have stops : ∀ {before text rest : List Char}, ¬Splits before text →
      before ++ text = before ++ rest → ¬Splits before rest := by
    intro before text rest hcut happend
    rwa [← List.append_cancel_left happend]
  fun_induction scanFrom quote width s seen text with
  | case1 s => exact stops hcut h
  | case2 s seen rest' hseen => exact Scan.cut_take (not_splits_singleton hquote rest) s
  | case3 s seen rest' hseen ih =>
    refine ih (Scan.cut_take (not_splits_singleton hquote rest') s) ?_
    simpa [Scan.take] using h
  | case4 s seen hescape ih =>
    refine ih (not_splits_nil_right _) ?_
    simpa [Scan.take] using h
  | case5 s seen rest' hescape ih =>
    refine ih (Scan.cut_take (hfeed rest') _) ?_
    simpa [Scan.take, Scan.openLine] using h
  | case6 s seen d rest' hd hbreak hescape ih =>
    refine ih (Scan.cut_take (not_splits_of_not_joined hd) _) ?_
    simpa [Scan.take, Scan.openLine] using h
  | case7 s seen d rest' hd hbreak hescape ih =>
    refine ih (Scan.cut_take (not_splits_of_not_joined hd) _) ?_
    simpa [Scan.take] using h
  | case8 s seen hwidth rest' hne hescape hbreak ih =>
    refine ih (Scan.cut_take (hfeed rest') _) ?_
    simpa [Scan.take, Scan.openLine] using h
  | case9 s seen hwidth c rest' hc hne hescape hbreak ih =>
    refine ih (Scan.cut_take (not_splits_of_not_joined hc) s) ?_
    simpa [Scan.take, Scan.openLine] using h
  | case10 s seen c rest' hne hescape hbreak hwidth => exact stops hcut h
  | case11 s seen c rest' hne hescape hbreak ih =>
    refine ih (Scan.cut_take (not_splits_singleton (eq_false_of_ne_true hbreak) rest') s) ?_
    simpa [Scan.take] using h

/-- The scanner takes up the stretch, and counts the lines in it. -/
theorem scan?_eq (text : List Char) : scan? text = (stretch? text).map Stretch.counted := by
  rw [scan?, stretch?, Option.map_map]
  refine Option.map_congr fun o ho => ?_
  have hopening := unbroken_opening? ho
  refine scanFrom_eq (isBreak_quote (opening?_quote ho)) (Scan.counts_start hopening) ?_
  rw [Scan.start, List.reverse_reverse]
  exact not_splits_of_unbroken hopening _

/-- No line break is cut at the end of a literal, or where one breaks off. -/
theorem not_splits_of_stretch? {text rest : List Char} {x : Stretch} (h : stretch? text = some x)
    (hrest : text = x.read ++ rest) : ¬Splits x.read rest := by
  have hscan : scan? text = some x.counted := by
    rw [scan?_eq, h]
    rfl
  obtain ⟨o, ho, hextent⟩ := Option.map_eq_some_iff.1 hscan
  have hopening := unbroken_opening? ho
  have hread : x.read = (extent o).read := by
    rw [hextent]
    rfl
  rw [hread] at hrest ⊢
  refine not_splits_of_scanFrom (isBreak_quote (opening?_quote ho)) ?_ ?_
  · rw [Scan.start, List.reverse_reverse]
    exact not_splits_of_unbroken hopening _
  · rw [Scan.start, List.reverse_reverse, ← append_of_opening? ho]
    exact hrest

end Literal

/-- To move over a literal in which the lines are counted is to advance over it. -/
theorem Cursor.overLiteral_counted (x : Literal.Stretch) (cur : Cursor) :
    cur.overLiteral x.counted = cur.advance x.read := by
  rw [overLiteral, Literal.Stretch.counted, advance_eq, skip_eq, breakEndsFrom_eq_map,
    List.length_map, List.getLastD_eq_getLast?, List.getLastD_eq_getLast?, List.getLast?_map,
    List.getLast?_map]
  cases (breakStops x.read).getLast? <;> rfl

namespace Lexer

/-- Reads a literal, and counts the lines in it. -/
def readLiteral (x : Literal.Stretch) (lx : Lexer) : Outcome × Lexer :=
  match x.error? with
  | some e => (.failed e, lx.advance x.read)
  | none => (.lexeme (lx.cursor.lexeme .literal x.read), lx.advance x.read)

theorem literal_counted (x : Literal.Stretch) (lx : Lexer) :
    lx.literal x.counted = lx.readLiteral x := by
  rw [literal, Cursor.overLiteral_counted]
  rfl

end Lexer
end Offside
