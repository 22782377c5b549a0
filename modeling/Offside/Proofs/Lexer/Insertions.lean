import Offside.Proofs.Lexer.BeforeBreaks
import Offside.Proofs.Lexer.Comments
import Offside.Proofs.Lexer.View

/-!
A piece of text that is put in where a line starts, behind a line feed. Up to there a lexer does
not see it: no scanner looks past a line feed that it does not take up. So a lexer takes the same
turns, until it stands before the piece at the start of its line, or has passed the place in other
ways, and then it never comes to start a line there.
-/

namespace Offside

open Text

variable {piece rest ahead more more' read left br : List Char}

namespace Text

/-- A text that ends with `rest`, with a piece put in before that. -/
def insertBefore (piece rest text : List Char) : List Char :=
  text.take (text.length - rest.length) ++ (piece ++ rest)

@[simp] theorem insertBefore_append (piece ahead rest : List Char) :
    insertBefore piece rest (ahead ++ rest) = ahead ++ (piece ++ rest) := by
  rw [insertBefore, List.length_append, Nat.add_sub_cancel_right, List.take_left]

@[simp] theorem insertBefore_self (piece rest : List Char) :
    insertBefore piece rest rest = piece ++ rest := insertBefore_append piece [] rest

/-- Ends with a line feed. -/
def EndsInFeed (text : List Char) : Prop := ∃ line, text = line ++ ['\n']

theorem EndsInFeed.ne_nil (h : EndsInFeed ahead) : ahead ≠ [] := by
  obtain ⟨line, rfl⟩ := h
  exact List.append_ne_nil_of_right_ne_nil line (List.cons_ne_nil _ _)

theorem EndsInFeed.of_append {a b : List Char} (h : EndsInFeed (a ++ b)) :
    b = [] ∨ EndsInFeed b := by
  obtain ⟨line, hline⟩ := h
  rcases List.eq_nil_or_concat b with rfl | ⟨b, c, rfl⟩
  · exact Or.inl rfl
  · rw [List.concat_eq_append, ← List.append_assoc] at hline
    obtain ⟨-, hc⟩ := List.append_inj' hline rfl
    exact Or.inr ⟨b, by rw [List.concat_eq_append, hc]⟩

theorem EndsInFeed.of_cons {c : Char} (h : EndsInFeed (c :: ahead)) (hc : c ≠ '\n') :
    EndsInFeed ahead := by
  refine (h.of_append (a := [c])).resolve_left ?_
  rintro rfl
  obtain ⟨line, hline⟩ := h
  cases line with
  | nil => exact hc (List.cons.inj hline).1
  | cons d line => cases line <;> cases hline

/-- What is passed over up to some character or a line feed, and what is left up to the last line
feed. -/
theorem EndsInFeed.takeWhile {p : Char → Bool} (hp : p '\n' = false) (h : EndsInFeed ahead) :
    ∃ left, EndsInFeed left ∧ ∀ more, (ahead ++ more).takeWhile p = ahead.takeWhile p ∧
      ahead ++ more = ahead.takeWhile p ++ (left ++ more) := by
  obtain ⟨line, rfl⟩ := h
  refine ⟨line.dropWhile p ++ ['\n'], ⟨_, rfl⟩, fun more => ⟨?_, ?_⟩⟩
  · rw [List.append_assoc, List.singleton_append, takeWhile_append_cons hp,
      takeWhile_append_cons hp]
  · rw [takeWhile_append_cons hp, ← List.append_assoc, ← List.append_assoc,
      List.takeWhile_append_dropWhile]

/-- A line break before a line feed that is not part of it, or up to it. -/
theorem EndsInFeed.lineBreak?_append (h : EndsInFeed ahead) (more : List Char) :
    lineBreak? (ahead ++ more) = (lineBreak? ahead).map (Plain.thenMore more) := by
  obtain ⟨line, rfl⟩ := h
  match line with
  | [] => rfl
  | [c] =>
    by_cases hr : c = '\r'
    · subst hr
      rfl
    · by_cases hn : c = '\n'
      · subst hn
        rfl
      · simp [lineBreak?, hr, hn]
  | c :: d :: line =>
    by_cases hr : c = '\r'
    · subst hr
      by_cases hn : d = '\n'
      · subst hn
        rfl
      · simp [lineBreak?, hn, Plain.thenMore]
    · by_cases hn : c = '\n'
      · subst hn
        rfl
      · simp [lineBreak?, hr, hn]

end Text

namespace Plain

/-- A plain token before a line feed is the same whatever follows that. -/
theorem scan?_of_feed (h : EndsInFeed ahead) :
    (∀ more, scan? (ahead ++ more) = none) ∨ ∃ kind read left, EndsInFeed left ∧
      ∀ more, scan? (ahead ++ more) = some (kind, read, left ++ more) := by
  obtain ⟨line, rfl⟩ := h
  have hbefore : ∀ more, scan? (line ++ ['\n'] ++ more) =
      (scan? line).map (operatorThenMore ('\n' :: more)) := by
    intro more
    rw [List.append_assoc, List.singleton_append, scan?_before rfl]
  cases hscan : scan? line with
  | none =>
    refine Or.inl fun more => ?_
    rw [hbefore, hscan, Option.map_none]
  | some x =>
    refine Or.inr ⟨x.1, x.2.1, x.2.2 ++ ['\n'], ⟨x.2.2, rfl⟩, fun more => ?_⟩
    rw [hbefore, hscan, Option.map_some, List.append_assoc]
    rfl

end Plain

namespace Literal

variable {quote : Char} {width : Nat}

theorem length_le_of_bodyFrom (quote : Char) (width : Nat) (read : List Char) (seen : Nat)
    (text : List Char) : read.length ≤ (bodyFrom quote width read seen text).read.length := by
  obtain ⟨more, rest, hread, -⟩ := append_of_bodyFrom quote width read seen text
  rw [hread, List.length_append, List.length_reverse]
  exact Nat.le_add_right _ _

/-- A backslash is taken up with what follows it. -/
theorem length_le_of_bodyFrom_escape (h : '\\' ≠ quote) (width : Nat) (read : List Char)
    (seen : Nat) (text : List Char) :
    read.length + min 2 (text.length + 1) ≤
      (bodyFrom quote width read seen ('\\' :: text)).read.length := by
  cases text with
  | nil =>
    have hone : bodyFrom quote width read seen ['\\'] =
        bodyFrom quote width ('\\' :: read) 0 [] := by
      rw [bodyFrom.eq_def]
      simp [h]
    rw [hone]
    exact length_le_of_bodyFrom _ _ ('\\' :: read) _ _
  | cons d rest =>
    by_cases hjoined : ∃ rest', d = '\r' ∧ rest = '\n' :: rest'
    · obtain ⟨rest', rfl, rfl⟩ := hjoined
      rw [bodyFrom_joined h]
      have hle := length_le_of_bodyFrom quote width ('\n' :: '\r' :: '\\' :: read) 0 rest'
      simp only [List.length_cons] at hle ⊢
      omega
    · rw [bodyFrom_escaped h read seen fun rest' hd hrest => hjoined ⟨rest', hd, hrest⟩]
      have hle := length_le_of_bodyFrom quote width (d :: '\\' :: read) 0 rest
      simp only [List.length_cons] at hle ⊢
      omega

/-- What is read of a body that ends within a text is not changed by what follows the text. -/
theorem bodyFrom_within (read : List Char) (seen : Nat) (text : List Char)
    (h : (bodyFrom quote width read seen (text ++ more)).read.length <
      read.length + text.length) :
    bodyFrom quote width read seen (text ++ more') =
      bodyFrom quote width read seen (text ++ more) := by
  induction read, seen, text using bodyFrom.induct quote width with
  | case1 read seen =>
    have hle := length_le_of_bodyFrom quote width read seen ([] ++ more)
    exact absurd h (Nat.not_lt.2 hle)
  | case2 read seen rest hseen =>
    rw [List.cons_append, List.cons_append, bodyFrom_closing hseen, bodyFrom_closing hseen]
  | case3 read seen rest hseen ih =>
    rw [List.cons_append, bodyFrom_quote hseen] at h
    rw [List.cons_append, List.cons_append, bodyFrom_quote hseen, bodyFrom_quote hseen]
    refine ih ?_
    simp only [List.length_cons] at h ⊢
    omega
  | case4 read seen hescape =>
    have hle := length_le_of_bodyFrom_escape hescape width read seen more
    simp only [List.cons_append, List.nil_append, List.length_singleton] at h
    omega
  | case5 read seen rest hescape ih =>
    simp only [List.cons_append, bodyFrom_joined hescape] at h ⊢
    refine ih ?_
    simp only [List.length_cons] at h ⊢
    omega
  | case6 read seen d rest hd hescape ih =>
    cases rest with
    | nil =>
      have hle := length_le_of_bodyFrom_escape hescape width read seen (d :: more)
      simp only [List.cons_append, List.nil_append, List.length_cons, List.length_nil] at h hle
      omega
    | cons c rest =>
      have hd' : ∀ more rest', d = '\r' → c :: (rest ++ more) = '\n' :: rest' → False := by
        intro more rest' hreturn heq
        exact hd rest hreturn (by rw [(List.cons.inj heq).1])
      simp only [List.cons_append, bodyFrom_escaped hescape _ _ (hd' _)] at h ih ⊢
      refine ih ?_
      simp only [List.length_cons] at h ⊢
      omega
  | case7 read seen c rest hne hescape hbreak =>
    rw [List.cons_append, List.cons_append, bodyFrom_broken hne hescape hbreak,
      bodyFrom_broken hne hescape hbreak]
  | case8 read seen c rest hne hescape hbreak ih =>
    rw [List.cons_append, bodyFrom_plain hne hescape hbreak] at h
    rw [List.cons_append, List.cons_append, bodyFrom_plain hne hescape hbreak,
      bodyFrom_plain hne hescape hbreak]
    refine ih ?_
    simp only [List.length_cons] at h ⊢
    omega

theorem stretch?_eq_none_of_feed (h : EndsInFeed ahead) (hscan : stretch? (ahead ++ more) = none) :
    stretch? (ahead ++ more') = none := by
  obtain ⟨line, rfl⟩ := h
  unfold stretch? at *
  simp only [List.append_assoc, List.singleton_append, opening?_before (b := '\n') rfl,
    Option.map_eq_none_iff] at hscan ⊢
  exact hscan

/-- A literal that ends before a line feed is the same whatever follows that. -/
theorem stretch?_within (h : EndsInFeed ahead) {x : Stretch}
    (hscan : stretch? (ahead ++ more) = some x) (hx : x.read.length < ahead.length) : stretch? (ahead ++ more') = some x := by
  obtain ⟨line, rfl⟩ := h
  unfold stretch? at *
  simp only [List.append_assoc, List.singleton_append, opening?_before (b := '\n') rfl] at hscan ⊢
  cases ho : opening? line with
  | none =>
    rw [ho] at hscan
    cases hscan
  | some o =>
    rw [ho, Option.map_some, Option.map_some] at hscan
    obtain rfl := Option.some.inj hscan
    rw [Option.map_some, Option.map_some]
    refine congrArg some ?_
    have happend := congrArg List.length (append_of_opening? ho)
    have hbody : ∀ more, (o.thenMore ('\n' :: more)).rest = (o.rest ++ ['\n']) ++ more :=
      fun more => List.append_cons _ _ _
    unfold stretch at hx ⊢
    rw [hbody] at hx ⊢
    rw [hbody]
    refine bodyFrom_within _ _ _ ?_
    refine Nat.lt_of_lt_of_eq hx ?_
    simp only [List.length_append, List.length_reverse, List.length_singleton] at happend ⊢
    show _ = o.letters.length + (List.replicate o.width o.quote).length + (o.rest.length + 1)
    omega

end Literal

namespace Cursor

variable {cur : Cursor}

/-- A cursor in a text with a piece put in before `rest`. -/
def insertBefore (piece rest : List Char) (cur : Cursor) : Cursor :=
  { cur with
    rest := Text.insertBefore piece rest cur.rest
    lineText := Text.insertBefore piece rest cur.lineText }

theorem skipChar_insertBefore {c : Char} (h : cur.rest = c :: (ahead ++ rest)) (piece : List Char) :
    (cur.insertBefore piece rest).skipChar c = (cur.skipChar c).insertBefore piece rest := by
  have hdrop : (Text.insertBefore piece rest cur.rest).drop 1 =
      Text.insertBefore piece rest (cur.rest.drop 1) := by
    rw [h, ← List.cons_append, insertBefore_append, List.cons_append, List.cons_append]
    exact (insertBefore_append piece ahead rest).symm
  simp only [skipChar, insertBefore, hdrop]

theorem openLine_insertBefore (piece rest : List Char) (cur : Cursor) :
    (cur.insertBefore piece rest).openLine = cur.openLine.insertBefore piece rest := rfl

theorem skip_insertBefore (h : cur.rest = read ++ (ahead ++ rest)) (piece : List Char) :
    (cur.insertBefore piece rest).skip read = (cur.skip read).insertBefore piece rest := by
  induction read generalizing cur with
  | nil => rfl
  | cons c read ih =>
    have hchar : cur.rest = c :: ((read ++ ahead) ++ rest) := by
      rw [h, List.append_assoc, List.cons_append]
    rw [skip_cons, skip_cons, skipChar_insertBefore hchar, ih]
    rw [rest_skipChar hchar, List.append_assoc]

theorem advance_insertBefore (h : cur.rest = read ++ (ahead ++ rest)) (piece : List Char) :
    (cur.insertBefore piece rest).advance read = (cur.advance read).insertBefore piece rest := by
  induction read, cur using advance_induction with
  | nil => rfl
  | joined read cur ih =>
    have hreturn : cur.rest = '\r' :: (('\n' :: (read ++ ahead)) ++ rest) := by
      rw [h, List.cons_append, List.cons_append, List.cons_append, List.append_assoc]
    have hfeed : (cur.skipChar '\r').rest = '\n' :: ((read ++ ahead) ++ rest) :=
      rest_skipChar hreturn
    rw [advance_joined, advance_joined, skipChar_insertBefore hreturn, skipChar_insertBefore hfeed,
      openLine_insertBefore, ih]
    exact (rest_skipChar hfeed).trans (List.append_assoc _ _ _)
  | lineBreak c read cur hjoined hbreak hstep ih =>
    have hchar : cur.rest = c :: ((read ++ ahead) ++ rest) := by
      rw [h, List.append_assoc, List.cons_append]
    rw [hstep, advance_cons (not_splits_of_not_joined hjoined), if_pos hbreak,
      skipChar_insertBefore hchar, openLine_insertBefore, ih]
    exact (rest_skipChar hchar).trans (List.append_assoc _ _ _)
  | other c read cur hjoined hbreak hstep ih =>
    have hchar : cur.rest = c :: ((read ++ ahead) ++ rest) := by
      rw [h, List.append_assoc, List.cons_append]
    rw [hstep, advance_cons (not_splits_of_not_joined hjoined), hbreak, if_neg Bool.false_ne_true,
      skipChar_insertBefore hchar, ih]
    exact (rest_skipChar hchar).trans (List.append_assoc _ _ _)

end Cursor
end Offside
