import Offside.Proofs.Lexer.Comments
import Offside.Proofs.Lexer.Tiling

/-!
Backslashes before the last line break. A lexer that joins a line to the next one asks for more
text if there is nothing behind the break. It looks before it skips blanks, so that with as much as
a space there the text ends like any other.
-/

namespace Offside

open Text

namespace Cursor

variable {cur cur' : Cursor} {read : List Char}

theorem Crosses.rest_ne_nil (h : Crosses read cur cur') (hrest : cur'.rest ≠ []) :
    cur.rest ≠ [] := fun hnil =>
  hrest (List.append_eq_nil_iff.1 (h.rest.symm.trans hnil)).2

end Cursor

namespace Lexer

open Cursor

variable {lx ly lz : Lexer} {x : Lexeme} {xs : List Lexeme} {before br rest blanks : List Char}

/-! ### The end marker comes last -/

theorem Yields.rest_ne_nil (h : Yields lx xs ly) (hrest : ly.leaveLine.cursor.rest ≠ []) :
    lx.leaveLine.cursor.rest ≠ [] := by
  induction h with
  | nil => exact hrest
  | cons hnext _ ih =>
    obtain ⟨read, hcrosses⟩ := (next_hands hnext).crosses
    exact hcrosses.rest_ne_nil (ih hrest)

theorem Yields.ne_endMarker (h : Yields lx xs ly) (hrest : ly.leaveLine.cursor.rest ≠ []) :
    ∀ x ∈ xs, x.kind ≠ .endMarker := by
  induction h with
  | nil => exact fun x hx => absurd hx List.not_mem_nil
  | cons hnext hyields ih =>
    refine List.forall_mem_cons.2 ⟨fun hx => ?_, ih hrest⟩
    exact hyields.rest_ne_nil hrest (rest_of_endMarker hnext hx)

theorem Yields.drain_snd (h : Yields lx xs ly) (hxs : ∀ x ∈ xs, x.kind ≠ .endMarker) :
    lx.drain.2 = ly.drain.2 := by
  induction h with
  | nil => rfl
  | cons hnext _ ih =>
    obtain ⟨hx, hxs⟩ := List.forall_mem_cons.1 hxs
    rw [drain_of_token hnext hx, ih hxs]

theorem Skips.passes (h : Skips lx ly) (hline : lx.lineEnded = false) : Passes lx.cursor ly := by
  induction h with
  | nil lx => exact ⟨[], .nil, .refl _, hline⟩
  | cons hturn _ ih =>
    have hreads := turn_readsOver hline
    rw [hturn] at hreads
    cases hreads with
    | nothing hpasses =>
      obtain ⟨gap, hgap, hcrosses, hline'⟩ := hpasses
      obtain ⟨gap', hgap', hcrosses', hline''⟩ := ih hline'
      exact ⟨gap ++ gap', hgap.append hgap', hcrosses.trans hcrosses', hline''⟩

theorem TakesTurn.lineEnded_eq (h : TakesTurn lx ly) : ly.lineEnded = false := by
  obtain ⟨xs, lz, -, -, hskips⟩ := h
  obtain ⟨-, -, -, hline⟩ := hskips.passes (lineEnded_leaveLine lz)
  exact hline

/-- How a lexer ends is told by the turn that it takes at any place with text behind it. -/
theorem TakesTurn.drain_snd (h : TakesTurn lx ly) (hrest : ly.cursor.rest ≠ []) :
    ∃ lz : Lexer, lx.drain.2 = lz.drain.2 ∧ lz.next = ly.scan := by
  obtain ⟨xs, lz, hyields, hlive, hskips⟩ := h
  obtain ⟨gap, -, hcrosses, -⟩ := hskips.passes (lineEnded_leaveLine lz)
  have hrest' := hcrosses.rest_ne_nil hrest
  refine ⟨lz, hyields.drain_snd (hyields.ne_endMarker hrest'), ?_⟩
  rw [next_of_not_failed hlive, hskips.scan]

theorem TakesTurn.tokens_of_failed {e : LexError} (h : TakesTurn lx ly)
    (hrest : ly.cursor.rest ≠ []) (hturn : ly.turn = (.failed e, lz)) :
    lx.tokens.1 = .error e ∧ lx.tokens.2 = lz.fail e := by
  obtain ⟨lw, hdrain, hnext⟩ := h.drain_snd hrest
  rw [scan_of_failed hturn] at hnext
  have hlast : lx.drain.2 = (some e, lz.fail e) := by
    rw [hdrain, drain, drainFrom_of_error hnext]
  rw [tokens_eq_error_iff, tokens_snd, hlast]
  exact ⟨rfl, rfl⟩

theorem TakesTurn.tokens_of_end (h : TakesTurn lx ly) (hrest : ly.cursor.rest ≠ [])
    (hscan : ly.scan = (.ok x, lz)) (hx : x.kind = .endMarker) :
    ∃ ts, lx.tokens.1 = .ok ts ∧ lx.tokens.2 = lz := by
  obtain ⟨lw, hdrain, hnext⟩ := h.drain_snd hrest
  rw [hscan] at hnext
  have hlast : lx.drain.2 = (none, lz) := by
    rw [hdrain, drain, drainFrom_of_end hnext hx]
  cases htokens : lx.tokens.1 with
  | error e =>
    rw [tokens_eq_error_iff, hlast] at htokens
    cases htokens
  | ok ts => exact ⟨ts, rfl, by rw [tokens_snd, hlast]⟩

/-! ### Places where a lexer reads on -/

theorem Settles.turn (howes : lx.OwesNothing) (h : lx.Settles ly) (howes' : ly.OwesNothing) :
    lx.turn = ly.body := by
  rcases h with ⟨hstart, hmeasure⟩ | ⟨hstart, rfl⟩
  · rw [turn_of_measure howes hstart, hmeasure]
    dsimp only
    rw [takeDue?_eq_none_iff.2 howes']
  · exact turn_of_body howes hstart

/-- From one lexer on, what stands before a place is read without an error, and what is read next
starts at that place. -/
structure ComesTo (lx : Lexer) (before : List Char) (lz : Lexer) : Prop where
  turn : ∃ ly lw, TakesTurn lx ly ∧ ly.OwesNothing ∧ ly.Settles lw ∧ lw.OwesNothing ∧
    lz = lw.skipLayout
  placed : Placed lx.text before lz.cursor

/-- Within a line of code, what comes next is behind the blanks there. -/
theorem comesTo_of_yields (h : Yields lx xs ly) (hlive : ∀ e, ly.stop ≠ .failed e)
    (hline : ly.lineEnded = false) (howes : ly.OwesNothing) (hstart : ly.atLineStart = false)
    (hplaced : Placed lx.text before ly.skipLayout.cursor) : ComesTo lx before ly.skipLayout := by
  refine ⟨⟨ly, ly, ⟨xs, ly, h, hlive, ?_⟩, howes, Or.inr ⟨hstart, rfl⟩, howes, rfl⟩, hplaced⟩
  rw [leaveLine_of_same_line hline]
  exact .nil ly

theorem ComesTo.rest_eq (h : ComesTo lx before lz) (htext : lx.text = before ++ rest) :
    lz.cursor.rest = rest :=
  List.append_cancel_left (h.placed.text_eq.symm.trans htext)

/-- A backslash that is reached is read in one turn. -/
theorem ComesTo.continuation (h : ComesTo lx before lz)
    (htext : lx.text = before ++ '\\' :: rest) :
    ∃ ly, TakesTurn lx ly ∧ ly.cursor.rest ≠ [] ∧ ly.turn = lz.continuation ∧
      lz.OwesNothing ∧ lz.atLineStart = false := by
  have hrest := h.rest_eq htext
  obtain ⟨ly, lw, htakes, howes, hsettles, howes', rfl⟩ := h.turn
  obtain ⟨gap, -, hcrosses, -⟩ := hsettles.passes htakes.lineEnded_eq
  have hne : lw.skipLayout.cursor.rest ≠ [] := hrest ▸ List.cons_ne_nil _ _
  have hne' := hcrosses.rest_ne_nil ((crosses_skipLayout lw).rest_ne_nil hne)
  refine ⟨ly, htakes, hne', ?_, howes', hsettles.measured⟩
  rw [hsettles.turn howes howes', body_of_continuation hrest]

theorem lineBreak?_of_whole (hbr : br = ['\r', '\n'] ∨ br = ['\r'] ∨ br = ['\n'])
    (h : ¬Splits br rest) : lineBreak? (br ++ rest) = some (br, rest) := by
  rcases hbr with rfl | rfl | rfl
  · rfl
  · cases rest with
    | nil => rfl
    | cons c rest =>
      have hc : c ≠ '\n' := fun heq => h ⟨rfl, by rw [heq, List.head?_cons]⟩
      rw [List.singleton_append, lineBreak?]
      rintro rest' heq
      exact hc (List.cons.inj heq).1
  · rfl

/-- With nothing behind the break there is nothing to join the line to. -/
theorem continuation_of_nothing (hbr : br = ['\r', '\n'] ∨ br = ['\r'] ∨ br = ['\n'])
    (hrest : lx.cursor.rest = '\\' :: br) :
    lx.continuation = (.failed .endOfFile, (lx.advance ['\\']).advance br) := by
  have hbreak := lineBreak?_of_whole hbr (not_splits_nil_right br)
  rw [List.append_nil] at hbreak
  have hrest' : (lx.advance ['\\']).cursor.rest = br := rest_advance_of_append hrest
  unfold continuation
  dsimp only
  rw [hrest', hbreak]

theorem continuation_of_some (hbr : br = ['\r', '\n'] ∨ br = ['\r'] ∨ br = ['\n'])
    (hwhole : ¬Splits br rest) (hne : rest ≠ []) (hrest : lx.cursor.rest = '\\' :: (br ++ rest)) :
    lx.continuation = (.nothing, (lx.advance ['\\']).advance br) := by
  have hrest' : (lx.advance ['\\']).cursor.rest = br ++ rest := rest_advance_of_append hrest
  obtain ⟨c, rest, rfl⟩ := List.exists_cons_of_ne_nil hne
  unfold continuation
  dsimp only
  rw [hrest', lineBreak?_of_whole hbr hwhole]

theorem ComesTo.tokens_of_nothing (h : ComesTo lx before lz)
    (hbr : br = ['\r', '\n'] ∨ br = ['\r'] ∨ br = ['\n'])
    (htext : lx.text = before ++ '\\' :: br) :
    lx.tokens.1 = .error .endOfFile ∧ lx.tokens.2.stop = .exhausted := by
  obtain ⟨ly, htakes, hne, hturn, -, -⟩ := h.continuation htext
  rw [continuation_of_nothing hbr (h.rest_eq htext)] at hturn
  obtain ⟨herror, hstop⟩ := htakes.tokens_of_failed hne hturn
  exact ⟨herror, by rw [hstop]; rfl⟩

theorem ComesTo.tokens_of_blanks (h : ComesTo lx before lz)
    (hbr : br = ['\r', '\n'] ∨ br = ['\r'] ∨ br = ['\n'])
    (hblanks : ∀ c ∈ blanks, isLayout c = true) (hsome : blanks ≠ [])
    (htext : lx.text = before ++ '\\' :: (br ++ blanks)) :
    ∃ ts, lx.tokens.1 = .ok ts ∧ lx.tokens.2.stop = stopAt lz.nesting := by
  have hrest := h.rest_eq htext
  obtain ⟨ly, htakes, hne, hturn, howes, hstart⟩ := h.continuation htext
  have hwhole : ¬Splits br blanks := by
    rintro ⟨-, hhead⟩
    exact absurd (hblanks _ (List.mem_of_head? hhead)) (by decide)
  rw [continuation_of_some hbr hwhole hsome hrest] at hturn
  have hrest' : (lz.advance ['\\']).cursor.rest = br ++ blanks := rest_advance_of_append hrest
  have hspent : ((lz.advance ['\\']).advance br).Spent := by
    rw [Spent, rest_advance_of_append hrest', List.dropWhile_eq_nil_iff]
    exact hblanks
  have howes' : ((lz.advance ['\\']).advance br).OwesNothing := howes
  have hend : ((lz.advance ['\\']).advance br).turn =
      ((lz.advance ['\\']).advance br).skipLayout.endOfInput := by
    rw [turn_of_body howes' hstart, body_of_spent hspent]
  have hscan := (scan_of_nothing hturn).trans (scan_of_lexeme hend)
  obtain ⟨ts, hts, hstop⟩ := htakes.tokens_of_end hne hscan rfl
  exact ⟨ts, hts, by rw [hstop]; rfl⟩

/-- A text that ends in a joined line asks for more if and only if there is nothing at all behind
the last line break. With blanks there it ends with an end marker, and stops as a text stops that
leaves so many brackets open. -/
theorem tokens_of_continuation {asyncAlways : Bool} {s : Source}
    (hbr : br = ['\r', '\n'] ∨ br = ['\r'] ∨ br = ['\n'])
    (hblanks : ∀ c ∈ blanks, isLayout c = true)
    (htext : s.text = before ++ '\\' :: (br ++ blanks))
    (h : ComesTo (ofSource asyncAlways s) before lz) :
    ((ofSource asyncAlways s).tokens.1 = .error .endOfFile ∧
        (ofSource asyncAlways s).tokens.2.stop = .exhausted ↔ blanks = []) ∧
      (blanks ≠ [] → ∃ ts, (ofSource asyncAlways s).tokens.1 = .ok ts ∧
        (ofSource asyncAlways s).tokens.2.stop = stopAt lz.nesting) := by
  have hends := fun hsome => h.tokens_of_blanks hbr hblanks hsome htext
  refine ⟨⟨fun hfailed => ?_, ?_⟩, hends⟩
  · by_contra hsome
    obtain ⟨ts, hts, -⟩ := hends hsome
    rw [hts] at hfailed
    cases hfailed.1
  · rintro rfl
    rw [List.append_nil] at htext
    exact h.tokens_of_nothing hbr htext

/-- A call is left open, with a form feed behind the break: no error, but more text is needed. -/
theorem tokens_of_continuation_open :
    ∃ ts, (ofSource false ⟨['f', '(', '\\', '\r', '\n', '\x0c'], none⟩).tokens.1 = .ok ts ∧
      (ofSource false ⟨['f', '(', '\\', '\r', '\n', '\x0c'], none⟩).tokens.2.stop = stopAt 1 := by
  let s : Source := ⟨['f', '(', '\\', '\r', '\n', '\x0c'], none⟩
  let lx := ofSource false s
  have hword : lx.next = (.ok ⟨.word, some ⟨0, 1⟩, "f", 1, 0⟩, lx.next.2) :=
    Prod.ext (by decide +kernel) rfl
  have hopen : lx.next.2.next = (.ok ⟨.lpar, some ⟨1, 2⟩, "(", 1, 0⟩, lx.next.2.next.2) :=
    Prod.ext (by decide +kernel) rfl
  have hrunning : lx.next.2.next.2.stop = .running := by decide +kernel
  have hnesting : lx.next.2.next.2.skipLayout.nesting = 1 := by decide +kernel
  have hcomes : ComesTo lx ['f', '('] lx.next.2.next.2.skipLayout :=
    comesTo_of_yields (.cons hword (.cons hopen (.nil _))) (by simp [hrunning])
      (by decide +kernel) ⟨by decide +kernel, by decide +kernel⟩ (by decide +kernel)
      ⟨by decide +kernel, not_splits_of_unbroken (by decide) _, by decide +kernel,
        by decide +kernel, by decide +kernel⟩
  have hblanks : ∀ c ∈ ['\x0c'], isLayout c = true := List.forall_mem_singleton.2 rfl
  have htext : s.text = ['f', '('] ++ '\\' :: (['\r', '\n'] ++ ['\x0c']) := rfl
  have hends := (tokens_of_continuation (Or.inl rfl) hblanks htext hcomes).2 (by decide)
  rwa [hnesting] at hends

/-- A space behind the break is enough for an end of the text without an error. -/
theorem tokens_of_continuation_space :
    (∃ lz, ComesTo (ofSource false ⟨['x', '\\', '\n', ' '], none⟩) ['x'] lz) ∧
      ¬((ofSource false ⟨['x', '\\', '\n', ' '], none⟩).tokens.1 = .error .endOfFile ∧
        (ofSource false ⟨['x', '\\', '\n', ' '], none⟩).tokens.2.stop = .exhausted) := by
  let lx := ofSource false ⟨['x', '\\', '\n', ' '], none⟩
  have hword : lx.next = (.ok ⟨.word, some ⟨0, 1⟩, "x", 1, 0⟩, lx.next.2) :=
    Prod.ext (by decide +kernel) rfl
  have hrunning : lx.next.2.stop = .running := by decide +kernel
  have hcomes : ComesTo lx ['x'] lx.next.2.skipLayout :=
    comesTo_of_yields (.cons hword (.nil _)) (by simp [hrunning])
      (by decide +kernel) ⟨by decide +kernel, by decide +kernel⟩ (by decide +kernel)
      ⟨by decide +kernel, not_splits_of_unbroken (by decide) _, by decide +kernel,
        by decide +kernel, by decide +kernel⟩
  exact ⟨⟨_, hcomes⟩, by decide +kernel⟩

end Lexer
end Offside
