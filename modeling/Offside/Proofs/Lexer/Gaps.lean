import Offside.Proofs.Lexer.Cursors
import Offside.Proofs.Lexer.Tokens
import Offside.Proofs.Lexer.Turns

/-!
Gaps. Between two tokens a lexer crosses nothing but blanks, line breaks, backslashes that join
lines, and comments. The main statement tells of every lexeme that is handed out what gap the
cursor has crossed before it, what text it takes up, and what gap may come along with it.
-/

namespace Offside

open Text Cursor

/-- What may stand between tokens. -/
inductive Gap : List Char → Prop
  | nil : Gap []
  | blank {c : Char} {rest : List Char} (hc : isLayout c = true) (h : Gap rest) : Gap (c :: rest)
  | lineBreak {br rest : List Char} (hbr : br = ['\r', '\n'] ∨ br = ['\r'] ∨ br = ['\n'])
      (h : Gap rest) : Gap (br ++ rest)
  | joined {br rest : List Char} (hbr : br = ['\r', '\n'] ∨ br = ['\r'] ∨ br = ['\n'])
      (h : Gap rest) : Gap ('\\' :: br ++ rest)
  | comment {body rest : List Char} (hbody : Unbroken body) (h : Gap rest) :
      Gap ('#' :: body ++ rest)

namespace Gap

theorem append {a b : List Char} (ha : Gap a) (hb : Gap b) : Gap (a ++ b) := by
  induction ha with
  | nil => exact hb
  | blank hc _ ih => exact .blank hc ih
  | lineBreak hbr _ ih =>
    rw [List.append_assoc]
    exact .lineBreak hbr ih
  | joined hbr _ ih =>
    rw [List.append_assoc]
    exact .joined hbr ih
  | comment hbody _ ih =>
    rw [List.append_assoc]
    exact .comment hbody ih

theorem blanks (text : List Char) : Gap (text.takeWhile isLayout) := by
  induction text with
  | nil => exact .nil
  | cons c text ih =>
    rw [List.takeWhile_cons]
    split
    · next hc => exact .blank hc ih
    · exact .nil

theorem of_lineBreak? {text br rest : List Char} (h : lineBreak? text = some (br, rest)) :
    Gap br := by
  have hgap := lineBreak (lineBreak?_eq_some h).2.2 nil
  rwa [List.append_nil] at hgap

theorem of_unbroken {body : List Char} (hhash : body.head? = some '#') (h : Unbroken body) :
    Gap body := by
  obtain ⟨rest, rfl⟩ := List.head?_eq_some_iff.1 hhash
  have hgap := comment (unbroken_cons.1 h).2 nil
  rwa [List.append_nil] at hgap

theorem head_of_cons {c : Char} {rest : List Char} (h : Gap (c :: rest)) :
    isLayout c = true ∨ isBreak c = true ∨ c = '\\' ∨ c = '#' := by
  generalize htext : c :: rest = text at h
  cases h with
  | nil => cases htext
  | blank hc =>
    obtain ⟨rfl, -⟩ := List.cons.inj htext
    exact Or.inl hc
  | lineBreak hbr =>
    rcases hbr with rfl | rfl | rfl
    all_goals
      obtain ⟨rfl, -⟩ := List.cons.inj htext
      exact Or.inr (Or.inl rfl)
  | joined =>
    obtain ⟨rfl, -⟩ := List.cons.inj htext
    exact Or.inr (Or.inr (Or.inl rfl))
  | comment =>
    obtain ⟨rfl, -⟩ := List.cons.inj htext
    exact Or.inr (Or.inr (Or.inr rfl))

/-- A line feed is behind a piece of a gap, or it ends the piece. -/
theorem eq_or_exists_of_append {piece rest before after : List Char}
    (hpiece : '\n' ∉ piece.dropLast) (h : piece ++ rest = before ++ '\n' :: after) :
    rest = after ∨ ∃ before', rest = before' ++ '\n' :: after := by
  rcases List.append_eq_append_iff.1 h with ⟨before', -, hrest⟩ | ⟨more, hmore, hafter⟩
  · exact Or.inr ⟨before', hrest⟩
  · cases more with
    | nil => exact Or.inr ⟨[], hafter.symm⟩
    | cons c more =>
      obtain ⟨rfl, rfl⟩ := List.cons.inj hafter
      cases more with
      | nil => exact Or.inl rfl
      | cons d more =>
        rw [hmore, List.dropLast_append_cons, List.dropLast_cons_cons] at hpiece
        exact absurd (List.mem_append_right _ List.mem_cons_self) hpiece

/-- Nothing but a line break holds a line feed, so what is behind one is a gap again. -/
theorem behind_feed {before after : List Char} (h : Gap (before ++ '\n' :: after)) : Gap after := by
  have step : ∀ {piece rest before : List Char}, '\n' ∉ piece.dropLast → Gap rest →
      (∀ before', before' ++ '\n' :: after = rest → Gap after) →
      before ++ '\n' :: after = piece ++ rest → Gap after := by
    intro piece rest before hpiece hrest ih htext
    rcases eq_or_exists_of_append hpiece htext.symm with rfl | ⟨before', hbefore⟩
    · exact hrest
    · exact ih before' hbefore.symm
  generalize htext : before ++ '\n' :: after = text at h
  induction h generalizing before with
  | nil => exact absurd htext (List.append_ne_nil_of_right_ne_nil _ (List.cons_ne_nil _ _))
  | @blank c rest hc h ih =>
    have htext' : before ++ '\n' :: after = [c] ++ rest := htext
    exact step List.not_mem_nil h (fun _ => ih) htext'
  | lineBreak hbr h ih =>
    refine step ?_ h (fun _ => ih) htext
    rcases hbr with rfl | rfl | rfl <;> decide
  | joined hbr h ih =>
    refine step ?_ h (fun _ => ih) htext
    rcases hbr with rfl | rfl | rfl <;> decide
  | @comment body rest hbody h ih =>
    refine step (fun hmem => ?_) h (fun _ => ih) htext
    have hunbroken : Unbroken ('#' :: body) := unbroken_cons.2 ⟨by decide, hbody⟩
    exact absurd (hunbroken '\n' (List.dropLast_subset _ hmem)) (by decide)

end Gap

/-- What stands before a pragma's tag is a gap, and tells that the comment is a pragma. -/
def EndsInPragma (gap : List Char) : Prop :=
  ∃ before front, Gap before ∧ Pragma.IsFront front ∧ gap = before ++ front

namespace Lexer

variable {lx ly : Lexer} {cur cur' : Cursor} {x : Lexeme} {o : Outcome}

/-- Kinds of lexemes that take up no text. -/
def IsBare (k : Kind) : Prop := k = .indent ∨ k = .dedent ∨ k = .endMarker

/-- A lexeme is handed out, and what was read for it: from a cursor on a gap, then the text of the
lexeme, and then a gap that comes along. Only the tag of a pragma may stand at the end of the text,
and the line of a newline token is not left yet. -/
inductive Hands (cur : Cursor) (ly : Lexer) : Lexeme → Prop
  | bare {kind : Kind} {gap : List Char} (hkind : IsBare kind) (hgap : Gap gap)
      (hcrosses : Crosses gap cur ly.cursor) (hline : ly.lineEnded = false)
      (hend : kind = .endMarker → ly.cursor.rest = []) : Hands cur ly (ly.cursor.bare kind)
  | token {kind : Kind} {gap read tail : List Char} {at' behind : Cursor} (hkind : ¬IsBare kind)
      (hgap : Gap gap) (hpragma : kind = .typeIgnore → EndsInPragma gap)
      (hcrosses : Crosses gap cur at') (hread : Crosses read at' behind) (htail : Gap tail)
      (htail' : Crosses tail behind ly.leaveLine.cursor)
      (hahead : kind ≠ .typeIgnore → at'.rest ≠ [])
      (hended : ly.lineEnded = true →
        ly.cursor.line = at'.line ∧ ly.cursor.lineStart = at'.lineStart) :
      Hands cur ly (at'.lexeme kind read)

theorem Hands.after_gap {gap : List Char} (hgap : Gap gap) (hcrosses : Crosses gap cur cur')
    (h : Hands cur' ly x) : Hands cur ly x := by
  cases h with
  | bare hkind hgap' hcrosses' hline hend =>
    exact .bare hkind (hgap.append hgap') (hcrosses.trans hcrosses') hline hend
  | @token kind gap' read tail at' behind hkind hgap' hpragma hcrosses' hread htail htail' hahead
      hended =>
    refine .token hkind (hgap.append hgap') ?_ (hcrosses.trans hcrosses') hread htail htail' hahead
      hended
    intro hignore
    obtain ⟨before, front, hbefore, hfront, rfl⟩ := hpragma hignore
    exact ⟨gap ++ before, front, hgap.append hbefore, hfront, (List.append_assoc _ _ _).symm⟩

theorem leaveLine_of_same_line (h : lx.lineEnded = false) : lx.leaveLine = lx := by
  rw [leaveLine, h, if_neg Bool.false_ne_true]

/-- With what comes along a lexeme, all the text is crossed up to where the lexer goes on. -/
theorem Hands.crosses (h : Hands cur ly x) : ∃ read, Crosses read cur ly.leaveLine.cursor := by
  cases h with
  | bare _ _ hcrosses hline =>
    rw [leaveLine_of_same_line hline]
    exact ⟨_, hcrosses⟩
  | token _ _ _ hcrosses hread _ htail => exact ⟨_, (hcrosses.trans hread).trans htail⟩

theorem crosses_skipLayout (lx : Lexer) :
    Crosses (lx.cursor.rest.takeWhile isLayout) lx.cursor lx.skipLayout.cursor := by
  have hrest : lx.cursor.rest =
      lx.cursor.rest.takeWhile isLayout ++ lx.cursor.rest.dropWhile isLayout :=
    List.takeWhile_append_dropWhile.symm
  exact crosses_advance hrest
    (not_splits_of_unbroken (unbroken_takeWhile (by decide) (by decide) _) _)

/-- Nothing is handed out, and a gap was read. -/
def Passes (cur : Cursor) (ly : Lexer) : Prop :=
  ∃ gap, Gap gap ∧ Crosses gap cur ly.cursor ∧ ly.lineEnded = false

/-- What a lexer makes of the text is a gap, or a lexeme behind a gap. -/
inductive ReadsOver (cur : Cursor) : Outcome × Lexer → Prop
  | lexeme {x : Lexeme} {ly : Lexer} (h : Hands cur ly x) : ReadsOver cur (.lexeme x, ly)
  | nothing {ly : Lexer} (h : Passes cur ly) : ReadsOver cur (.nothing, ly)
  | failed {e : LexError} {ly : Lexer} : ReadsOver cur (.failed e, ly)

theorem ReadsOver.after_gap {gap : List Char} (hgap : Gap gap) (hcrosses : Crosses gap cur cur')
    {r : Outcome × Lexer} (h : ReadsOver cur' r) : ReadsOver cur r := by
  cases h with
  | lexeme h => exact .lexeme (h.after_gap hgap hcrosses)
  | nothing h =>
    obtain ⟨gap', hgap', hcrosses', hline⟩ := h
    exact .nothing ⟨gap ++ gap', hgap.append hgap', hcrosses.trans hcrosses', hline⟩
  | failed => exact .failed

/-- A token that ends no line. -/
theorem hands_token {kind : Kind} {read rest : List Char} (hkind : ¬IsBare kind)
    (hpragma : kind ≠ .typeIgnore) (hahead : cur.rest ≠ []) (hread : cur.rest = read ++ rest)
    (hwhole : ¬Splits read rest) (hcursor : ly.cursor = cur.advance read)
    (hline : ly.lineEnded = false) : Hands cur ly (cur.lexeme kind read) := by
  refine .token hkind .nil (fun h => absurd h hpragma) (.refl cur) (crosses_advance hread hwhole)
    .nil ?_ (fun _ => hahead) ?_
  · rw [leaveLine_of_same_line hline, hcursor]
    exact .refl _
  · rw [hline]
    exact fun hended => absurd hended Bool.false_ne_true

theorem crosses_lineBreak {br rest : List Char} (h : lineBreak? cur.rest = some (br, rest)) :
    Crosses br cur (cur.advance br) :=
  crosses_advance (lineBreak?_eq_some h).1 (lineBreak?_eq_some h).2.1

/-- A pragma's comment is behind, and a line break comes along if the line holds nothing else. -/
theorem exists_tail_of_afterPragma (hline : lx.lineEnded = false) :
    lx.afterPragma.lineEnded = false ∧
      ∃ tail, Gap tail ∧ Crosses tail lx.cursor lx.afterPragma.leaveLine.cursor := by
  unfold afterPragma
  split
  · next br rest hbreak =>
    split
    · have hline' : (lx.readBreak br).lineEnded = false := hline
      rw [leaveLine_of_same_line hline']
      exact ⟨hline', br, .of_lineBreak? hbreak, crosses_lineBreak hbreak⟩
    · rw [leaveLine_of_same_line hline]
      exact ⟨hline, [], .nil, .refl _⟩
  · rw [leaveLine_of_same_line hline]
    exact ⟨hline, [], .nil, .refl _⟩

theorem Piece.readsOver (hline : lx.lineEnded = false) {r : Outcome × Lexer} (h : Piece lx r) :
    ReadsOver lx.cursor r := by
  cases h with
  | ended hrest =>
    refine .lexeme (.bare (Or.inr (Or.inr rfl)) .nil (.refl _) hline fun _ => hrest)
  | @comment body rest hrest hbody _ =>
    refine .nothing ⟨body, .of_unbroken hbody.hash hbody.unbroken, ?_, hline⟩
    exact crosses_advance hrest (not_splits_of_unbroken hbody.unbroken rest)
  | @pragma front tag rest hrest hbody hfront =>
    obtain ⟨hunbroken, hunbroken'⟩ := unbroken_append.1 hbody.unbroken
    rw [List.append_assoc] at hrest
    have hbefore : Crosses front lx.cursor (lx.cursor.advance front) :=
      crosses_advance hrest (not_splits_of_unbroken hunbroken _)
    have hskip : lx.cursor.skip front = lx.cursor.advance front :=
      (advance_of_unbroken hunbroken _).symm
    have hrest' : (lx.cursor.advance front).rest = tag ++ rest := by
      have := hbefore.rest
      rw [hrest] at this
      exact (List.append_cancel_left this).symm
    have htag : Crosses tag (lx.cursor.advance front) (lx.advance (front ++ tag)).cursor := by
      have hwhole : ¬Splits front tag := not_splits_of_unbroken hunbroken _
      show Crosses tag _ (lx.cursor.advance (front ++ tag))
      rw [advance_append hwhole]
      exact crosses_advance hrest' (not_splits_of_unbroken hunbroken' rest)
    have hline' : (lx.advance (front ++ tag)).lineEnded = false := hline
    obtain ⟨hafter, tail, htail, htail'⟩ := exists_tail_of_afterPragma hline'
    obtain ⟨blanks, blanks', hblanks, rfl⟩ := id hfront
    rw [hskip]
    refine .lexeme (.token ?_ ?_ (fun _ => ⟨[], _, .nil, hfront, rfl⟩) hbefore htag htail htail'
      (fun hkind => absurd rfl hkind) ?_)
    · rintro (h | h | h) <;> cases h
    · exact .of_unbroken rfl hunbroken
    · rw [hafter]
      exact fun hended => absurd hended Bool.false_ne_true
  | @blankBreak br rest hbreak _ =>
    exact .nothing ⟨br, .of_lineBreak? hbreak, crosses_lineBreak hbreak, hline⟩
  | @newline br rest hbreak _ _ =>
    refine .lexeme (.token ?_ .nil (fun h => by cases h) (.refl _) (.refl _)
      (.of_lineBreak? hbreak) ?_ ?_ ?_)
    · rintro (h | h | h) <;> cases h
    · have hleave : (lx.endCode br).leaveLine.cursor = lx.cursor.advance br := openLine_skip hbreak
      rw [hleave]
      exact crosses_lineBreak hbreak
    · intro _ hnil
      rw [hnil] at hbreak
      cases hbreak
    · intro _
      have hcursor : (lx.endCode br).cursor = lx.cursor.skip br := rfl
      rw [hcursor, skip_eq]
      exact ⟨rfl, rfl⟩
  | @joined br rest c hrest hbreak =>
    have hslash : Crosses ['\\'] lx.cursor (lx.cursor.advance ['\\']) :=
      crosses_advance hrest (not_splits_of_unbroken (by decide) _)
    have hrest' : (lx.cursor.advance ['\\']).rest = br ++ c :: rest := by
      have hsplit : '\\' :: br ++ c :: rest = ['\\'] ++ (lx.cursor.advance ['\\']).rest :=
        hrest.symm.trans hslash.rest
      exact (List.cons.inj hsplit).2.symm
    have hbr : Crosses br (lx.cursor.advance ['\\']) ((lx.cursor.advance ['\\']).advance br) :=
      crosses_lineBreak (hrest'.symm ▸ hbreak)
    have hgap := Gap.joined (lineBreak?_eq_some hbreak).2.2 .nil
    rw [List.append_nil] at hgap
    exact .nothing ⟨'\\' :: br, hgap, hslash.trans hbr, hline⟩
  | brokenOff => exact .failed
  | stray => exact .failed
  | @literal read rest hrest hscan =>
    refine .lexeme (hands_token ?_ (by decide) ?_ hrest ?_ rfl hline)
    · rintro (h | h | h) <;> cases h
    · obtain ⟨c, more, hcons, -⟩ := Literal.exists_head_of_stretch? hscan
      rw [hcons]
      exact List.cons_ne_nil _ _
    · exact Literal.not_splits_of_stretch? hscan hrest
  | unended => exact .failed
  | @plain kind kind' read rest ly hrest hscan hclassify =>
    obtain ⟨hplain, hunbroken⟩ := Plain.plain_of_scan? hscan
    have hplain' : kind'.isPlain = true := by
      have := isPlain_classify hplain read rest ((lx.advance read).nest kind)
      rwa [hclassify] at this
    have hframe := plain_frame hclassify
    refine .lexeme (hands_token ?_ ?_ ?_ hrest (not_splits_of_unbroken hunbroken rest) ?_ ?_)
    · rintro (rfl | rfl | rfl) <;> cases hplain'
    · rintro rfl
      cases hplain'
    · obtain ⟨c, more, hcons, -⟩ := Plain.exists_head_of_scan? hscan
      rw [hcons]
      exact List.cons_ne_nil _ _
    · rw [hframe]
      rfl
    · rw [hframe]
      exact hline
  | bad => exact .failed

/-- An indent or a dedent that is due takes up no text. -/
theorem takeDue?_hands (hline : lx.lineEnded = false) (h : lx.takeDue? = some (x, ly)) :
    Hands lx.cursor ly x := by
  unfold takeDue? at h
  split at h
  · obtain ⟨rfl, rfl⟩ := Prod.mk.inj (Option.some.inj h)
    exact .bare (Or.inr (Or.inl rfl)) .nil (.refl _) hline fun hend => by cases hend
  · split at h
    · obtain ⟨rfl, rfl⟩ := Prod.mk.inj (Option.some.inj h)
      exact .bare (Or.inl rfl) .nil (.refl _) hline fun hend => by cases hend
    · cases h

/-- Measuring a line, where one starts, crosses the blanks it starts with. -/
theorem Settles.passes (hline : lx.lineEnded = false) (h : lx.Settles ly) :
    Passes lx.cursor ly := by
  rcases h with ⟨_, hmeasure⟩ | ⟨_, rfl⟩
  · have hframe := measureLine_frame lx
    rw [hmeasure] at hframe
    dsimp only at hframe
    refine ⟨_, .blanks lx.cursor.rest, ?_, ?_⟩
    · rw [hframe]
      exact crosses_skipLayout lx
    · rw [hframe]
      exact hline
  · exact ⟨[], .nil, .refl _, hline⟩

theorem turn_readsOver (hline : lx.lineEnded = false) : ReadsOver lx.cursor lx.turn := by
  have hturned := turned lx
  generalize lx.turn = r at hturned
  cases hturned with
  | due h => exact .lexeme (takeDue?_hands hline h)
  | misplaced => exact .failed
  | indented _ hsettles h =>
    obtain ⟨gap, hgap, hcrosses, hline'⟩ := hsettles.passes hline
    exact .lexeme ((takeDue?_hands hline' h).after_gap hgap hcrosses)
  | @read ly _ _ hsettles _ h =>
    obtain ⟨gap, hgap, hcrosses, hline'⟩ := hsettles.passes hline
    have hline'' : ly.skipLayout.lineEnded = false := hline'
    have hover := (h.readsOver hline'').after_gap (.blanks _) (crosses_skipLayout ly)
    exact hover.after_gap hgap hcrosses

theorem Passes.turn (h : Passes cur lx) : ReadsOver cur lx.turn := by
  obtain ⟨gap, hgap, hcrosses, hline⟩ := h
  exact (turn_readsOver hline).after_gap hgap hcrosses

theorem lineEnded_leaveLine (lx : Lexer) : lx.leaveLine.lineEnded = false := by
  unfold leaveLine
  split
  · rfl
  · next h => exact eq_false_of_ne_true h

/-- The turn that gives the next lexeme stands behind a gap. -/
theorem exists_passes_of_next (h : lx.next = (.ok x, ly)) :
    ∃ lz, Passes lx.leaveLine.cursor lz ∧ lz.turn = (.lexeme x, ly) := by
  have hkeeps : ∀ {ly lz : Lexer}, Passes lx.leaveLine.cursor ly → ly.turn = (.nothing, lz) →
      Passes lx.leaveLine.cursor lz := by
    intro ly lz hpasses hturn
    have hreads := hpasses.turn
    rw [hturn] at hreads
    cases hreads with
    | nothing hpasses => exact hpasses
  exact exists_turn_of_next h ⟨[], .nil, .refl _, lineEnded_leaveLine lx⟩ hkeeps

/-- What is read for the next lexeme. -/
theorem next_hands (h : lx.next = (.ok x, ly)) : Hands lx.leaveLine.cursor ly x := by
  obtain ⟨lz, hpasses, hturn⟩ := exists_passes_of_next h
  have hreads := hpasses.turn
  rw [hturn] at hreads
  cases hreads with
  | lexeme hhands => exact hhands

/-- Behind an end marker there is nothing. -/
theorem rest_of_endMarker (h : lx.next = (.ok x, ly)) (hx : x.kind = .endMarker) :
    ly.leaveLine.cursor.rest = [] := by
  cases next_hands h with
  | bare _ _ _ hline hend =>
    rw [leaveLine_of_same_line hline]
    exact hend hx
  | @token kind _ read _ at' _ hkind =>
    rw [kind_lexeme] at hx
    exact absurd (Or.inr (Or.inr hx)) hkind

/-- The end marker leaves a lexer on the last line. -/
theorem leaveLine_of_endMarker (h : lx.next = (.ok x, ly)) (hx : x.kind = .endMarker) :
    ly.leaveLine = ly := by
  cases next_hands h with
  | bare _ _ _ hline => exact leaveLine_of_same_line hline
  | @token kind _ read _ at' _ hkind =>
    rw [kind_lexeme] at hx
    exact absurd (Or.inr (Or.inr hx)) hkind

end Lexer
end Offside
