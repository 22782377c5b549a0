import Offside.Proofs.Lexer.Tokens
import Offside.Proofs.Lexer.Turns

/-!
Where `async` and `await` are keywords makes no difference to any other token. Lexers that differ
in what they know of it alone keep on doing so, and what they hand out differs in the kinds of
these two words.
-/

namespace Offside

open Text

/-- The kind of a word, be it a keyword or not. -/
def Kind.plainly : Kind → Kind
  | .async | .await => .word
  | k => k

def Lexeme.plainly (x : Lexeme) : Lexeme := { x with kind := x.kind.plainly }

def Token.plainly (t : Token) : Token := { t with kind := t.kind.plainly }

theorem Kind.plainly_eq_iff {k k' : Kind} (hword : k' ≠ .word) (hasync : k' ≠ .async)
    (hawait : k' ≠ .await) : k.plainly = k' ↔ k = k' := by
  constructor
  · intro h
    unfold plainly at h
    split at h
    · exact absurd h.symm hword
    · exact absurd h.symm hword
    · exact h
  · rintro rfl
    unfold plainly
    split
    · exact absurd rfl hasync
    · exact absurd rfl hawait
    · rfl

theorem Kind.plainly_eq_endMarker_iff {k : Kind} : k.plainly = .endMarker ↔ k = .endMarker :=
  plainly_eq_iff (by decide) (by decide) (by decide)

theorem Cursor.plainly_lexeme (kind : Kind) (read : List Char) (cur : Cursor) :
    (cur.lexeme kind read).plainly = cur.lexeme kind.plainly read := by
  unfold lexeme
  split <;> rfl

namespace Lexer

variable {lx ly lz : Lexer} {x : Lexeme} {xs : List Lexeme}

def Outcome.plainly : Outcome → Outcome
  | .lexeme x => .lexeme x.plainly
  | .nothing => .nothing
  | .failed e => .failed e

/-- What a lexer is but for what it knows of `async`. -/
def plainly (lx : Lexer) : Lexer := { lx with asyncAlways := false, asyncScope? := none }

/-- What comes of a turn but for that. -/
def plainResult (r : Outcome × Lexer) : Outcome × Lexer := (r.1.plainly, r.2.plainly)

theorem takeDue?_plainly (lx : Lexer) :
    lx.plainly.takeDue? = lx.takeDue?.map fun due => (due.1, due.2.plainly) := by
  have hdedents : lx.plainly.pendingDedents = lx.pendingDedents := rfl
  have hindent : lx.plainly.pendingIndent = lx.pendingIndent := rfl
  unfold takeDue?
  rw [hdedents, hindent]
  split
  · rfl
  · split <;> rfl

theorem leaveLine_plainly (lx : Lexer) : lx.plainly.leaveLine = lx.leaveLine.plainly := by
  have hended : lx.plainly.lineEnded = lx.lineEnded := rfl
  unfold leaveLine
  rw [hended]
  split <;> rfl

theorem leaveAsyncScope_plainly (lx : Lexer) :
    lx.plainly.leaveAsyncScope = lx.leaveAsyncScope.plainly := by
  rw [leaveAsyncScope_frame lx]
  rfl

theorem applyIndent_plainly (m : Measure) (lx : Lexer) :
    lx.plainly.applyIndent m = ((lx.applyIndent m).1, (lx.applyIndent m).2.plainly) := by
  have hindents : lx.plainly.indents = lx.indents := rfl
  unfold applyIndent
  rw [hindents]
  split
  · rfl
  · next change indents _ =>
    cases change
    all_goals
      rw [← leaveAsyncScope_plainly]
      rfl

theorem measureLine_plainly (lx : Lexer) :
    lx.plainly.measureLine = (lx.measureLine.1, lx.measureLine.2.plainly) :=
  measureLine_comm (fun _ => rfl) applyIndent_plainly rfl rfl rfl

theorem comment_plainly (lx : Lexer) : plainResult lx.plainly.comment = plainResult lx.comment := by
  have hafter : ∀ ly : Lexer, ly.plainly.afterPragma.plainly = ly.afterPragma.plainly := by
    intro ly
    have hcursor : ly.plainly.cursor = ly.cursor := rfl
    have hblank : ly.plainly.blankLine = ly.blankLine := rfl
    unfold afterPragma
    rw [hcursor, hblank]
    split
    · split <;> rfl
    · rfl
  have hcursor : lx.plainly.cursor = lx.cursor := rfl
  rw [comment_eq, comment_eq, hcursor]
  cases Pragma.tag? (lx.cursor.rest.takeWhile fun c => !isBreak c) with
  | none => rfl
  | some tag => exact congrArg (Prod.mk _) (hafter (lx.advance _))

theorem lineBreak_plainly (br : List Char) (lx : Lexer) :
    plainResult (lx.plainly.lineBreak br) = plainResult (lx.lineBreak br) := by
  have hblank : lx.plainly.blankLine = lx.blankLine := rfl
  have hnesting : lx.plainly.nesting = lx.nesting := rfl
  rw [lineBreak_eq, lineBreak_eq, hblank, hnesting]
  split <;> rfl

theorem continuation_plainly (lx : Lexer) :
    plainResult lx.plainly.continuation = plainResult lx.continuation := by
  have hadvance : lx.plainly.advance ['\\'] = (lx.advance ['\\']).plainly := rfl
  have hcursor : (lx.advance ['\\']).plainly.cursor = (lx.advance ['\\']).cursor := rfl
  unfold continuation
  dsimp only
  rw [hadvance, hcursor]
  split <;> rfl

theorem readLiteral_plainly (stretch : Literal.Stretch) (lx : Lexer) :
    plainResult (lx.plainly.readLiteral stretch) = plainResult (lx.readLiteral stretch) := by
  unfold readLiteral
  split <;> rfl

/-- The two words stay words. -/
theorem plainly_classify (kind : Kind) (read rest : List Char) (lx : Lexer) :
    (lx.classify kind read rest).1.plainly = kind.plainly := by
  have hasync : ∀ keyword : Kind, keyword.plainly = .word →
      (lx.classifyAsync keyword rest).1.plainly = .word := by
    intro keyword hkeyword
    unfold classifyAsync
    split
    · exact hkeyword
    · split
      · exact hkeyword
      · rfl
  unfold classify
  split
  · next hword =>
    rw [hasync .async rfl, hword.1]
    rfl
  · split
    · next hword =>
      rw [hasync .await rfl, hword.1]
      rfl
    · rfl

theorem plain_plainly (c : Char) (text : List Char) (lx : Lexer) :
    plainResult (lx.plainly.plain c text) = plainResult (lx.plain c text) := by
  unfold plain
  cases Plain.scan? text with
  | none => rfl
  | some found =>
    obtain ⟨kind, read, rest⟩ := found
    have hcursor : lx.plainly.cursor = lx.cursor := rfl
    have hnest : ((lx.plainly.advance read).nest kind).plainly =
        ((lx.advance read).nest kind).plainly := by
      unfold nest
      split
      · rfl
      · split <;> rfl
    have hkind := plainly_classify kind read rest
    have hframe := classify_frame kind read rest
    have hlexer : ∀ ly : Lexer, (ly.classify kind read rest).2.plainly = ly.plainly := by
      intro ly
      rw [hframe ly]
      rfl
    refine Prod.ext ?_ ((hlexer _).trans (hnest.trans (hlexer _).symm))
    show Outcome.lexeme (Lexeme.plainly _) = Outcome.lexeme (Lexeme.plainly _)
    rw [Cursor.plainly_lexeme, Cursor.plainly_lexeme, hkind, hkind, hcursor]

theorem body_plainly (lx : Lexer) : plainResult lx.plainly.body = plainResult lx.body := by
  have hskip : lx.plainly.skipLayout = lx.skipLayout.plainly := rfl
  cases hrest : lx.skipLayout.cursor.rest with
  | nil =>
    have hspent : lx.Spent := by rw [Spent, ← rest_skipLayout, hrest]
    have hspent' : lx.plainly.Spent := hspent
    rw [body_of_spent hspent, body_of_spent hspent', hskip]
    rfl
  | cons c rest =>
    have hrest' : lx.plainly.skipLayout.cursor.rest = c :: rest := hrest
    by_cases hcomment : c = '#'
    · subst hcomment
      rw [body_of_comment hrest, body_of_comment hrest']
      exact comment_plainly lx.skipLayout
    · by_cases hescape : c = '\\'
      · subst hescape
        rw [body_of_continuation hrest, body_of_continuation hrest']
        exact continuation_plainly lx.skipLayout
      · rw [body_of_code hrest hcomment hescape, body_of_code hrest' hcomment hescape, hrest,
          hrest']
        split
        · next br _ _ => exact lineBreak_plainly br lx.skipLayout
        · split
          · next stretch _ => exact readLiteral_plainly stretch lx.skipLayout
          · exact plain_plainly c _ lx.skipLayout

/-- A turn does the same but for that. -/
theorem turn_plainly (lx : Lexer) : plainResult lx.plainly.turn = plainResult lx.turn := by
  unfold turn
  rw [takeDue?_plainly]
  cases lx.takeDue? with
  | some due => rfl
  | none =>
    have hmeasure :
        (if lx.plainly.atLineStart then lx.plainly.measureLine else (none, lx.plainly)) =
        ((if lx.atLineStart then lx.measureLine else (none, lx)).1,
          (if lx.atLineStart then lx.measureLine else (none, lx)).2.plainly) := by
      have hstart : lx.plainly.atLineStart = lx.atLineStart := rfl
      rw [hstart, measureLine_plainly]
      split <;> rfl
    dsimp only [Option.map_none]
    rw [hmeasure]
    generalize (if lx.atLineStart then lx.measureLine else (none, lx)) = measured
    obtain ⟨e?, ly⟩ := measured
    cases e? with
    | some e => rfl
    | none =>
      dsimp only
      rw [takeDue?_plainly]
      cases ly.takeDue? with
      | some due => rfl
      | none => exact body_plainly ly

theorem plainResult_turn (h : lx.plainly = ly.plainly) :
    plainResult lx.turn = plainResult ly.turn := by
  rw [← turn_plainly, h, turn_plainly]

theorem turn_of_plainly {o : Outcome} (h : ly.plainly = lx.plainly) (hturn : lx.turn = (o, lz)) :
    ∃ o' lw, ly.turn = (o', lw) ∧ o'.plainly = o.plainly ∧ lw.plainly = lz.plainly := by
  have hsame := plainResult_turn h
  rw [hturn] at hsame
  obtain ⟨houtcome, hlexer⟩ := Prod.mk.inj hsame
  exact ⟨_, _, rfl, houtcome, hlexer⟩

theorem scan_of_plainly (h : ly.plainly = lx.plainly) (hscan : lx.scan = (.ok x, lz)) :
    ∃ y lw, ly.scan = (.ok y, lw) ∧ y.plainly = x.plainly ∧ lw.plainly = lz.plainly := by
  fun_induction scan lx generalizing ly with
  | case1 lx x' lz' hturn =>
    obtain ⟨hx, rfl⟩ := Prod.mk.inj hscan
    obtain rfl := Except.ok.inj hx
    obtain ⟨o, lw, hturn', houtcome, hlexer⟩ := turn_of_plainly h hturn
    cases o with
    | lexeme y => exact ⟨y, lw, scan_of_lexeme hturn', Outcome.lexeme.inj houtcome, hlexer⟩
    | nothing => cases houtcome
    | failed e => cases houtcome
  | case2 => cases hscan
  | case3 lx lz' hturn _ ih =>
    obtain ⟨o, lw, hturn', houtcome, hlexer⟩ := turn_of_plainly h hturn
    cases o with
    | lexeme y => cases houtcome
    | nothing =>
      rw [scan_of_nothing hturn']
      exact ih hlexer hscan
    | failed e => cases houtcome

theorem next_of_plainly (h : ly.plainly = lx.plainly) (hnext : lx.next = (.ok x, lz)) :
    ∃ y lw, ly.next = (.ok y, lw) ∧ y.plainly = x.plainly ∧ lw.plainly = lz.plainly := by
  have hstop : ly.stop = lx.stop := (congrArg stop h : ly.plainly.stop = lx.plainly.stop)
  have hleave : ly.leaveLine.plainly = lx.leaveLine.plainly := by
    rw [← leaveLine_plainly, h, leaveLine_plainly]
  unfold next at hnext ⊢
  rw [hstop]
  split at hnext
  · cases hnext
  · exact scan_of_plainly hleave hnext

/-- Lexers that differ in this alone hand out the same but for the two words. -/
theorem Yields.plainly (h : Yields lx xs lz) (hsame : ly.plainly = lx.plainly) :
    ∃ ys lw, Yields ly ys lw ∧ ys.map Lexeme.plainly = xs.map Lexeme.plainly ∧
      lw.plainly = lz.plainly := by
  induction h generalizing ly with
  | nil => exact ⟨[], ly, .nil ly, rfl, hsame⟩
  | cons hnext _ ih =>
    obtain ⟨y, lw, hnext', hy, hlexer⟩ := next_of_plainly hsame hnext
    obtain ⟨ys, lw', hyields, hys, hlexer'⟩ := ih hlexer
    refine ⟨y :: ys, lw', .cons hnext' hyields, ?_, hlexer'⟩
    rw [List.map_cons, List.map_cons, hy, hys]

/-- The tokens of a text, wherever `async` and `await` are keywords, and how the text ends. -/
theorem exists_tokens_plainly {asyncAlways : Bool} {s : Source} {ts : List Token}
    (h : (ofSource asyncAlways s).tokens = (.ok ts, lz)) (asyncAlways' : Bool) :
    ∃ us lw, (ofSource asyncAlways' s).tokens = (.ok us, lw) ∧
      us.map Token.plainly = ts.map Token.plainly ∧ lw.plainly = lz.plainly := by
  obtain ⟨xs, e, hyields, he, hxs, rfl⟩ := exists_yields_of_tokens h
  have hsame : (ofSource asyncAlways' s).plainly = (ofSource asyncAlways s).plainly := rfl
  obtain ⟨zs, lw, hyields', hzs, hlexer⟩ := hyields.plainly hsame
  have hsplit := hzs
  rw [List.map_append, List.map_singleton] at hsplit
  obtain ⟨ys, es, rfl, hys, hes⟩ := List.map_eq_append_iff.1 hsplit
  obtain ⟨e', rfl, he'⟩ := List.map_eq_singleton_iff.1 hes
  have hend : e'.kind = .endMarker := by
    have hkind : e'.kind.plainly = e.kind.plainly := congrArg Lexeme.kind he'
    rw [he] at hkind
    exact Kind.plainly_eq_endMarker_iff.1 hkind
  have hnone : ∀ y ∈ ys, y.kind ≠ .endMarker := by
    intro y hy hkind
    have hmem : y.plainly ∈ xs.map Lexeme.plainly := hys ▸ List.mem_map_of_mem hy
    obtain ⟨x, hx, hplainly⟩ := List.mem_map.1 hmem
    have hkind' : x.kind.plainly = y.kind.plainly := congrArg Lexeme.kind hplainly
    rw [hkind] at hkind'
    exact hxs x hx (Kind.plainly_eq_endMarker_iff.1 hkind')
  have htoken : ∀ zs : List Lexeme,
      (zs.map Lexeme.token).map Token.plainly = (zs.map Lexeme.plainly).map Lexeme.token := by
    intro zs
    rw [List.map_map, List.map_map]
    rfl
  refine ⟨_, lw, tokens_of_yields hyields' hend hnone, ?_, hlexer⟩
  rw [htoken, htoken, hzs]

theorem tokens_plainly {asyncAlways : Bool} {s : Source} {ts : List Token}
    (h : (ofSource asyncAlways s).tokens = (.ok ts, lz)) (asyncAlways' : Bool) :
    ∃ us lw, (ofSource asyncAlways' s).tokens = (.ok us, lw) ∧
      us.map Token.plainly = ts.map Token.plainly := by
  obtain ⟨us, lw, htokens, hplainly, _⟩ := exists_tokens_plainly h asyncAlways'
  exact ⟨us, lw, htokens, hplainly⟩

end Lexer
end Offside
