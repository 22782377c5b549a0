import Mathlib.Data.List.DropRight
import Offside.Proofs.Lexer.Balance
import Offside.Proofs.Lexer.Idle

/-!
Layout in step with the tokens. Lines count outside brackets only, and a block is opened or closed
where a line of code starts: behind a newline token, or before any token. What a lexer keeps of
this, in its brackets, lines and dues, is tied here to the lexemes that it has handed out.
-/

namespace Offside

open Text

/-- Brackets that are open behind a token, if `depth` are open before it. -/
def Kind.nest (k : Kind) (depth : Nat) : Nat :=
  if Plain.opens k then depth + 1 else if Plain.closes k then depth - 1 else depth

/-- Kinds of tokens that may stand before the code of a line. -/
def Kind.isMarginal (k : Kind) : Bool := k == .typeIgnore || k == .indent || k == .dedent

/-- A block is opened only where there is room for it. -/
theorem Indents.depth_lt_of_deeper {m : Measure} {s s' : Indents}
    (h : s.apply m = (.ok .deeper, s')) : s'.depth < maxLevels := by
  unfold apply at h
  grind [depth]

namespace Lexer

variable {lx ly : Lexer} {x : Lexeme} {xs ys : List Lexeme}

/-- Brackets that lexemes leave open. -/
def openBrackets (xs : List Lexeme) : Nat :=
  (xs.map Lexeme.kind).foldl (fun depth kind => kind.nest depth) 0

/-- Whether a line of code may start behind these lexemes: the last of them that says anything
about lines ends one. -/
def StartsLine (xs : List Lexeme) : Prop :=
  ∀ y ∈ (xs.filter fun x => !x.kind.isMarginal).getLast?, y.kind = .newline

theorem openBrackets_concat (xs : List Lexeme) (x : Lexeme) :
    openBrackets (xs ++ [x]) = x.kind.nest (openBrackets xs) := by
  rw [openBrackets, List.map_append, List.foldl_append]
  rfl

theorem startsLine_nil : StartsLine [] := fun _ h => by cases h

theorem StartsLine.concat (h : StartsLine xs) (hx : x.kind.isMarginal = true) :
    StartsLine (xs ++ [x]) := by
  have hfilter : [x].filter (fun x => !x.kind.isMarginal) = [] := by
    rw [List.filter_cons, hx, List.filter_nil]
    rfl
  rw [StartsLine, List.filter_append, hfilter, List.append_nil]
  exact h

theorem startsLine_newline (xs : List Lexeme) (hx : x.kind = .newline) :
    StartsLine (xs ++ [x]) := by
  have hfilter : [x].filter (fun x => !x.kind.isMarginal) = [x] := by
    rw [List.filter_cons, hx, List.filter_nil]
    rfl
  rw [StartsLine, List.filter_append, hfilter, List.getLast?_concat]
  rintro y ⟨⟩
  exact hx

/-- The layout of a lexer that has handed out `xs`. -/
structure InStep (xs : List Lexeme) (lx : Lexer) : Prop where
  nesting : lx.nesting = openBrackets xs
  bounded : lx.indents.depth + lx.pendingDedents < Indents.maxLevels
  opened : lx.pendingIndent = true → 0 < lx.indents.depth
  due : ¬lx.OwesNothing → lx.nesting = 0 ∧ StartsLine xs
  line : lx.atLineStart = true → lx.nesting = 0 → StartsLine xs
  /-- A line is blank only as long as no code of it has been met. -/
  blank : lx.blankLine = true → lx.atLineStart = false →
    ∀ c ∈ (lx.cursor.rest.dropWhile isLayout).head?,
      (c = '#' ∨ isBreak c = true) ∧ (lx.nesting = 0 → StartsLine xs)

/-- What a lexeme asks of those before it. -/
structure Obeys (xs : List Lexeme) (x : Lexeme) : Prop where
  unbracketed : x.kind = .newline ∨ x.kind = .indent ∨ x.kind = .dedent → openBrackets xs = 0
  startsLine : x.kind = .indent ∨ x.kind = .dedent → StartsLine xs

/-- A turn hands out a lexeme that obeys those before it, and stays in step. -/
inductive Keeps (xs : List Lexeme) : Outcome × Lexer → Prop
  | lexeme {x : Lexeme} {ly : Lexer} (hx : Obeys xs x) (h : InStep (xs ++ [x]) ly) :
      Keeps xs (.lexeme x, ly)
  | nothing {ly : Lexer} (h : InStep xs ly) : Keeps xs (.nothing, ly)
  | failed {e : LexError} {ly : Lexer} : Keeps xs (.failed e, ly)

theorem inStep_ofSource (asyncAlways : Bool) (s : Source) : InStep [] (ofSource asyncAlways s) where
  nesting := rfl
  bounded := (by decide : 0 < Indents.maxLevels)
  opened := fun h => by cases h
  due := fun h => absurd ⟨rfl, rfl⟩ h
  line := fun _ _ => startsLine_nil
  blank := fun h => by cases h

/-- A lexeme that is no matter of layout obeys any others. -/
theorem obeys_of_ne (xs : List Lexeme) (hnewline : x.kind ≠ .newline) (hindent : x.kind ≠ .indent)
    (hdedent : x.kind ≠ .dedent) : Obeys xs x where
  unbracketed := by
    rintro (h | h | h)
    · exact absurd h hnewline
    · exact absurd h hindent
    · exact absurd h hdedent
  startsLine := by
    rintro (h | h)
    · exact absurd h hindent
    · exact absurd h hdedent

theorem obeys_lexeme (xs : List Lexeme) {kind : Kind}
    (hkind : kind ≠ .newline ∧ kind ≠ .indent ∧ kind ≠ .dedent) (read : List Char)
    (cur : Cursor) : Obeys xs (cur.lexeme kind read) := by
  obtain ⟨hnewline, hindent, hdedent⟩ := hkind
  apply obeys_of_ne
  all_goals rwa [Cursor.kind_lexeme]

/-- An indent or a dedent that is due comes where a line starts. -/
theorem InStep.takeDue? (h : InStep xs lx) (hdue : lx.takeDue? = some (x, ly)) :
    Obeys xs x ∧ InStep (xs ++ [x]) ly := by
  have howes : ¬lx.OwesNothing := fun hnone => by
    rw [takeDue?_eq_none_iff.2 hnone] at hdue
    cases hdue
  obtain ⟨hnesting, hline⟩ := h.due howes
  have hopen : openBrackets xs = 0 := h.nesting ▸ hnesting
  have hobeys : Obeys xs x := ⟨fun _ => hopen, fun _ => hline⟩
  unfold Lexer.takeDue? at hdue
  split at hdue
  · obtain ⟨rfl, rfl⟩ := Prod.mk.inj (Option.some.inj hdue)
    have hline' := hline.concat (x := lx.cursor.bare .dedent) rfl
    refine ⟨hobeys, ?_, ?_, h.opened, fun _ => ⟨hnesting, hline'⟩, fun _ _ => hline', ?_⟩
    · rw [openBrackets_concat]
      exact h.nesting
    · show lx.indents.depth + (lx.pendingDedents - 1) < _
      have := h.bounded
      omega
    · intro hblank hstart c hc
      exact ⟨(h.blank hblank hstart c hc).1, fun _ => hline'⟩
  · split at hdue
    · obtain ⟨rfl, rfl⟩ := Prod.mk.inj (Option.some.inj hdue)
      have hline' := hline.concat (x := lx.cursor.bare .indent) rfl
      refine ⟨hobeys, ?_, h.bounded, ?_, fun _ => ⟨hnesting, hline'⟩, fun _ _ => hline', ?_⟩
      · rw [openBrackets_concat]
        exact h.nesting
      · intro hindent
        cases hindent
      · intro hblank hstart c hc
        exact ⟨(h.blank hblank hstart c hc).1, fun _ => hline'⟩
    · cases hdue

theorem dropWhile_skipLayout (lx : Lexer) :
    lx.skipLayout.cursor.rest.dropWhile isLayout = lx.skipLayout.cursor.rest := by
  rw [rest_skipLayout, List.dropWhile_idempotent]

/-- A line that holds no code leaves the layout alone. -/
theorem InStep.startLine {blank : Bool} (h : InStep xs lx) (hdue : lx.OwesNothing)
    (hblank : blank = true → ∀ c ∈ (lx.skipLayout.cursor.rest).head?,
      (c = '#' ∨ isBreak c = true) ∧ (lx.nesting = 0 → StartsLine xs)) :
    InStep xs (lx.startLine blank) where
  nesting := h.nesting
  bounded := h.bounded
  opened := h.opened
  due := fun howes => absurd hdue howes
  line := fun hstart => by cases hstart
  blank := by
    intro hblank' _ c hc
    have hrest : (lx.startLine blank).cursor.rest = lx.skipLayout.cursor.rest := rfl
    rw [hrest, dropWhile_skipLayout] at hc
    exact hblank hblank' c hc

/-- Comparing a line of code with the blocks makes indents or dedents due. -/
theorem InStep.applyIndent {m : Measure} (h : InStep xs lx) (hdue : lx.OwesNothing)
    (hnesting : lx.nesting = 0) (hline : StartsLine xs) (happly : lx.applyIndent m = (none, ly)) :
    InStep xs ly := by
  have hframe := applyIndent_frame m lx
  rw [happly] at hframe
  dsimp only at hframe
  have hlevels : ly.indents.depth + ly.pendingDedents < Indents.maxLevels ∧
      (ly.pendingIndent = true → 0 < ly.indents.depth) := by
    have hbounded := h.bounded
    have ⟨hdedents, hindent⟩ := hdue
    unfold Lexer.applyIndent at happly
    split at happly
    · cases happly
    · next change indents heq =>
      obtain ⟨_, rfl⟩ := Prod.mk.inj happly
      rw [leaveAsyncScope_frame]
      cases change with
      | same =>
        obtain rfl := Indents.apply_same heq
        exact ⟨hbounded, h.opened⟩
      | deeper =>
        obtain ⟨hdepth, _⟩ := Indents.apply_deeper heq
        have hroom := Indents.depth_lt_of_deeper heq
        refine ⟨?_, fun _ => ?_⟩
        · show indents.depth + lx.pendingDedents < _
          omega
        · show 0 < indents.depth
          omega
      | shallower n =>
        have hdepth := Indents.apply_shallower heq
        refine ⟨?_, fun hopened => ?_⟩
        · show indents.depth + n < _
          omega
        · have hopened' : lx.pendingIndent = true := hopened
          rw [hindent] at hopened'
          cases hopened'
  have hsame : ly.nesting = lx.nesting ∧ ly.atLineStart = lx.atLineStart ∧
      ly.blankLine = lx.blankLine ∧ ly.cursor = lx.cursor := by
    rw [hframe]
    exact ⟨rfl, rfl, rfl, rfl⟩
  obtain ⟨hnest, hstart, hblank, hcursor⟩ := hsame
  refine ⟨hnest.trans h.nesting, hlevels.1, hlevels.2, fun _ => ⟨hnest.trans hnesting, hline⟩,
    fun _ _ => hline, ?_⟩
  rw [hblank, hstart, hcursor, hnest]
  exact h.blank

theorem InStep.measureLine (h : InStep xs lx) (hdue : lx.OwesNothing)
    (hstart : lx.atLineStart = true) (hmeasure : lx.measureLine = (none, ly)) : InStep xs ly := by
  cases hrest : lx.skipLayout.cursor.rest with
  | nil =>
    have hspent : lx.Spent := by rw [Spent, ← rest_skipLayout, hrest]
    have hstep : InStep xs (lx.startLine false) := h.startLine hdue fun hblank => by cases hblank
    rw [measureLine_of_spent hspent] at hmeasure
    split at hmeasure
    · obtain ⟨_, rfl⟩ := Prod.mk.inj hmeasure
      exact hstep
    · next hnesting =>
      have hnesting : lx.nesting = 0 := Nat.eq_zero_of_not_pos hnesting
      exact hstep.applyIndent hdue hnesting (h.line hstart hnesting) hmeasure
  | cons c rest =>
    have hstep : InStep xs (lx.startLine (c == '#' || isBreak c)) := by
      refine h.startLine hdue fun hblank d hd => ?_
      rw [hrest] at hd
      obtain rfl := Option.some.inj hd
      exact ⟨by simpa using hblank, h.line hstart⟩
    rw [measureLine_of_code hrest] at hmeasure
    split at hmeasure
    · obtain ⟨_, rfl⟩ := Prod.mk.inj hmeasure
      exact hstep
    · next hcode =>
      have hnesting : lx.nesting = 0 := by
        rw [Bool.or_eq_true, not_or, decide_eq_true_eq] at hcode
        exact Nat.eq_zero_of_not_pos hcode.2
      exact hstep.applyIndent hdue hnesting (h.line hstart hnesting) hmeasure

theorem InStep.settles (h : InStep xs lx) (hdue : lx.OwesNothing) (hsettles : lx.Settles ly) :
    InStep xs ly := by
  rcases hsettles with ⟨hstart, hmeasure⟩ | ⟨_, rfl⟩
  · exact h.measureLine hdue hstart hmeasure
  · exact h

/-- At a line without code, what is read next tells so. -/
theorem InStep.blank_of_rest {c : Char} {rest : List Char} (h : InStep xs lx)
    (hstart : lx.atLineStart = false) (hblank : lx.blankLine = true)
    (hrest : lx.skipLayout.cursor.rest = c :: rest) :
    (c = '#' ∨ isBreak c = true) ∧ (lx.nesting = 0 → StartsLine xs) := by
  refine h.blank hblank hstart c ?_
  rw [← rest_skipLayout, hrest]
  rfl

/-- Where nothing is due, a turn that opens and closes no block keeps in step. -/
theorem InStep.reads (h : InStep xs lx) (hdue : lx.OwesNothing)
    (hlayout : ly.indents = lx.indents ∧ ly.pendingDedents = lx.pendingDedents ∧
      ly.pendingIndent = lx.pendingIndent)
    (hnesting : ly.nesting = openBrackets ys)
    (hline : ly.atLineStart = true → ly.nesting = 0 → StartsLine ys)
    (hblank : ly.blankLine = true → ly.atLineStart = false →
      ∀ c ∈ (ly.cursor.rest.dropWhile isLayout).head?,
        (c = '#' ∨ isBreak c = true) ∧ (ly.nesting = 0 → StartsLine ys)) :
    InStep ys ly := by
  obtain ⟨hindents, hdedents, hindent⟩ := hlayout
  refine ⟨hnesting, ?_, ?_, fun howes => absurd ?_ howes, hline, hblank⟩
  · rw [hindents, hdedents]
    exact h.bounded
  · rw [hindents, hindent]
    exact h.opened
  · rw [OwesNothing, hdedents, hindent]
    exact hdue

/-- A lexer counts the brackets of plain tokens by their kinds. -/
theorem nesting_nest (kind : Kind) (lx : Lexer) :
    (lx.nest kind).nesting = kind.nest lx.nesting := by
  unfold Lexer.nest Kind.nest
  split
  · rfl
  · split <;> rfl

/-- Words for `async` and `await` are no brackets. -/
theorem nest_classify (kind : Kind) (read rest : List Char) (lx : Lexer) (depth : Nat) :
    (lx.classify kind read rest).1.nest depth = kind.nest depth := by
  have hasync : ∀ keyword, keyword = .async ∨ keyword = .await →
      (lx.classifyAsync keyword rest).1.nest depth = depth := by
    intro keyword hkeyword
    have hflat : keyword.nest depth = depth := by rcases hkeyword with rfl | rfl <;> rfl
    unfold classifyAsync
    split
    · exact hflat
    · split
      · exact hflat
      · rfl
  unfold classify
  split
  · next hword =>
    rw [hasync _ (Or.inl rfl), hword.1]
    rfl
  · split
    · next hword =>
      rw [hasync _ (Or.inr rfl), hword.1]
      rfl
    · rfl

theorem nesting_of_plain {kind kind' : Kind} {read rest : List Char}
    (h : ((lx.advance read).nest kind).classify kind read rest = (kind', ly)) :
    ly.nesting = kind'.nest lx.nesting := by
  have hkind := nest_classify kind read rest ((lx.advance read).nest kind) lx.nesting
  have hframe := classify_frame kind read rest ((lx.advance read).nest kind)
  rw [h] at hkind hframe
  dsimp only at hkind hframe
  rw [hkind, hframe]
  exact nesting_nest kind (lx.advance read)

/-- What is left of a comment's line holds no code. -/
theorem IsComment.rest_shows {body rest : List Char} (h : IsComment body rest) :
    ∀ c ∈ (rest.dropWhile isLayout).head?, isBreak c = true := by
  intro c hc
  cases rest with
  | nil => cases hc
  | cons d rest =>
    have hbreak := h.ends d rfl
    have hlayout : isLayout d = false := by
      cases hlayout : isLayout d with
      | false => rfl
      | true =>
        rw [not_isBreak_of_isLayout hlayout] at hbreak
        cases hbreak
    rw [List.dropWhile_cons_of_neg (by rw [hlayout]; decide)] at hc
    obtain rfl := Option.some.inj hc
    exact hbreak

/-- A line is not blank where code of it is read. -/
theorem InStep.not_blank {c : Char} {rest : List Char} (h : InStep xs lx)
    (hmeasured : lx.atLineStart = false) (hrest : lx.skipLayout.cursor.rest = c :: rest)
    (hcode : c ≠ '#' ∧ isBreak c = false) : lx.blankLine = false := by
  rw [← Bool.not_eq_true]
  intro hblank
  rcases (h.blank_of_rest hmeasured hblank hrest).1 with hhash | hbreak
  · exact hcode.1 hhash
  · rw [hcode.2] at hbreak
    cases hbreak

/-- Code may change the brackets, and no other layout. -/
theorem InStep.reads_code (h : InStep xs lx) (hdue : lx.OwesNothing)
    (hmeasured : lx.atLineStart = false) (hcode : lx.blankLine = false)
    (hlayout : ly.indents = lx.indents ∧ ly.pendingDedents = lx.pendingDedents ∧
      ly.pendingIndent = lx.pendingIndent)
    (hline : ly.atLineStart = lx.atLineStart ∧ ly.blankLine = lx.blankLine)
    (hnesting : ly.nesting = openBrackets ys) : InStep ys ly := by
  refine h.reads hdue hlayout hnesting (fun hstart => ?_) fun hblank => ?_
  · rw [hline.1, hmeasured] at hstart
    cases hstart
  · rw [hline.2, hcode] at hblank
    cases hblank

/-- A line break that ends no line of code leads to a line's start. -/
theorem InStep.readBreak (h : InStep xs lx) (hdue : lx.OwesNothing) (br : List Char)
    (hnesting : lx.nesting = openBrackets ys) (hline : lx.nesting = 0 → StartsLine ys) :
    InStep ys (lx.readBreak br) := by
  refine h.reads hdue ⟨rfl, rfl, rfl⟩ hnesting (fun _ => hline) fun _ hstart => ?_
  cases hstart

/-- Behind a comment there is the end of its line. -/
theorem InStep.comment {body rest : List Char} (h : InStep xs lx) (hdue : lx.OwesNothing)
    (hmeasured : lx.atLineStart = false) (hrest : lx.cursor.rest = body ++ rest)
    (hbody : IsComment body rest) (hnesting : lx.nesting = openBrackets ys)
    (hline : lx.blankLine = true → lx.nesting = 0 → StartsLine ys) :
    InStep ys (lx.advance body) := by
  refine h.reads hdue ⟨rfl, rfl, rfl⟩ hnesting (fun hstart => ?_) fun hblank _ c hc => ?_
  · have hstart' : lx.atLineStart = true := hstart
    rw [hmeasured] at hstart'
    cases hstart'
  · rw [rest_advance_of_append hrest] at hc
    exact ⟨Or.inr (hbody.rest_shows c hc), hline hblank⟩

/-- A pragma that takes its line break along leads to a line's start, too. -/
theorem InStep.afterPragma (h : InStep xs lx) (hdue : lx.OwesNothing)
    (hline : lx.blankLine = true → lx.nesting = 0 → StartsLine xs) : InStep xs lx.afterPragma := by
  unfold Lexer.afterPragma
  split
  · split
    · next hblank => exact h.readBreak hdue _ h.nesting (hline hblank)
    · exact h
  · exact h

theorem InStep.skipLayout (h : InStep xs lx) : InStep xs lx.skipLayout := by
  refine ⟨h.nesting, h.bounded, h.opened, h.due, h.line, fun hblank hstart c hc => ?_⟩
  rw [dropWhile_skipLayout, rest_skipLayout] at hc
  exact h.blank hblank hstart c hc

/-- A pragma is no part of its line's code. -/
theorem InStep.pragma {c : Char} {front tag tail rest : List Char} (h : InStep xs lx)
    (hdue : lx.OwesNothing) (hmeasured : lx.atLineStart = false)
    (hcons : lx.skipLayout.cursor.rest = c :: tail)
    (hrest : lx.skipLayout.cursor.rest = (front ++ tag) ++ rest)
    (hbody : IsComment (front ++ tag) rest) :
    InStep (xs ++ [(lx.skipLayout.cursor.skip front).lexeme .typeIgnore tag])
      (lx.skipLayout.advance (front ++ tag)).afterPragma := by
  have hnesting : lx.skipLayout.nesting =
      openBrackets (xs ++ [(lx.skipLayout.cursor.skip front).lexeme .typeIgnore tag]) := by
    rw [openBrackets_concat, Cursor.kind_lexeme]
    exact h.nesting
  have hline : lx.blankLine = true → lx.nesting = 0 →
      StartsLine (xs ++ [(lx.skipLayout.cursor.skip front).lexeme .typeIgnore tag]) := by
    intro hblank hnesting
    apply ((h.blank_of_rest hmeasured hblank hcons).2 hnesting).concat
    rw [Cursor.kind_lexeme]
    rfl
  have hafter := h.skipLayout.comment hdue hmeasured hrest hbody hnesting hline
  exact hafter.afterPragma hdue hline

/-- A plain token may change the brackets, and no other layout. -/
theorem InStep.plain {kind kind' : Kind} {read rest : List Char} (h : InStep xs lx)
    (hdue : lx.OwesNothing) (hmeasured : lx.atLineStart = false) (hcode : lx.blankLine = false)
    (hclassify : ((lx.skipLayout.advance read).nest kind).classify kind read rest = (kind', ly)) :
    InStep (xs ++ [lx.skipLayout.cursor.lexeme kind' read]) ly := by
  have hframe := plain_frame hclassify
  have hlayout : ly.indents = lx.indents ∧ ly.pendingDedents = lx.pendingDedents ∧
      ly.pendingIndent = lx.pendingIndent := by
    rw [hframe]
    exact ⟨rfl, rfl, rfl⟩
  have hline : ly.atLineStart = lx.atLineStart ∧ ly.blankLine = lx.blankLine := by
    rw [hframe]
    exact ⟨rfl, rfl⟩
  apply h.skipLayout.reads_code hdue hmeasured hcode hlayout hline
  rw [openBrackets_concat, Cursor.kind_lexeme, nesting_of_plain hclassify]
  exact congrArg _ h.nesting

theorem ne_layout_of_isPlain {k : Kind} (h : k.isPlain = true) :
    k ≠ .newline ∧ k ≠ .indent ∧ k ≠ .dedent := by
  refine ⟨?_, ?_, ?_⟩
  all_goals
    rintro rfl
    cases h

/-- What is read of a line keeps in step. -/
theorem Piece.keeps (h : InStep xs lx) (hdue : lx.OwesNothing) (hmeasured : lx.atLineStart = false)
    {r : Outcome × Lexer} (hpiece : Piece lx.skipLayout r) : Keeps xs r := by
  have hskip := h.skipLayout
  cases hpiece with
  | ended hrest =>
    have hobeys : Obeys xs (lx.skipLayout.cursor.bare .endMarker) := by
      apply obeys_of_ne
      all_goals exact Kind.noConfusion
    refine .lexeme hobeys (hskip.reads hdue ⟨rfl, rfl, rfl⟩ ?_ ?_ ?_)
    · rw [openBrackets_concat]
      exact h.nesting
    · intro hstart
      have hstart' : lx.atLineStart = true := hstart
      rw [hmeasured] at hstart'
      cases hstart'
    · intro _ _ c hc
      have hc' : c ∈ (lx.skipLayout.cursor.rest.dropWhile isLayout).head? := hc
      rw [hrest] at hc'
      cases hc'
  | @comment body rest hrest hbody _ =>
    refine .nothing (hskip.comment hdue hmeasured hrest hbody h.nesting fun hblank => ?_)
    obtain ⟨tail, rfl⟩ := List.head?_eq_some_iff.1 hbody.hash
    exact (h.blank_of_rest hmeasured hblank hrest).2
  | @pragma front tag rest hrest hbody _ =>
    obtain ⟨tail, htail⟩ := List.head?_eq_some_iff.1 hbody.hash
    have hcons : lx.skipLayout.cursor.rest = '#' :: (tail ++ rest) := by
      rw [hrest, htail]
      rfl
    exact .lexeme (obeys_lexeme xs (by decide) _ _) (h.pragma hdue hmeasured hcons hrest hbody)
  | @blankBreak br rest hbreak hblank =>
    refine .nothing (hskip.readBreak hdue br h.nesting fun hnesting => ?_)
    rcases hblank with hblank | hopen
    · cases hrest : lx.skipLayout.cursor.rest with
      | nil =>
        rw [hrest] at hbreak
        cases hbreak
      | cons c tail => exact (h.blank_of_rest hmeasured hblank hrest).2 hnesting
    · exact absurd hnesting (Nat.ne_of_gt hopen)
  | @newline br rest hbreak hcode hnesting =>
    have hopen : openBrackets xs = 0 := h.nesting ▸ hnesting
    have hkind : (lx.skipLayout.cursor.lexeme .newline []).kind = .newline :=
      Cursor.kind_lexeme _ _ _
    have hobeys : Obeys xs (lx.skipLayout.cursor.lexeme .newline []) := by
      refine ⟨fun _ => hopen, ?_⟩
      rw [hkind]
      rintro (h | h) <;> cases h
    refine .lexeme hobeys (hskip.reads hdue ⟨rfl, rfl, rfl⟩ ?_ ?_ ?_)
    · rw [openBrackets_concat, hkind]
      exact h.nesting
    · intro _ _
      exact startsLine_newline xs hkind
    · intro _ hstart
      cases hstart
  | @joined br rest c hrest _ =>
    have hcode := h.not_blank hmeasured hrest ⟨by decide, by decide⟩
    exact .nothing (hskip.reads_code hdue hmeasured hcode ⟨rfl, rfl, rfl⟩ ⟨rfl, rfl⟩ h.nesting)
  | brokenOff => exact .failed
  | stray => exact .failed
  | @literal read rest hrest hscan =>
    obtain ⟨c, tail, hcons, hhead⟩ := Literal.exists_head_of_stretch? hscan
    have hcode := h.not_blank hmeasured hcons hhead
    refine .lexeme (obeys_lexeme xs (by decide) _ _)
      (hskip.reads_code hdue hmeasured hcode ⟨rfl, rfl, rfl⟩ ⟨rfl, rfl⟩ ?_)
    rw [openBrackets_concat, Cursor.kind_lexeme]
    exact h.nesting
  | unended => exact .failed
  | @plain kind kind' read rest ly hrest hscan hclassify =>
    obtain ⟨c, tail, hcons, hhead⟩ := Plain.exists_head_of_scan? hscan
    have hcode := h.not_blank hmeasured hcons hhead
    have hplain := isPlain_classify (Plain.plain_of_scan? hscan).1 read rest
      ((lx.skipLayout.advance read).nest kind)
    rw [hclassify] at hplain
    exact .lexeme (obeys_lexeme xs (ne_layout_of_isPlain hplain) _ _)
      (h.plain hdue hmeasured hcode hclassify)
  | bad => exact .failed

theorem turn_keeps (h : InStep xs lx) : Keeps xs lx.turn := by
  have hturned := turned lx
  generalize lx.turn = r at hturned
  cases hturned with
  | due hdue =>
    obtain ⟨hobeys, hstep⟩ := h.takeDue? hdue
    exact .lexeme hobeys hstep
  | misplaced => exact .failed
  | indented hnone hsettles hdue =>
    obtain ⟨hobeys, hstep⟩ := (h.settles hnone hsettles).takeDue? hdue
    exact .lexeme hobeys hstep
  | read hnone hsettles hnone' hpiece =>
    exact hpiece.keeps (h.settles hnone hsettles) hnone' hsettles.measured

/-- A line that is left was one of code, and the next one starts there. -/
theorem InStep.leaveLine (h : InStep xs lx) : InStep xs lx.leaveLine := by
  unfold Lexer.leaveLine
  split
  · exact ⟨h.nesting, h.bounded, h.opened, h.due, h.line, h.blank⟩
  · exact h

theorem next_keeps (h : InStep xs lx) (hnext : lx.next = (.ok x, ly)) :
    Obeys xs x ∧ InStep (xs ++ [x]) ly := by
  have hkeeps : ∀ {ly lz : Lexer}, InStep xs ly → ly.turn = (.nothing, lz) → InStep xs lz := by
    intro ly lz hstep hturn
    have hkept := turn_keeps hstep
    rw [hturn] at hkept
    cases hkept with
    | nothing hstep => exact hstep
  obtain ⟨lz, hstep, hturn⟩ := exists_turn_of_next hnext h.leaveLine hkeeps
  have hkept := turn_keeps hstep
  rw [hturn] at hkept
  cases hkept with
  | lexeme hobeys hstep => exact ⟨hobeys, hstep⟩

/-- A lexer stays in step with what it hands out. -/
theorem Yields.inStep (h : Yields lx ys ly) (hstep : InStep xs lx) : InStep (xs ++ ys) ly := by
  induction h generalizing xs with
  | nil =>
    rw [List.append_nil]
    exact hstep
  | @cons lx ly lz x ys hnext _ ih =>
    have hrest := ih (next_keeps hstep hnext).2
    rwa [List.append_assoc] at hrest

/-- And all that it hands out obeys what came before. -/
theorem Yields.obeys {before after : List Lexeme} (h : Yields lx (before ++ x :: after) ly)
    (hstep : InStep xs lx) : Obeys (xs ++ before) x := by
  obtain ⟨lz, hbefore, hrest⟩ := h.append_inv
  cases hrest with
  | cons hnext _ => exact (next_keeps (hbefore.inStep hstep) hnext).1

/-- The blocks that a lexer has told of and not ended are less than it has room for. -/
theorem InStep.level (h : InStep xs lx) : 0 ≤ lx.level ∧ lx.level < Indents.maxLevels := by
  have hbounded := h.bounded
  have hopened := h.opened
  rw [Lexer.level]
  cases hindent : lx.pendingIndent with
  | false =>
    rw [Bool.toNat_false]
    omega
  | true =>
    have hdepth := hopened hindent
    rw [Bool.toNat_true]
    omega

end Lexer
end Offside
