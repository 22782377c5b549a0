import Offside.Proofs.Lexer.AsyncWords
import Offside.Proofs.Lexer.Tiling

/-!
The kinds of `async` and `await`. Where they are keywords everywhere, a token with one of these
texts has the keyword's kind, and where they are not, it has that kind or the one of a word; no
other token that kept its text has either kind. Whether a text can be read to its end, and why not,
has nothing to do with it.
-/

namespace Offside

open Text

/-- The words that may be keywords, and the kinds that they have then. -/
inductive Keyword : Kind → String → Prop
  | async : Keyword .async "async"
  | await : Keyword .await "await"

variable {keyword kind kind' : Kind} {word : String} {read rest text : List Char}

namespace Keyword

theorem spelling?_eq_none (h : Keyword keyword word) : keyword.spelling? = none := by
  cases h
  all_goals rfl

theorem not_isBare (h : Keyword keyword word) : ¬Lexer.IsBare keyword := by
  cases h
  all_goals rintro (h | h | h) <;> cases h

theorem ne_empty (h : Keyword keyword word) : word ≠ "" := by
  cases h
  all_goals decide

theorem exists_head (h : Keyword keyword word) : ∃ c more, word.toList = c :: more ∧
    Plain.isWordStart c = true ∧ Pragma.continuesWord c = true := by
  cases h with
  | async => exact ⟨'a', "sync".toList, by decide, by decide, by decide⟩
  | await => exact ⟨'a', "wait".toList, by decide, by decide, by decide⟩

theorem quote_not_last (h : Keyword keyword word) {c : Char} (hc : word.toList.getLast? = some c) :
    Literal.isQuote c = false := by
  cases h with
  | async =>
    obtain rfl : 'c' = c := Option.some.inj hc
    decide
  | await =>
    obtain rfl : 't' = c := Option.some.inj hc
    decide

end Keyword

namespace Plain

/-- Scanning looks for a word first. -/
theorem kind_of_scan? {c : Char} (h : scan? (c :: text) = some (kind, read, rest))
    (hc : isWordStart c = true) : kind = .word := by
  have hword : word? (c :: text) =
      some ((c :: text).takeWhile isWordChar, (c :: text).dropWhile isWordChar) := if_pos hc
  rw [scan?, hword] at h
  cases h
  rfl

/-- No kind of a keyword comes from scanning. -/
theorem not_keyword_of_scan? (h : scan? text = some (kind, read, rest)) :
    ¬Keyword kind word := by
  have hoperator : ∀ {n : Nat} {x : Kind × List Char × List Char}, operatorOf? n text = some x →
      ¬Keyword x.1 word := by
    intro n x hx hkeyword
    obtain ⟨k, hk, rfl⟩ := Option.map_eq_some_iff.1 hx
    unfold Kind.ofSpelling? at hk
    split at hk
    · cases hk
      cases hkeyword
    · have hfound := List.find?_some hk
      have hspelling : k.spelling? = _ := eq_of_beq hfound
      rw [hkeyword.spelling?_eq_none] at hspelling
      cases hspelling
  simp only [scan?, operator?, Option.orElse_eq_orElse, Option.orElse_eq_or,
    Option.or_eq_some_iff, Option.map_eq_some_iff] at h
  rcases h with ⟨_, _, he⟩ | ⟨_, ⟨_, _, he⟩ | ⟨_, h⟩⟩
  · cases he
    exact fun hkeyword => by cases hkeyword
  · cases he
    exact fun hkeyword => by cases hkeyword
  · rcases h with h | ⟨_, h | ⟨_, h⟩⟩
    all_goals exact hoperator h

end Plain

theorem Kind.plainly_of_not_keyword (h : ∀ {word}, ¬Keyword kind word) : kind.plainly = kind := by
  unfold plainly
  split
  · exact absurd .async h
  · exact absurd .await h
  · rfl

/-- The tag of a pragma does not go on with the word before it. -/
theorem Pragma.head_of_tag? {comment tag : List Char} (h : tag? comment = some tag) :
    ∀ c ∈ tag.head?, continuesWord c = false := by
  obtain ⟨_, _, h⟩ := Option.bind_eq_some_iff.1 h
  obtain ⟨_, _, h⟩ := Option.bind_eq_some_iff.1 h
  obtain ⟨tag', _, h⟩ := Option.bind_eq_some_iff.1 h
  split at h
  · split at h
    · cases h
    · next hc =>
      obtain rfl := Option.some.inj h
      intro d hd
      obtain rfl := Option.some.inj hd
      exact eq_false_of_ne_true hc
  · obtain rfl := Option.some.inj h
    nofun

namespace Lexer

variable {lx ly lz : Lexer} {x : Lexeme} {xs : List Lexeme} {always : Bool}

/-- The kind that goes with a text, where the words are always keywords or not always: a keyword's
for its own word alone, or where the word was not kept. -/
structure Calls (always : Bool) (kept : Prop) (kind : Kind) (text : String) : Prop where
  ofText : ∀ {keyword word}, Keyword keyword word → text = word →
    kind = keyword ∨ always = false ∧ kind = .word
  ofKind : ∀ {keyword word}, Keyword keyword word → kind = keyword →
    text = word ∨ ¬kept ∧ text = ""

/-- A lexeme has kept its text if it has a span. -/
abbrev Named (always : Bool) (x : Lexeme) : Prop :=
  Calls always (x.span?.isSome = true) x.kind x.text

theorem calls_of_other {kept : Prop} {text : String} (hkind : ∀ {word}, ¬Keyword kind word)
    (htext : ∀ {keyword word}, Keyword keyword word → text ≠ word) : Calls always kept kind text :=
  ⟨fun h heq => absurd heq (htext h), fun h heq => absurd h (heq ▸ hkind)⟩

theorem calls_keyword (h : Keyword keyword word) : Calls always True keyword word := by
  constructor
  · intro keyword' word' h' hword
    cases h
    all_goals cases h'
    all_goals first | exact Or.inl rfl | exact absurd hword (by decide)
  · intro keyword' word' h' hkeyword
    cases h
    all_goals cases h'
    all_goals first | exact Or.inl rfl | cases hkeyword

theorem calls_classifyAsync (h : Keyword keyword word) (rest : List Char) (lx : Lexer) :
    Calls lx.asyncAlways True (lx.classifyAsync keyword rest).1 word := by
  unfold classifyAsync
  split
  · exact calls_keyword h
  · next halways =>
    split
    · exact calls_keyword h
    · have hnever : lx.asyncAlways = false :=
        eq_false_of_ne_true fun h => halways (Bool.or_eq_true_iff.2 (Or.inl h))
      refine ⟨fun _ _ => Or.inr ⟨hnever, rfl⟩, ?_⟩
      rintro _ _ ⟨⟩ hword
      all_goals cases hword

/-- What is scanned gets a keyword's kind if it is the keyword, and there is reason to. -/
theorem calls_classify (h : Plain.scan? text = some (kind, read, rest)) (lx : Lexer) :
    Calls lx.asyncAlways True (lx.classify kind read rest).1 (String.ofList read) := by
  have hword : ∀ {keyword word}, Keyword keyword word → String.ofList read = word →
      read = word.toList ∧ kind = .word := by
    rintro keyword word hkeyword rfl
    rw [String.toList_ofList]
    obtain ⟨c, more, hhead, hc, -⟩ := hkeyword.exists_head
    have happend := Plain.append_of_scan? h
    rw [String.toList_ofList] at hhead
    rw [hhead, List.cons_append] at happend
    exact ⟨rfl, Plain.kind_of_scan? (happend ▸ h) hc⟩
  unfold classify
  split
  · next hasync =>
    rw [hasync.2, String.ofList_toList]
    exact calls_classifyAsync .async rest lx
  · next hasync =>
    split
    · next hawait =>
      rw [hawait.2, String.ofList_toList]
      exact calls_classifyAsync .await rest lx
    · next hawait =>
      refine calls_of_other (Plain.not_keyword_of_scan? h) fun hkeyword heq => ?_
      obtain ⟨hread, hkind⟩ := hword hkeyword heq
      cases hkeyword with
      | async => exact hasync ⟨hkind, hread⟩
      | await => exact hawait ⟨hkind, hread⟩

theorem named_lexeme (h : Calls always True kind (String.ofList read)) (cur : Cursor) :
    Named always (cur.lexeme kind read) := by
  unfold Named
  rw [Cursor.kind_lexeme]
  cases hspan : (cur.lexeme kind read).span?.isSome with
  | true =>
    rw [Cursor.text_lexeme, hspan, if_pos rfl]
    refine ⟨h.ofText, fun hkeyword hkind => Or.inl ?_⟩
    exact (h.ofKind hkeyword hkind).resolve_right fun hlost => hlost.1 trivial
  | false =>
    rw [Cursor.text_lexeme, hspan, if_neg Bool.false_ne_true]
    refine ⟨fun hkeyword heq => absurd heq.symm hkeyword.ne_empty, fun _ _ => Or.inr ?_⟩
    exact ⟨Bool.false_ne_true, rfl⟩

theorem named_bare (hkind : IsBare kind) (cur : Cursor) : Named always (cur.bare kind) :=
  ⟨fun h heq => absurd heq.symm h.ne_empty, fun h heq => absurd (heq ▸ hkind) h.not_isBare⟩

theorem named_of_takeDue? (h : lx.takeDue? = some (x, ly)) : Named always x := by
  unfold takeDue? at h
  split at h
  · obtain ⟨rfl, -⟩ := Prod.mk.inj (Option.some.inj h)
    exact named_bare (Or.inr (Or.inl rfl)) _
  · split at h
    · obtain ⟨rfl, -⟩ := Prod.mk.inj (Option.some.inj h)
      exact named_bare (Or.inl rfl) _
    · cases h

theorem always_takeDue? (h : lx.takeDue? = some (x, ly)) : ly.asyncAlways = lx.asyncAlways := by
  unfold takeDue? at h
  split at h
  · obtain ⟨-, rfl⟩ := Prod.mk.inj (Option.some.inj h)
    rfl
  · split at h
    · obtain ⟨-, rfl⟩ := Prod.mk.inj (Option.some.inj h)
      rfl
    · cases h

theorem Settles.asyncAlways_eq (h : lx.Settles ly) : ly.asyncAlways = lx.asyncAlways := by
  rcases h with ⟨_, hmeasure⟩ | ⟨_, rfl⟩
  · have hframe := measureLine_frame lx
    rw [hmeasure] at hframe
    dsimp only at hframe
    rw [hframe]
    rfl
  · rfl

theorem always_afterPragma (lx : Lexer) : lx.afterPragma.asyncAlways = lx.asyncAlways := by
  unfold afterPragma
  split
  · split <;> rfl
  · rfl

/-- What comes of a turn where the words are always keywords, or not always. -/
inductive KeepsAlways (always : Bool) : Outcome × Lexer → Prop
  | lexeme {x : Lexeme} {ly : Lexer} (hx : Named always x) (h : ly.asyncAlways = always) :
      KeepsAlways always (.lexeme x, ly)
  | nothing {ly : Lexer} (h : ly.asyncAlways = always) : KeepsAlways always (.nothing, ly)
  | failed {e : LexError} {ly : Lexer} : KeepsAlways always (.failed e, ly)

theorem Piece.keepsAlways {r : Outcome × Lexer} (h : Piece lx r) :
    KeepsAlways lx.asyncAlways r := by
  cases h with
  | ended => exact .lexeme (named_bare (Or.inr (Or.inr rfl)) _) rfl
  | comment => exact .nothing rfl
  | @pragma front tag rest hrest hbody hfront htag =>
    have hcalls : Calls lx.asyncAlways True .typeIgnore (String.ofList tag) := by
      refine calls_of_other nofun fun hkeyword heq => ?_
      obtain ⟨c, more, hhead, -, hc⟩ := hkeyword.exists_head
      rw [← heq, String.toList_ofList] at hhead
      have hnot := Pragma.head_of_tag? htag c (by rw [hhead]; rfl)
      rw [hc] at hnot
      cases hnot
    exact .lexeme (named_lexeme hcalls _) (always_afterPragma _)
  | blankBreak => exact .nothing rfl
  | newline =>
    have hcalls : Calls lx.asyncAlways True .newline (String.ofList []) :=
      calls_of_other nofun fun hkeyword heq => hkeyword.ne_empty heq.symm
    exact .lexeme (named_lexeme hcalls _) rfl
  | joined => exact .nothing rfl
  | brokenOff => exact .failed
  | stray => exact .failed
  | @literal read rest hrest hscan =>
    have hcalls : Calls lx.asyncAlways True .literal (String.ofList read) := by
      refine calls_of_other nofun fun hkeyword heq => ?_
      obtain ⟨q, hlast, hquote⟩ := Literal.getLast?_of_stretch? hscan rfl
      rw [← String.toList_ofList (l := read), heq] at hlast
      rw [hkeyword.quote_not_last hlast] at hquote
      cases hquote
    exact .lexeme (named_lexeme hcalls _) rfl
  | unended => exact .failed
  | @plain kind kind' read rest ly hrest hscan hclassify =>
    have hframe := nest_frame kind (lx.advance read)
    have halways : ((lx.advance read).nest kind).asyncAlways = lx.asyncAlways := by
      rw [hframe]
      rfl
    have hcalls := calls_classify hscan ((lx.advance read).nest kind)
    rw [hclassify, halways] at hcalls
    refine .lexeme (named_lexeme hcalls _) ?_
    rw [plain_frame hclassify]
    rfl
  | bad => exact .failed

theorem turn_keepsAlways (lx : Lexer) : KeepsAlways lx.asyncAlways lx.turn := by
  have hturned := turned lx
  generalize lx.turn = r at hturned
  cases hturned with
  | due h => exact .lexeme (named_of_takeDue? h) (always_takeDue? h)
  | misplaced => exact .failed
  | indented _ hsettles h =>
    exact .lexeme (named_of_takeDue? h) ((always_takeDue? h).trans hsettles.asyncAlways_eq)
  | @read ly r _ hsettles _ hpiece =>
    have halways : ly.skipLayout.asyncAlways = lx.asyncAlways := hsettles.asyncAlways_eq
    rw [← halways]
    exact hpiece.keepsAlways

theorem always_leaveLine (lx : Lexer) : lx.leaveLine.asyncAlways = lx.asyncAlways := by
  unfold leaveLine
  split <;> rfl

theorem next_keepsAlways (h : lx.next = (.ok x, ly)) :
    Named lx.asyncAlways x ∧ ly.asyncAlways = lx.asyncAlways := by
  obtain ⟨lz, halways, hturn⟩ :=
    exists_turn_of_next (motive := fun lz => lz.asyncAlways = lx.asyncAlways) h
      (always_leaveLine lx) fun {ly lz} halways hturn => by
        have hkeeps := turn_keepsAlways ly
        rw [hturn, halways] at hkeeps
        cases hkeeps with
        | nothing h => exact h
  have hkeeps := turn_keepsAlways lz
  rw [hturn, halways] at hkeeps
  cases hkeeps with
  | lexeme hx h => exact ⟨hx, h⟩

theorem Yields.named (h : Yields lx xs ly) : ∀ x ∈ xs, Named lx.asyncAlways x := by
  induction h with
  | nil => nofun
  | @cons lx ly lz x xs hnext _ ih =>
    obtain ⟨hx, halways⟩ := next_keepsAlways hnext
    intro y hy
    rcases List.mem_cons.1 hy with rfl | hy
    · exact hx
    · exact halways ▸ ih y hy

/-- A token has kept its text unless the whole text is too long for positions. -/
theorem calls_of_tokens {s : Source} {ts : List Token}
    (h : (ofSource always s).tokens = (.ok ts, ly)) :
    ∀ t ∈ ts, Calls always (byteLength s.text ≤ maxPosition) t.kind t.text := by
  obtain ⟨xs, e, hyields, he, -, rfl⟩ := exists_yields_of_tokens h
  have htiled : Tiled 0 (xs ++ [e]) s.text := by
    refine hyields.tiled ?_
    obtain ⟨lz, -, hlast⟩ := hyields.append_inv
    cases hlast with
    | cons hnext hnil =>
      cases hnil
      rw [rest_of_endMarker hnext he]
      exact .nil
  intro t ht
  obtain ⟨x, hx, rfl⟩ := List.mem_map.1 ht
  have hnamed := hyields.named x hx
  refine ⟨hnamed.ofText, fun hkeyword hkind => ?_⟩
  have hbare : ¬IsBare x.kind := by
    rw [show x.kind = _ from hkind]
    exact hkeyword.not_isBare
  refine (hnamed.ofKind hkeyword hkind).imp_right fun ⟨hlost, htext⟩ => ⟨fun hfits => ?_, htext⟩
  exact hlost (htiled.span?_isSome ((Nat.zero_add _).symm ▸ hfits) hx hbare)

theorem scan_error_of_plainly {e : LexError} (h : ly.plainly = lx.plainly)
    (hscan : lx.scan = (.error e, lz)) : ∃ lw, ly.scan = (.error e, lw) := by
  fun_induction scan lx generalizing ly with
  | case1 => cases hscan
  | case2 lx e' lz' hturn =>
    obtain rfl := Except.error.inj (Prod.mk.inj hscan).1
    obtain ⟨o, lw, hturn', houtcome, -⟩ := turn_of_plainly h hturn
    cases o with
    | lexeme y => cases houtcome
    | nothing => cases houtcome
    | failed e =>
      obtain rfl := Outcome.failed.inj houtcome
      exact ⟨_, scan_of_failed hturn'⟩
  | case3 lx lz' hturn _ ih =>
    obtain ⟨o, lw, hturn', houtcome, hlexer⟩ := turn_of_plainly h hturn
    cases o with
    | lexeme y => cases houtcome
    | nothing =>
      rw [scan_of_nothing hturn']
      exact ih hlexer hscan
    | failed e => cases houtcome

theorem next_error_of_plainly {e : LexError} (h : ly.plainly = lx.plainly)
    (hnext : lx.next = (.error e, lz)) : ∃ lw, ly.next = (.error e, lw) := by
  have hstop : ly.stop = lx.stop := (congrArg stop h : ly.plainly.stop = lx.plainly.stop)
  have hleave : ly.leaveLine.plainly = lx.leaveLine.plainly := by
    rw [← leaveLine_plainly, h, leaveLine_plainly]
  unfold next at hnext ⊢
  rw [hstop]
  split at hnext
  · next he =>
    obtain rfl := Except.error.inj (Prod.mk.inj hnext).1
    exact ⟨ly, rfl⟩
  · exact scan_error_of_plainly hleave hnext

/-- The lexers end alike, with the same error or with none. -/
theorem drain_of_plainly {lx ly : Lexer} (h : ly.plainly = lx.plainly) :
    ly.drain.2.1 = lx.drain.2.1 := by
  cases hnext : lx.next with
  | mk r lz =>
    cases r with
    | error e =>
      obtain ⟨lw, hnext'⟩ := next_error_of_plainly h hnext
      rw [drain, drain, drainFrom_of_error hnext, drainFrom_of_error hnext']
    | ok x =>
      obtain ⟨y, lw, hnext', hy, hlexer⟩ := next_of_plainly h hnext
      have hkind : y.kind.plainly = x.kind.plainly := congrArg Lexeme.kind hy
      by_cases hx : x.kind = .endMarker
      · have hend : y.kind = .endMarker := by
          rw [hx] at hkind
          exact Kind.plainly_eq_endMarker_iff.1 hkind
        rw [drain, drain, drainFrom_of_end hnext hx, drainFrom_of_end hnext' hend]
      · have hmore : y.kind ≠ .endMarker := by
          intro hend
          rw [hend] at hkind
          exact hx (Kind.plainly_eq_endMarker_iff.1 hkind.symm)
        have hlt := next_weight_lt hnext hx
        rw [drain_of_token hnext hx, drain_of_token hnext' hmore]
        exact drain_of_plainly hlexer
termination_by lx.weight

end Lexer

/-- A token of a text in which `async` and `await` are keywords everywhere, and the token in its
place where they are keywords in some definitions only. -/
structure Token.Unasync (fits : Prop) (t u : Token) : Prop where
  text : u.text = t.text
  line : u.line = t.line
  column? : u.column? = t.column?
  /-- of the same kind but for what makes a keyword of a word -/
  plainly : u.kind.plainly = t.kind.plainly
  keyword : ∀ {keyword word}, Keyword keyword word → t.text = word →
    t.kind = keyword ∧ (u.kind = keyword ∨ u.kind = .word)
  /-- any other token, unless its text is lost in a text too long for positions to be stored -/
  other : t.text ≠ "async" → t.text ≠ "await" → u.kind = t.kind ∨ ¬fits ∧ t.text = ""

namespace Lexer

theorem unasync_of_calls {fits : Prop} {t u : Token} (h : u.plainly = t.plainly)
    (ht : Calls true fits t.kind t.text) (hu : Calls false fits u.kind u.text) :
    t.Unasync fits u := by
  obtain ⟨kind, text, line, column?⟩ := t
  obtain ⟨kind', text', line', column?'⟩ := u
  obtain ⟨hkind, rfl, rfl, rfl⟩ := Token.mk.inj h
  refine ⟨rfl, rfl, rfl, hkind, ?_, ?_⟩
  · intro keyword word hkeyword hword
    refine ⟨(ht.ofText hkeyword hword).resolve_right nofun, ?_⟩
    exact (hu.ofText hkeyword hword).imp_right And.right
  · intro hasync hawait
    by_cases hlost : ¬fits ∧ text' = ""
    · exact Or.inr hlost
    have hplain : ∀ {always : Bool} {k : Kind}, Calls always fits k text' → k.plainly = k := by
      intro always k hcalls
      have hother : ∀ {keyword word}, Keyword keyword word → text' ≠ word := by
        rintro _ _ ⟨⟩
        · exact hasync
        · exact hawait
      refine Kind.plainly_of_not_keyword fun hkeyword => ?_
      exact hother hkeyword ((hcalls.ofKind hkeyword rfl).resolve_right hlost)
    exact Or.inl ((hplain hu).symm.trans (hkind.trans (hplain ht)))

/-- Where `async` and `await` are keywords changes nothing but the kinds of these two words. A text
is tokenized to the same error, or to as many tokens, each with the same text, on the same line and
in the same column. With `async` and `await` keywords everywhere, the two words have the keywords'
kinds; otherwise they have these or the kind of a word; and every other token has the same kind.
Only in a text past 4 GiB may a token stand behind the largest position, and have lost its text and
with it what tells the two words from others. -/
theorem tokens_unasync (s : Source) :
    (∃ e, (ofSource true s).tokens.1 = .error e ∧ (ofSource false s).tokens.1 = .error e) ∨
      ∃ ts us, (ofSource true s).tokens.1 = .ok ts ∧ (ofSource false s).tokens.1 = .ok us ∧
        List.Forall₂ (Token.Unasync (byteLength s.text ≤ maxPosition)) ts us := by
  cases htokens : (ofSource true s).tokens with
  | mk r lx =>
    cases r with
    | error e =>
      left
      have hstart : (ofSource false s).plainly = (ofSource true s).plainly := rfl
      have herror := drain_of_plainly hstart
      have hdrain : (ofSource true s).drain.2.1 = some e := tokens_eq_error_iff.1 (by rw [htokens])
      exact ⟨e, rfl, tokens_eq_error_iff.2 (herror.trans hdrain)⟩
    | ok ts =>
      right
      obtain ⟨us, ly, htokens', hplainly⟩ := tokens_plainly htokens false
      refine ⟨ts, us, rfl, by rw [htokens'], ?_⟩
      have hsame : List.Forall₂ (fun t u => Token.plainly u = Token.plainly t) ts us := by
        rw [← List.forall₂_eq_eq_eq, List.forall₂_map_left_iff, List.forall₂_map_right_iff]
          at hplainly
        exact hplainly.flip
      have hleft := (List.forall₂_and_left _ _).2 ⟨calls_of_tokens htokens, hsame⟩
      have hboth := (List.forall₂_and_left _ _).2 ⟨calls_of_tokens htokens', hleft.flip⟩
      exact hboth.flip.imp fun _ _ ⟨hu, ht, hsame⟩ => unasync_of_calls hsame ht hu

/-- A word that has lost its text is a keyword all the same, or is not. -/
theorem tokens_unasync_past_positions :
    Source.decode .cookie (some "latin-1") (0x23 :: (List.replicate 2147483648 0xE9 ++
      [10, 0x61, 0x73, 0x79, 0x6E, 0x63, 10])) =
        .ok ⟨longComment 2147483648 ++ ['\n', 'a', 's', 'y', 'n', 'c', '\n'],
          some "iso-8859-1"⟩ ∧
      (ofSource true ⟨longComment 2147483648 ++ ['\n', 'a', 's', 'y', 'n', 'c', '\n'],
        some "iso-8859-1"⟩).tokens.1 =
          .ok [⟨.async, "", 2, none⟩, ⟨.newline, "", 2, none⟩, ⟨.endMarker, "", 3, none⟩] ∧
      (ofSource false ⟨longComment 2147483648 ++ ['\n', 'a', 's', 'y', 'n', 'c', '\n'],
        some "iso-8859-1"⟩).tokens.1 =
          .ok [⟨.word, "", 2, none⟩, ⟨.newline, "", 2, none⟩, ⟨.endMarker, "", 3, none⟩] := by
  have htext : ['\n', 'a', 's', 'y', 'n', 'c', '\n'] =
      ['\n'] ++ ("async".toList ++ ['\n']) := by decide
  refine ⟨Source.decode_longComment (by decide) (by decide), ?_, ?_⟩
  · rw [htext]
    exact tokens_longComment_of_le rfl (Or.inl rfl) rfl (by decide) (by decide) (by decide) rfl
  · rw [htext]
    exact tokens_longComment_of_le rfl (Or.inl rfl) rfl (by decide) (by decide) (by decide) rfl

end Lexer

end Offside
