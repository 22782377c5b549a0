import Offside.Proofs.Lexer.Idle
import Offside.Proofs.Parse.Attempt

/-!
Single statements. What a single statement leaves unread holds no code as the parse sees it, and
the parse takes a comment to go on to the next line feed. A lexer ends comments at carriage returns
as well, and so it agrees where no comment has one that stands alone.
-/

namespace Offside.Parse

open Grammar Pushdown Run Lexer Text

variable {options : Options} {filename? : Option String} {tree tree₀ : Node}

/-- Whether a carriage return in a comment always comes before a line feed, which the comment then
goes on to. `inComment` tells whether the text starts inside a comment. -/
def feedsEndComments (inComment : Bool) : List Char → Bool
  | [] => true
  | c :: rest =>
    if inComment then (c != '\r' || rest.head? == some '\n') && feedsEndComments (c != '\n') rest
    else feedsEndComments (c == '#') rest

/-- Where line feeds end the comments, it is all the same that any line break does. -/
theorem showsCode_of_holdsCode {inComment : Bool} {text : List Char}
    (h : holdsCode inComment text = false) (hfeeds : feedsEndComments inComment text = true) :
    showsCode inComment text = false := by
  induction text generalizing inComment with
  | nil => rfl
  | cons c rest ih =>
    cases inComment with
    | true =>
      rw [holdsCode, if_pos rfl] at h
      rw [feedsEndComments, if_pos rfl, Bool.and_eq_true] at hfeeds
      have hrest := ih h hfeeds.2
      by_cases hfeed : c = '\n'
      · subst hfeed
        exact (showsCode_break (by decide) _ _).trans hrest
      · have hin : (c != '\n') = true := bne_iff_ne.2 hfeed
        rw [hin] at hrest
        by_cases hreturn : c = '\r'
        · subst hreturn
          obtain ⟨left, rfl⟩ := List.head?_eq_some_iff.1 (by simpa using hfeeds.1)
          rw [showsCode_break (by decide)] at hrest ⊢
          rwa [showsCode_break (by decide)]
        · have hbreak : isBreak c = false := by
            rw [isBreak, Bool.or_eq_false_iff, beq_eq_false_iff_ne, beq_eq_false_iff_ne]
            exact ⟨hfeed, hreturn⟩
          rwa [showsCode, hbreak, if_neg Bool.false_ne_true, if_pos rfl]
    | false =>
      rw [holdsCode, if_neg Bool.false_ne_true] at h
      rw [feedsEndComments, if_neg Bool.false_ne_true] at hfeeds
      by_cases hhash : c = '#'
      · subst hhash
        exact ih (by simpa using h) hfeeds
      · rw [if_neg hhash] at h
        have hout : (c == '#') = false := beq_eq_false_iff_ne.2 hhash
        rw [hout] at hfeeds
        split at h
        · next hblank =>
          have hrest := ih h hfeeds
          rcases Bool.or_eq_true_iff.1 hblank with hlayout | hbreak
          · rwa [showsCode_blank hlayout]
          · rwa [showsCode_break hbreak]
        · cases h

/-- A single statement is not finished where more code is left. -/
theorem holdsCode_of_finish {source : Lexer} {pragmas : PragmaBuffer}
    (h : finish .single source pragmas tree₀ = .ok tree) :
    holdsCode false source.cursor.rest = false := by
  unfold finish at h
  split at h
  · dsimp only at h
    split at h
    · cases hattach : attachPragmas pragmas.toList tree₀ with
      | error f =>
        rw [hattach] at h
        cases h
      | ok tree₁ =>
        rw [hattach] at h
        cases h
    · cases h
  · next hcode => exact eq_false_of_ne_true fun hholds => hcode ⟨rfl, hholds⟩

/-- What a single statement leaves unread gives a lexer no tokens but pragmas and the end marker,
if no comment there holds a carriage return that stands alone. -/
theorem rest_of_single {t : List Char}
    (h : (text .single options filename? t).1 = .ok tree) :
    ∃ (g : Grammar) (s : Source) (o : Outcome Lexer Pushdown), Reference.grammar = .ok g ∧
      Source.ofText options.flags.decodeMode t = .ok s ∧
      attempt? g .single options filename? s = some o ∧ o.result = .ok tree ∧
      (feedsEndComments false o.source.cursor.rest = true →
        ∀ (asyncAlways : Bool) (encoding? : Option String), ∃ ts lx,
          (ofSource asyncAlways ⟨o.source.cursor.rest, encoding?⟩).tokens = (.ok ts, lx) ∧
            ∀ t ∈ ts, t.kind = .typeIgnore ∨ t.kind = .endMarker) := by
  obtain ⟨s, hs, h⟩ := bytes_eq_ok h
  obtain ⟨g, o, hg, ho, htree⟩ := source_eq_ok h
  refine ⟨g, s, o, hg, hs, ho, htree, fun hfeeds asyncAlways encoding? => ?_⟩
  obtain ⟨_, _, _, r, _, _, _, hfinish, hsource⟩ := attempt?_eq_ok ho htree
  have hcode := holdsCode_of_finish hfinish
  rw [← hsource] at hcode
  exact tokens_of_codeless (s := ⟨o.source.cursor.rest, encoding?⟩) asyncAlways
    (showsCode_of_holdsCode hcode hfeeds)

/-- A comment behind a single statement. -/
theorem rest_of_single_comment :
    ∃ tree, (text .single (Options.ofFlags Flags.unset) none ['x', '\n', '#', '\n']).1 = .ok tree ∧
      ∃ (g : Grammar) (o : Outcome Lexer Pushdown), Reference.grammar = .ok g ∧
        attempt? g .single (Options.ofFlags Flags.unset) none ⟨['x', '\n', '#', '\n'], none⟩ =
          some o ∧ o.source.cursor.rest = ['#', '\n'] ∧
        ∃ ts lx, (ofSource false ⟨o.source.cursor.rest, none⟩).tokens = (.ok ts, lx) ∧
          ∀ t ∈ ts, t.kind = .typeIgnore ∨ t.kind = .endMarker := by
  have hread : Source.ofText .cookie ['x', '\n', '#', '\n'] =
      .ok ⟨['x', '\n', '#', '\n'], none⟩ := by decide +kernel
  obtain ⟨g, o, tree, hg, ho, _, hrest, h⟩ := exists_tree_of_trial
    (t := ⟨.single, ['x', '\n', '#', '\n'], some ['#', '\n']⟩) (by decide) rfl hread
  obtain ⟨g', s, o', hg', hs, ho', _, htokens⟩ := rest_of_single h
  obtain rfl : g' = g := Except.ok.inj (hg'.symm.trans hg)
  obtain rfl := Except.ok.inj (hread.symm.trans hs)
  obtain rfl := Option.some.inj (ho'.symm.trans ho)
  exact ⟨tree, h, g', o', hg', ho', hrest, htokens (by rw [hrest]; rfl) false none⟩

/-- A comment that a carriage return ends, and a second statement behind it. -/
theorem rest_of_single_return :
    ∃ tree, (text .single (Options.ofFlags Flags.unset) none ['x', '\n', '#', '\r', 'y']).1 =
        .ok tree ∧
      ∃ (g : Grammar) (o : Outcome Lexer Pushdown), Reference.grammar = .ok g ∧
        attempt? g .single (Options.ofFlags Flags.unset) none ⟨['x', '\n', '#', '\r', 'y'], none⟩ =
          some o ∧ o.result = .ok tree ∧
        (ofSource false ⟨o.source.cursor.rest, none⟩).tokens.1 =
          .ok [⟨.word, "y", 2, some 0⟩, ⟨.endMarker, "", 2, none⟩] := by
  obtain ⟨g, o, tree, hg, ho, htree, hrest, h⟩ := exists_tree_of_trial
    (t := ⟨.single, ['x', '\n', '#', '\r', 'y'], some ['#', '\r', 'y']⟩) (by decide) rfl
    (by decide +kernel)
  refine ⟨tree, h, g, o, hg, ho, htree, ?_⟩
  rw [hrest]
  decide +kernel

end Offside.Parse
