import Offside.Proofs.FinalBreak.Tokens
import Offside.Proofs.Parse.Steps
import Offside.Proofs.Tree.Shape

/-!
Runs over two texts that differ in a final line feed. They go on in step until the end of the
text; from there on the automata have read the same tokens, newlines apart. What the line feed
brings, a newline and the dedents after it, the run over the shorter text makes up for.
-/

namespace Offside.Run

open Grammar Pushdown

variable {g : Grammar} {root : Symbol} {ends : List Symbol} {ts ts' : List Token} {flags : Flags}
  {r r' : Run Lexer Pushdown} {x y : Lexeme} {kind : Kind} {lx ly : Lexer}

/-- What is left of tokens without newlines and places. -/
def spelled (ts : List Token) : List (Kind × String) := dropNewlines (ts.map Token.spelling)

theorem spelled_concat {t u : Token} (h : spelled ts = spelled ts') (hkind : t.kind = u.kind)
    (htext : t.text = u.text) : spelled (ts ++ [t]) = spelled (ts' ++ [u]) := by
  have hspelling : t.spelling = u.spelling := by rw [Token.spelling, Token.spelling, hkind, htext]
  unfold spelled at *
  rw [List.map_append, List.map_append, dropNewlines_append, dropNewlines_append, h,
    List.map_singleton, List.map_singleton, hspelling]

theorem spelled_newline {n : Token} (h : n.kind = .newline) (ts : List Token) :
    spelled (ts ++ [n]) = spelled ts := by
  have hnil : dropNewlines [n.spelling] = [] := by
    rw [dropNewlines, List.filter_cons_of_neg (by simp [Token.spelling, h]), List.filter_nil]
  rw [spelled, List.map_append, dropNewlines_append, List.map_singleton, hnil, List.append_nil,
    spelled]

/-- Two trees whose tokens differ in newlines and places alone. -/
structure SameTokens (g : Grammar) (root : Symbol) (ts ts' : List Token) (tree tree' : Node) :
    Prop where
  sound : Sound g root ts tree
  sound' : Sound g root ts' tree'
  last : ts.getLast?.map Token.kind = ts'.getLast?.map Token.kind
  spelling : spelled ts = spelled ts'

/-- Two runs that have read the same tokens, newlines and places apart. -/
structure Level (g : Grammar) (root : Symbol) (ts ts' : List Token) (r r' : Run Lexer Pushdown) :
    Prop where
  reading : Reading g root ts r.automaton
  reading' : Reading g root ts' r'.automaton
  automata : Pushdown.Alike r.automaton r'.automaton
  spelling : spelled ts = spelled ts'
  pragmas : r.pragmas = r'.pragmas

theorem Level.refl {p : Pushdown} (h : Reading g root ts p) (pragmas : PragmaBuffer)
    (lx ly : Lexer) (b : Bool) : Level g root ts ts ⟨lx, p, pragmas, b⟩ ⟨ly, p, pragmas, b⟩ where
  reading := h
  reading' := h
  automata := Pushdown.Alike.refl _
  spelling := rfl
  pragmas := rfl

theorem SameTokens.refl {tree : Node} (h : Sound g root ts tree) :
    SameTokens g root ts ts tree tree :=
  ⟨h, h, rfl, rfl⟩

/-- What comes of one token in two such runs, if anything comes of it in the second. -/
inductive ReceivesAlike (g : Grammar) (root : Symbol) (kind : Kind) :
    Progress × Run Lexer Pushdown → Progress × Run Lexer Pushdown → Prop
  | failed {a : Progress × Run Lexer Pushdown} {f : Failure} {r' : Run Lexer Pushdown} :
      ReceivesAlike g root kind a (.failed f, r')
  | more {ts ts' : List Token} {r r' : Run Lexer Pushdown} (h : Level g root ts ts' r r')
      (hlast : ts.getLast?.map Token.kind = some kind) :
      ReceivesAlike g root kind (.more, r) (.more, r')
  | accepted {ts ts' : List Token} {tree tree' : Node} {r r' : Run Lexer Pushdown}
      (h : SameTokens g root ts ts' tree tree') (hpragmas : r.pragmas = r'.pragmas) :
      ReceivesAlike g root kind (.accepted tree, r) (.accepted tree', r')

/-- Lexemes of one kind and text, other than pragmas and inequalities, come to the same. -/
theorem Level.receive (hg : g.Lawful) (h : Level g root ts ts' r r') (hpragma : kind ≠ .typeIgnore)
    (hne : kind ≠ .notEqual) (htext : x.text = y.text) :
    ReceivesAlike g root kind (receive x kind r) (receive y kind r') := by
  have hfeed := feed_alike (t := { x.token with kind }) (u := { y.token with kind }) rfl htext
    h.automata
  have hspelling := spelled_concat (t := { x.token with kind }) (u := { y.token with kind })
    h.spelling rfl htext
  cases hy : Run.receive y kind r' with
  | mk progress r₁' =>
    cases progress with
    | failed f => exact .failed
    | more =>
      obtain ⟨q, hq, rfl⟩ := (receive_eq_more_iff hpragma hne).1 hy
      have hq' : feed { y.token with kind } r'.automaton = (.more, q) := hq
      rw [hq'] at hfeed
      generalize hp : feed { x.token with kind } r.automaton = a at hfeed
      cases hfeed with
      | @more p _ halike =>
        rw [(receive_eq_more_iff hpragma hne).2 ⟨p, hp, rfl⟩]
        exact .more
          { reading := reading_of_feed hg h.reading hp
            reading' := reading_of_feed hg h.reading' hq'
            automata := halike
            spelling := hspelling
            pragmas := h.pragmas } (by rw [List.getLast?_concat]; rfl)
    | accepted tree' =>
      obtain ⟨q, hq, rfl⟩ := (receive_eq_accepted_iff hpragma hne).1 hy
      have hq' : feed { y.token with kind } r'.automaton = (.accept tree', q) := hq
      rw [hq'] at hfeed
      generalize hp : feed { x.token with kind } r.automaton = a at hfeed
      cases hfeed with
      | @accept tree _ p _ =>
        rw [(receive_eq_accepted_iff hpragma hne).2 ⟨p, hp, rfl⟩]
        exact .accepted
          { sound := sound_of_feed hg h.reading hp
            sound' := sound_of_feed hg h.reading' hq'
            last := by rw [List.getLast?_concat, List.getLast?_concat]; rfl
            spelling := hspelling } h.pragmas

theorem Level.move (h : Level g root ts ts' r r') (lx ly : Lexer) (b b' : Bool) :
    Level g root ts ts' { r with source := lx, started := b }
      { r' with source := ly, started := b' } :=
  ⟨h.reading, h.reading', h.automata, h.spelling, h.pragmas⟩

/-- Two such runs at the ends of their texts. -/
structure Abreast (g : Grammar) (root : Symbol) (ts ts' : List Token) (r r' : Run Lexer Pushdown) :
    Prop where
  level : Level g root ts ts' r r'
  started : r.started = r'.started
  sources : Lexer.Alike r.source r'.source

/-- Two runs that have given trees with the same tokens, newlines apart. -/
structure EndsAlike (g : Grammar) (root : Symbol) (tree tree' : Node) (r r' : Run Lexer Pushdown) :
    Prop where
  tokens : ∃ ts ts', SameTokens g root ts ts' tree tree'
  pragmas : r.pragmas = r'.pragmas
  encoding : r.source.encoding? = r'.source.encoding?

inductive StepsAlike (g : Grammar) (root : Symbol) :
    Progress × Run Lexer Pushdown → Progress × Run Lexer Pushdown → Prop
  | failed {a : Progress × Run Lexer Pushdown} {f : Failure} {r' : Run Lexer Pushdown} :
      StepsAlike g root a (.failed f, r')
  | more {ts ts' : List Token} {r r' : Run Lexer Pushdown} (h : Abreast g root ts ts' r r') :
      StepsAlike g root (.more, r) (.more, r')
  | accepted {tree tree' : Node} {r r' : Run Lexer Pushdown}
      (h : EndsAlike g root tree tree' r r') :
      StepsAlike g root (.accepted tree, r) (.accepted tree', r')

theorem Abreast.receive (hg : g.Lawful) (h : Abreast g root ts ts' r r')
    (hpragma : kind ≠ .typeIgnore) (hne : kind ≠ .notEqual) (htext : x.text = y.text) :
    StepsAlike g root (receive x kind r) (receive y kind r') := by
  have hreceives := h.level.receive hg hpragma hne htext
  have hx := source_receive x kind r
  have hy := source_receive y kind r'
  generalize Run.receive x kind r = a at hreceives hx
  generalize Run.receive y kind r' = b at hreceives hy
  cases hreceives with
  | failed => exact .failed
  | more hlevel _ =>
    refine .more ⟨hlevel, ?_, ?_⟩
    · rw [hx.2, hy.2, h.started]
    · rw [hx.1, hy.1]
      exact h.sources
  | accepted htokens hpragmas =>
    refine .accepted ⟨⟨_, _, htokens⟩, hpragmas, ?_⟩
    rw [hx.1, hy.1, h.sources.encoding]

theorem alike_closeBlocks (h : Lexer.Alike lx ly) :
    Lexer.Alike (closeBlocks flags lx) (closeBlocks flags ly) := by
  have hdepth : lx.indents.depth = ly.indents.depth := congrArg (·.indents.depth) h.debt
  by_cases hopen : 0 < lx.indents.depth ∧ flags.dontImplyDedent = false
  · rw [closeBlocks_of_open hopen.2 hopen.1, closeBlocks_of_open hopen.2 (hdepth ▸ hopen.1),
      ← hdepth]
    exact h.queueDedents _
  · rw [closeBlocks_of_kept hopen, closeBlocks_of_kept (hdepth ▸ hopen)]
    exact h

/-- One step of two runs whose lexers give tokens alike. -/
theorem step_alike (flags : Flags) (hg : g.Lawful) (h : Level g root ts ts' r r')
    (hstarted : r.started = r'.started)
    (hnext : Lexer.GivesAlike r.source.next r'.source.next) :
    StepsAlike g root (r.step flags) (r'.step flags) := by
  generalize hxnext : r.source.next = a at hnext
  generalize hynext : r'.source.next = b at hnext
  cases hnext with
  | @intro x y lx ly hlayout hkind hxtext hytext halike =>
    have htext : x.text = y.text := by rw [hxtext, hytext]
    by_cases hx : x.kind = .endMarker
    · have hy : y.kind = .endMarker := by rw [← hkind, hx]
      cases hr : r.started with
      | false =>
        rw [step_of_fresh flags hxnext hx hr, step_of_fresh flags hynext hy (hstarted ▸ hr)]
        exact Abreast.receive hg ⟨h.move lx ly true true, rfl, halike⟩ (by decide) (by decide) htext
      | true =>
        rw [step_of_end flags hxnext hx hr, step_of_end flags hynext hy (hstarted ▸ hr)]
        exact Abreast.receive hg ⟨h.move _ _ false false, rfl, alike_closeBlocks halike⟩
          (by decide) (by decide) htext
    · have hy : y.kind ≠ .endMarker := by rwa [← hkind]
      rw [step_of_token flags hxnext hx, step_of_token flags hynext hy, ← hkind]
      refine Abreast.receive hg ⟨h.move lx ly true true, rfl, halike⟩ ?_ ?_ htext
      · rcases hlayout with hlayout | hlayout | hlayout <;> rw [hlayout] <;> decide
      · rcases hlayout with hlayout | hlayout | hlayout <;> rw [hlayout] <;> decide

/-- From there on the second run gives a tree only if the first one does. -/
theorem Abreast.gives (hg : g.Lawful) {tree' : Node} {rf' : Run Lexer Pushdown}
    (hgives : Gives flags r' tree' rf') (h : Abreast g root ts ts' r r') :
    ∃ tree rf, Gives flags r tree rf ∧ EndsAlike g root tree tree' rf rf' := by
  induction hgives generalizing r ts ts' with
  | @accepted r' rf' tree' hstep =>
    rcases h.sources.next with ⟨e, lz, hnext⟩ | hnext
    · rw [step_of_error hnext] at hstep
      cases hstep
    · have halike := step_alike flags hg h.level h.started hnext
      rw [hstep] at halike
      generalize hx : r.step flags = a at halike
      cases halike with
      | accepted hends => exact ⟨_, _, .accepted hx, hends⟩
  | @more r' r₁' rf' tree' hstep _ ih =>
    rcases h.sources.next with ⟨e, lz, hnext⟩ | hnext
    · rw [step_of_error hnext] at hstep
      cases hstep
    · have halike := step_alike flags hg h.level h.started hnext
      rw [hstep] at halike
      generalize hx : r.step flags = a at halike
      cases halike with
      | more habreast =>
        obtain ⟨tree, rf, hgives, hends⟩ := ih habreast
        exact ⟨tree, rf, .more hx hgives, hends⟩

theorem live_of_gives {tree : Node} {rf : Run Lexer Pushdown} (h : Gives flags r tree rf) :
    r.source.Live := by
  intro e he
  cases h with
  | accepted hstep =>
    rw [step_of_error (Lexer.next_of_failed he)] at hstep
    cases hstep
  | more hstep _ =>
    rw [step_of_error (Lexer.next_of_failed he)] at hstep
    cases hstep

theorem gives_of_stepsAlike (hg : g.Lawful) {tree' : Node} {rf' : Run Lexer Pushdown}
    (h : StepsAlike g root (r.step flags) (r'.step flags)) (hgives : Gives flags r' tree' rf') :
    ∃ tree rf, Gives flags r tree rf ∧ EndsAlike g root tree tree' rf rf' := by
  generalize hx : r.step flags = a at h
  cases hgives with
  | accepted hstep =>
    rw [hstep] at h
    cases h with
    | accepted hends => exact ⟨_, _, .accepted hx, hends⟩
  | more hstep hrest =>
    rw [hstep] at h
    cases h with
    | more habreast =>
      obtain ⟨tree, rf, hgives, hends⟩ := habreast.gives hg hrest
      exact ⟨tree, rf, .more hx hgives, hends⟩

/-- A run that has nothing to settle reads a newline and the end marker. -/
theorem gives_of_clear (hg : g.Lawful) (he : g.LineEnds root ends) {tree : Node}
    {rf : Run Lexer Pushdown} (hgives : Gives flags r tree rf) (h : Reading g root ts r.automaton)
    (hstarted : r.started = true) (hspent : r.source.Spent) (hdebt : r.source.debt = Debt.clear)
    (hlast : tree.tokens.getLast?.map Token.kind = some .endMarker) :
    ∃ n e p, n.kind = .newline ∧ feed n r.automaton = (.more, p) ∧ e.kind = .endMarker ∧
      e.text = "" ∧ Sound g root (ts ++ [n] ++ [e]) tree ∧ rf.pragmas = r.pragmas ∧
      rf.source.encoding? = r.source.encoding? := by
  obtain ⟨x, lx, hxnext, hx, _, hspent₁, hdebt₁, hencoding₁⟩ :=
    Lexer.next_of_clear hspent hdebt (live_of_gives hgives)
  have hdepth : lx.indents.depth = 0 := congrArg (·.indents.depth) hdebt₁
  have hstep := step_of_end flags hxnext hx hstarted
  rw [closeBlocks_of_kept (by omega)] at hstep
  cases hgives with
  | accepted haccepted =>
    rw [hstep, receive_eq_accepted_iff (by decide) (by decide)] at haccepted
    obtain ⟨p, hfeed, _⟩ := haccepted
    have hsound := sound_of_feed hg h hfeed
    rw [hsound.tokens, List.getLast?_concat] at hlast
    cases hlast
  | more hmore hrest =>
    rw [hstep, receive_eq_more_iff (by decide) (by decide)] at hmore
    obtain ⟨p, hfeed, rfl⟩ := hmore
    obtain ⟨y, ly, hynext, hy, hytext, _, _, hencoding₂⟩ :=
      Lexer.next_of_clear hspent₁ hdebt₁ (live_of_gives hrest)
    have hreading := reading_of_feed hg h hfeed
    have hstep₁ := step_of_fresh flags
      (r := { r with source := lx, automaton := p, started := false }) hynext hy rfl
    cases hrest with
    | accepted haccepted =>
      rw [hstep₁, receive_eq_accepted_iff (by decide) (by decide)] at haccepted
      obtain ⟨q, hfeed₁, rfl⟩ := haccepted
      exact ⟨_, _, p, rfl, hfeed, rfl, hytext, sound_of_feed hg hreading hfeed₁, rfl,
        hencoding₂.trans hencoding₁⟩
    | more hmore _ =>
      rw [hstep₁, receive_eq_more_iff (by decide) (by decide)] at hmore
      obtain ⟨q, hfeed₁, _⟩ := hmore
      exact absurd (congrArg Prod.fst hfeed₁) (feed_endMarker_ne_more hg he.endMarked hreading rfl)

section Line

variable {tree' : Node} {rf' : Run Lexer Pushdown}

/-- After a line that leaves no block open the first run reads the end marker at once. -/
theorem gives_of_closed_line (hg : g.Lawful) (he : g.LineEnds root ends)
    (h : Level g root ts ts' r r') (hlast : ts.getLast?.map Token.kind = some .newline)
    (hstarted : r.started = false) (hstarted' : r'.started = true)
    (hends : Lexer.EndsLine r.source r'.source) (hdepth : r.source.indents.depth = 0)
    (hlive : r.source.Live) (hgives : Gives flags r' tree' rf')
    (hend : tree'.tokens.getLast?.map Token.kind = some .endMarker) :
    ∃ tree rf, Gives flags r tree rf ∧ EndsAlike g root tree tree' rf rf' := by
  have hempty := (Lexer.depth_eq_zero_iff _).1 hdepth
  have hdebt : r.source.debt = Debt.clear := by rw [hends.debt, hempty, Debt.clear]
  have hdebt' : r'.source.debt = Debt.clear := by
    rw [hends.debt', hdepth, hempty, Debt.clear]
    rfl
  obtain ⟨n, e, q, hn, hfeedn, he', htext', hsound', hpragmas, hencoding⟩ :=
    gives_of_clear hg he hgives h.reading' hstarted' hends.spent' hdebt' hend
  obtain ⟨x, lx, hxnext, hx, hxtext, _, _, hxencoding⟩ :=
    Lexer.next_of_clear hends.spent hdebt hlive
  obtain ⟨t₀, ht₀, hkind₀⟩ := Option.map_eq_some_iff.1 hlast
  have hmore : ∀ expected? p, feed n r.automaton ≠ (.reject expected?, p) := by
    intro expected? p hreject
    have halike := feed_alike rfl rfl h.automata (t := n)
    rw [hreject, hfeedn] at halike
    cases halike
  obtain ⟨tree, p, hfeed⟩ := feed_endMarker_of_newline hg he h.reading ht₀ hkind₀ hn
    (u := { x.token with kind := .endMarker }) rfl hmore
  have hstep := (step_of_fresh flags hxnext hx hstarted).trans
    ((receive_eq_accepted_iff (by decide) (by decide)).2 ⟨p, hfeed, rfl⟩)
  refine ⟨tree, _, .accepted hstep, ⟨_, _, sound_of_feed hg h.reading hfeed, hsound', ?_, ?_⟩,
    h.pragmas.trans hpragmas.symm, ?_⟩
  · rw [List.getLast?_concat, List.getLast?_concat, Option.map_some, Option.map_some, he']
  · exact spelled_concat (h.spelling.trans (spelled_newline hn ts').symm) he'.symm
      (hxtext.trans htext'.symm)
  · exact hxencoding.trans (hends.encoding.trans hencoding.symm)

/-- After a line inside blocks both runs read the dedents. -/
theorem gives_of_open_line (hg : g.Lawful) (h : Level g root ts ts' r r')
    (hsource : r.source = lx.queueDedents lx.indents.depth)
    (hends : Lexer.EndsLine lx r'.source) (hpositive : lx.indents.Positive)
    (hdepth : 0 < lx.indents.depth) (hlive : lx.Live) (hgives : Gives flags r' tree' rf') :
    ∃ tree rf, Gives flags r tree rf ∧ EndsAlike g root tree tree' rf rf' := by
  obtain ⟨x, lx', y, ly', hxnext, hynext, hx, hy, hxtext, hytext, halike⟩ :=
    hends.dedents hpositive hdepth hlive (live_of_gives hgives)
  rw [← hsource] at hxnext
  have hreceive := Abreast.receive hg (x := x) (y := y)
    ⟨h.move lx' ly' true true, rfl, halike⟩ (show Kind.dedent ≠ .typeIgnore by decide)
    (by decide) (hxtext.trans hytext.symm)
  have hxstep := step_of_token flags (r := r) hxnext (by rw [hx]; decide)
  have hystep := step_of_token flags (r := r') hynext (by rw [hy]; decide)
  rw [hx] at hxstep
  rw [hy] at hystep
  rw [← hxstep, ← hystep] at hreceive
  exact gives_of_stepsAlike hg hreceive hgives

/-- A line feed that ends a line of code. -/
theorem gives_of_line (hg : g.Lawful) (he : g.LineEnds root ends)
    (hflags : flags.dontImplyDedent = false) (h : Level g root ts ts' r r')
    (hstarted : r.started = true) (hpositive : lx.indents.Positive)
    (hxnext : r.source.next = (.ok x, lx)) (hynext : r'.source.next = (.ok y, ly))
    (hx : x.kind = .endMarker ∧ x.text = "") (hy : y.kind = .newline ∧ y.text = "")
    (hends : Lexer.EndsLine lx ly) (hlive : lx.Live) (hgives : Gives flags r' tree' rf')
    (hend : tree'.tokens.getLast?.map Token.kind = some .endMarker) :
    ∃ tree rf, Gives flags r tree rf ∧ EndsAlike g root tree tree' rf rf' := by
  have hxstep := step_of_end flags (r := r) hxnext hx.1 hstarted
  have hystep := step_of_token flags (r := r') hynext (by rw [hy.1]; decide)
  rw [hy.1] at hystep
  have hreceives := (h.move (closeBlocks flags lx) ly false true).receive hg
    (show Kind.newline ≠ .typeIgnore by decide) (by decide) (hx.2.trans hy.2.symm)
  have hxsource := source_receive x .newline
    { r with source := closeBlocks flags lx, started := false }
  have hysource := source_receive y .newline { r' with source := ly, started := true }
  rw [← hxstep] at hreceives hxsource
  rw [← hystep] at hreceives hysource
  generalize hxs : r.step flags = a at hreceives hxsource
  cases hgives with
  | accepted hstep =>
    rw [hstep] at hreceives hysource
    cases hreceives with
    | accepted htokens hpragmas =>
      refine ⟨_, _, .accepted hxs, ⟨_, _, htokens⟩, hpragmas, ?_⟩
      have hencoding : (closeBlocks flags lx).encoding? = lx.encoding? := by
        by_cases hopen : 0 < lx.indents.depth
        · rw [closeBlocks_of_open hflags hopen]
          rfl
        · rw [closeBlocks_of_kept fun h => hopen h.1]
      rw [hxsource.1, hysource.1, hencoding, hends.encoding]
  | @more _ r₁' _ _ hstep hrest =>
    rw [hstep] at hreceives hysource
    cases hreceives with
    | @more _ _ r₁ _ hlevel hlast =>
      obtain ⟨hxsource, hxstarted⟩ := hxsource
      obtain ⟨hysource, hystarted⟩ := hysource
      suffices hnext : ∃ tree rf, Gives flags r₁ tree rf ∧ EndsAlike g root tree tree' rf rf' by
        obtain ⟨tree, rf, hgives, halike⟩ := hnext
        exact ⟨tree, rf, .more hxs hgives, halike⟩
      dsimp only at hxsource hysource hxstarted hystarted
      by_cases hopen : 0 < lx.indents.depth
      · rw [closeBlocks_of_open hflags hopen] at hxsource
        exact gives_of_open_line hg hlevel hxsource (hysource ▸ hends) hpositive hopen hlive hrest
      · rw [closeBlocks_of_kept fun h => hopen h.1] at hxsource
        exact gives_of_closed_line hg he hlevel hlast hxstarted hystarted
          (by rw [hxsource, hysource]; exact hends) (by rw [hxsource]; omega)
          (hxsource ▸ hlive) hrest hend

/-- A line feed that is all there is but for blanks and comments. -/
theorem gives_of_lone_line (hg : g.Lawful) (he : g.LineEnds root ends)
    (h : Reading g root [] r.automaton) (hfresh : r.automaton.started = false)
    (h' : Reading g root [] r'.automaton) (hpragmas : r.pragmas = r'.pragmas)
    (hstarted : r.started = false) (hdepth : lx.indents.depth = 0)
    (hxnext : r.source.next = (.ok x, lx)) (hynext : r'.source.next = (.ok y, ly))
    (hx : x.kind = .endMarker ∧ x.text = "") (hy : y.kind = .newline ∧ y.text = "")
    (hends : Lexer.EndsLine lx ly) (hgives : Gives flags r' tree' rf')
    (hend : tree'.tokens.getLast?.map Token.kind = some .endMarker) :
    ∃ tree rf, Gives flags r tree rf ∧ EndsAlike g root tree tree' rf rf' := by
  obtain ⟨tree, p, hfeed⟩ := feed_endMarker_of_fresh hg he h hfresh
    (u := { x.token with kind := .endMarker }) rfl
  have hxstep := (step_of_fresh flags (r := r) hxnext hx.1 hstarted).trans
    ((receive_eq_accepted_iff (by decide) (by decide)).2 ⟨p, hfeed, rfl⟩)
  have hystep := step_of_token flags (r := r') hynext (by rw [hy.1]; decide)
  rw [hy.1] at hystep
  cases hgives with
  | accepted hstep =>
    rw [hystep, receive_eq_accepted_iff (by decide) (by decide)] at hstep
    obtain ⟨q, hfeed', _⟩ := hstep
    have hsound := sound_of_feed hg h' hfeed'
    rw [hsound.tokens, List.getLast?_concat] at hend
    cases hend
  | more hstep hrest =>
    rw [hystep, receive_eq_more_iff (by decide) (by decide)] at hstep
    obtain ⟨q, hfeed', rfl⟩ := hstep
    have hempty := (Lexer.depth_eq_zero_iff _).1 hdepth
    have hdebt' : ly.debt = Debt.clear := by
      rw [hends.debt', hdepth, hempty, Debt.clear]
      rfl
    obtain ⟨n, e, _, hn, _, he', htext', hsound', hpragmas', hencoding'⟩ :=
      gives_of_clear hg he hrest (reading_of_feed hg h' hfeed') rfl hends.spent' hdebt' hend
    refine ⟨tree, _, .accepted hxstep, ⟨_, _, sound_of_feed hg h hfeed, hsound', ?_, ?_⟩,
      hpragmas.trans hpragmas'.symm, hends.encoding.trans hencoding'.symm⟩
    · rw [List.getLast?_concat, List.getLast?_concat, Option.map_some, Option.map_some, he']
    · refine spelled_concat ?_ he'.symm (hx.2.trans htext'.symm)
      exact ((spelled_newline hn _).trans (spelled_newline rfl _)).symm

end Line

/-- The run at the same place of a text with one more line feed. -/
def endLine (r : Run Lexer Pushdown) : Run Lexer Pushdown :=
  { r with source := r.source.endLine }

theorem receive_endLine (x : Lexeme) (kind : Kind) (r : Run Lexer Pushdown) :
    receive x kind r.endLine = ((receive x kind r).1, (receive x kind r).2.endLine) := by
  rw [endLine, receive_source, endLine, (source_receive x kind r).1]

/-- A run over a text that a line feed may end: in the end the input does not break off, and no
comment leaves a block open. -/
structure Endable (g : Grammar) (root : Symbol) (ts : List Token) (r : Run Lexer Pushdown) :
    Prop where
  reading : Reading g root ts r.automaton
  positive : r.source.indents.Positive
  fresh : r.started = false →
    ts = [] ∧ r.automaton.started = false ∧ r.source.indents.depth = 0
  complete : r.source.drain.2.1 ≠ some .endOfFile
  closed : ¬(r.source.drain.2.2.blankLine = true ∧ 0 < r.source.drain.2.2.indents.depth)

/-- A token is taken from such a text, and what is left is such a text. -/
theorem Endable.after (hg : g.Lawful) (h : Endable g root ts r)
    (hnext : r.source.next = (.ok x, lx)) (hx : x.kind ≠ .endMarker)
    (hmore : receive x x.kind { r with source := lx, started := true } = (.more, r')) :
    ∃ ts', Endable g root ts' r' := by
  obtain ⟨ts', hreading⟩ := reading_of_receive hg hmore h.reading
  obtain ⟨hsource, hstarted⟩ := source_receive x x.kind { r with source := lx, started := true }
  rw [hmore] at hsource hstarted
  dsimp only at hsource hstarted
  have hdrain := Lexer.drain_of_token hnext hx
  have hpositive := Lexer.positive_next h.positive
  rw [hnext] at hpositive
  refine ⟨ts', hreading, ?_, ?_, ?_, ?_⟩
  · rwa [hsource]
  · rw [hstarted]
    exact fun hfalse => absurd hfalse (by decide)
  · rw [hsource, ← hdrain]
    exact h.complete
  · rw [hsource, ← hdrain]
    exact h.closed

section Endable

variable {tree' : Node} {rf' : Run Lexer Pushdown}

/-- One token of two runs that were in step and are now at the ends of their texts. -/
theorem receive_together (hg : g.Lawful) (h : Reading g root ts r.automaton) (x : Lexeme)
    (kind : Kind) (halike : Lexer.Alike r.source ly) :
    StepsAlike g root (receive x kind r)
      ((receive x kind r).1, { (receive x kind r).2 with source := ly }) := by
  have hreceived := received hg h x kind
  have hsource := source_receive x kind r
  generalize receive x kind r = a at hreceived hsource
  cases hreceived with
  | pragma => exact .more ⟨.refl h _ _ _ _, rfl, halike⟩
  | more hreading => exact .more ⟨.refl hreading _ _ _ _, rfl, halike⟩
  | accepted hsound => exact .accepted ⟨⟨_, _, .refl hsound⟩, rfl, halike.encoding⟩
  | failed => exact .failed

/-- Both runs go on in step, or the end of the text is in sight. -/
theorem Endable.step (hg : g.Lawful) (he : g.LineEnds root ends)
    (hflags : flags.dontImplyDedent = false) (h : Endable g root ts r)
    (hgives : Gives flags r.endLine tree' rf')
    (hend : tree'.tokens.getLast?.map Token.kind = some .endMarker) :
    (∃ x lx, x.kind ≠ .endMarker ∧ r.source.next = (.ok x, lx) ∧
      r.endLine.source.next = (.ok x, lx.endLine)) ∨
    ∃ tree rf, Gives flags r tree rf ∧ EndsAlike g root tree tree' rf rf' := by
  have hlevel : Level g root ts ts r r.endLine := Level.refl h.reading _ _ _ _
  have hcompares := Lexer.next_compares r.source
  generalize hxnext : r.source.next = a at hcompares
  generalize hynext : r.source.endLine.next = b at hcompares
  have hynext' : r.endLine.source.next = b := hynext
  cases hcompares with
  | fails =>
    have hstep : r.endLine.step flags = _ := step_of_error hynext'
    cases hgives with
    | accepted haccepted =>
      rw [hstep] at haccepted
      cases haccepted
    | more hmore _ =>
      rw [hstep] at hmore
      cases hmore
  | breaksOff =>
    refine absurd ?_ h.complete
    rw [Lexer.drain, Lexer.drainFrom_of_error hxnext]
  | same hx => exact Or.inl ⟨_, _, hx, rfl, hynext'⟩
  | @together x lx ly hx halike =>
    refine Or.inr ?_
    have hxstep := step_of_token flags (r := r) hxnext hx
    have hystep := (step_of_token flags (r := r.endLine) hynext' hx).trans
      (receive_source x x.kind { r with source := lx, started := true } ly)
    refine gives_of_stepsAlike hg ?_ hgives
    rw [hxstep, hystep]
    exact receive_together hg (r := { r with source := lx, started := true }) h.reading x x.kind
      halike
  | alike hnext =>
    have hsteps := step_alike flags hg hlevel rfl (hxnext ▸ hynext' ▸ hnext)
    exact Or.inr (gives_of_stepsAlike hg hsteps hgives)
  | @line x y lx ly hx hy hends hdepth hlive =>
    refine Or.inr ?_
    have hpositive := Lexer.positive_next h.positive
    rw [hxnext] at hpositive
    cases hstarted : r.started with
    | true =>
      exact gives_of_line hg he hflags hlevel hstarted hpositive hxnext hynext' hx hy hends hlive
        hgives hend
    | false =>
      obtain ⟨rfl, hfresh, hzero⟩ := h.fresh hstarted
      exact gives_of_lone_line hg he h.reading hfresh hlevel.reading' rfl hstarted
        (hdepth.trans hzero) hxnext hynext' hx hy hends hgives hend
  | leftOpen hx hblank hdepth =>
    refine absurd ?_ h.closed
    rw [Lexer.drain, Lexer.drainFrom_of_end hxnext hx]
    exact ⟨hblank, hdepth⟩
  | opens hx hopen =>
    refine absurd ?_ h.closed
    rw [Lexer.drain_of_token hxnext hx]
    exact hopen.drain

/-- What a run over a text with a final line feed gives, the run over the text without it gives,
newlines apart. -/
theorem Endable.gives (hg : g.Lawful) (he : g.LineEnds root ends)
    (hflags : flags.dontImplyDedent = false) (hgives : Gives flags r.endLine tree' rf')
    (h : Endable g root ts r)
    (hend : tree'.tokens.getLast?.map Token.kind = some .endMarker) :
    ∃ tree rf, Gives flags r tree rf ∧ EndsAlike g root tree tree' rf rf' := by
  generalize hr : r.endLine = r₀ at hgives
  induction hgives generalizing r ts with
  | @accepted r₀ rf' tree' haccepted =>
    subst hr
    rcases h.step hg he hflags (.accepted haccepted) hend with ⟨x, lx, hx, hxnext, hynext⟩ | hresult
    · have hxstep := step_of_token flags (r := r) hxnext hx
      have hystep := (step_of_token flags (r := r.endLine) hynext hx).trans
        (receive_endLine x x.kind { r with source := lx, started := true })
      have hreceived := received hg h.reading x x.kind
        (r := { r with source := lx, started := true })
      rw [haccepted] at hystep
      rw [← hxstep] at hystep hreceived
      obtain ⟨htree, rfl⟩ := Prod.mk.inj hystep
      generalize hstep : r.step flags = a at htree hreceived
      cases hreceived with
      | accepted hsound =>
        cases htree
        exact ⟨_, _, .accepted hstep, ⟨_, _, .refl hsound⟩, rfl, rfl⟩
      | pragma => cases htree
      | more => cases htree
      | failed => cases htree
    · exact hresult
  | @more r₀ r₁ rf' tree' hmore hrest ih =>
    subst hr
    rcases h.step hg he hflags (.more hmore hrest) hend with ⟨x, lx, hx, hxnext, hynext⟩ | hresult
    · have hxstep := step_of_token flags (r := r) hxnext hx
      have hystep := (step_of_token flags (r := r.endLine) hynext hx).trans
        (receive_endLine x x.kind { r with source := lx, started := true })
      rw [hmore] at hystep
      obtain ⟨hprogress, rfl⟩ := Prod.mk.inj hystep
      have hxmore : receive x x.kind { r with source := lx, started := true } = (.more, _) :=
        Prod.ext hprogress.symm rfl
      obtain ⟨ts₁, hendable⟩ := h.after hg hxnext hx hxmore
      obtain ⟨tree, rf, hgives, halike⟩ := ih hendable hend rfl
      exact ⟨tree, rf, .more (hxstep.trans hxmore) hgives, halike⟩
    · exact hresult

end Endable

end Offside.Run
