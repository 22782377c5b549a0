import Offside.Proofs.Pushdown.Turns

/-!
Hints. Where an automaton refuses a token and says what it expected, it says the truth: some token
of that kind would not have been refused in its place. The hint is taken from the state in which no
more rules could be completed. For the expected token rules are completed up to one that can use it,
which is there at the latest, and what is begun from there is begun for its sake.
-/

namespace Offside.Pushdown

open Grammar

variable {text : List Char} {g : Grammar} {l : Nat} {t : Token} {phase phase' : Phase}
  {p p' : Pushdown} {event : Event} {events : List Event} {verdict : Verdict}
  {r : Verdict × Pushdown} {f : Frame} {below : List Frame} {s : TableState} {k : Kind}

/-- The innermost rule can use the token, or the token has been used. -/
def Usable (l : Nat) (p : Pushdown) : Phase → Prop
  | .before => ∃ f below s, p.stack = f :: below ∧ f.tableState? = some s ∧
      (s.action? l).isSome = true
  | .after => True

theorem Usable.isSome_action? (huse : Usable l p .before) (hstack : p.stack = f :: below)
    (hs : f.tableState? = some s) : (s.action? l).isSome = true := by
  obtain ⟨f', below', s', hstack', hs', haction⟩ := huse
  obtain ⟨rfl, -⟩ := List.cons.inj (hstack.symm.trans hstack')
  obtain rfl := Option.some.inj (hs.symm.trans hs')
  exact haction

/-- A rule that is begun for a token can use it. -/
theorem Usable.of_goes (hg : ofText text = .ok g) (h : Intact g p) (huse : Usable l p phase)
    (hstride : stride l t phase p = .goes event phase' p') : Usable l p' phase' := by
  have hlawful := lawful_of_ofText hg
  have hintact := h.of_goes hg hstride
  have hturn := h.turn hg l t phase
  rw [hstride] at hturn
  cases hturn with
  | shift => trivial
  | push hstack hs haction hrule hroom =>
    obtain ⟨a, -, -, hfirst⟩ := arc_of_push hlawful (h.top hstack).rule hs haction
    obtain ⟨-, rfl⟩ := mem_of_rule? hrule
    obtain ⟨s', hs'⟩ := (hintact.top rfl).exists_tableState hg
    have hfresh : Fresh g l (Frame.enter _ t.line t.column?) := ⟨rfl, hfirst⟩
    exact ⟨_, _, s', rfl, hs', hfresh.isSome_action? hlawful hrule hs'⟩
  | @pop phase f outer below s hstack hs hcompletes =>
    cases phase with
    | before =>
      have haction := huse.isSome_action? hstack hs
      rw [hcompletes.1] at haction
      cases haction
    | after => trivial

/-- A token that the innermost rule can use is not refused. -/
theorem Usable.verdict_ne_reject (hg : ofText text = .ok g) (h : Intact g p)
    (huse : Usable l p phase) (hstride : stride l t phase p = .ends events verdict p')
    (expected? : Option Kind) : verdict ≠ .reject expected? := by
  have hturn := h.turn hg l t phase
  rw [hstride] at hturn
  cases hturn with
  | rest phase hstack =>
    cases phase with
    | before =>
      obtain ⟨f, below, s, hstack', -⟩ := huse
      rw [hstack] at hstack'
      cases hstack'
    | after => exact Verdict.noConfusion
  | full => exact Verdict.noConfusion
  | @popLast phase f s hstack hs hcompletes =>
    cases phase with
    | before =>
      have haction := huse.isSome_action? hstack hs
      rw [hcompletes.1] at haction
      cases haction
    | after => exact Verdict.noConfusion
  | refuse hstack hs hnone haccepting =>
    have haction := huse.isSome_action? hstack hs
    rw [hnone] at haction
    cases haction
  | wait => exact Verdict.noConfusion

/-- So turns that start where the token can be used do not end in a refusal. -/
theorem Runs.ne_reject (hruns : Runs l t phase p events r)
    (hg : ofText text = .ok g) (h : Intact g p) (huse : Usable l p phase)
    (expected? : Option Kind) : r.1 ≠ .reject expected? := by
  induction hruns with
  | ends hstride => exact huse.verdict_ne_reject hg h hstride expected?
  | goes hstride _ ih => exact ih (h.of_goes hg hstride) (huse.of_goes hg h hstride)

/-- A state that expects a kind has an action for a terminal of that kind. -/
theorem exists_action_of_expected? (h : g.expected? s = some k) :
    ∃ a label, g.labels[a]? = some label ∧ label.kind? = some k ∧
      (s.action? a).isSome = true := by
  unfold Grammar.expected? at h
  split at h
  · next a action hactions =>
    obtain ⟨label, hlabel, hkind⟩ := Option.bind_eq_some_iff.1 h
    refine ⟨a, label, hlabel, hkind, ?_⟩
    rw [TableState.action?, hactions, List.lookup_cons_self]
    rfl
  · cases h

/-- No token with a certain label is refused, wherever it stands. -/
def Welcomes (p : Pushdown) (a : Nat) : Prop :=
  ∀ ⦃u : Token⦄ ⦃events : List Event⦄ ⦃r : Verdict × Pushdown⦄, Runs a u .before p events r →
    ∀ expected?, r.1 ≠ .reject expected?

theorem welcomes_of_usable (hg : ofText text = .ok g) (h : Intact g p) {a : Nat}
    (huse : Usable a p .before) : Welcomes p a :=
  fun _ _ _ hruns => hruns.ne_reject hg h huse

/-- A rule that can be completed does not make a label unwelcome: it can use the label, or it is
completed for it. -/
theorem Welcomes.of_pop (hg : ofText text = .ok g) (h : Intact g p) {f outer : Frame}
    {below : List Frame} (hstack : p.stack = f :: outer :: below) (hs : f.tableState? = some s)
    (haccepting : s.accepting = true) {a : Nat}
    (hwelcomes : Welcomes { p with
      future := futureAfter f.node p.future, stack := outer.adopt f.node :: below } a) :
    Welcomes p a := by
  intro u events r hruns
  cases haction : s.action? a with
  | some action =>
    exact welcomes_of_usable hg h ⟨f, outer :: below, s, hstack, hs, by rw [haction]; rfl⟩ hruns
  | none =>
    have hturn : Turn g a u p .before _ := .pop hstack hs ⟨haction, haccepting⟩
    have hstride := hturn.stride_eq h.grammar
    cases hruns with
    | ends hends => cases hstride.symm.trans hends
    | goes hgoes hrest =>
      cases hstride.symm.trans hgoes
      exact hwelcomes hrest

/-- Turns that end in a refusal with a hint started where a terminal of that kind is welcome. -/
theorem Runs.exists_welcomes (hruns : Runs l t phase p events r) (hg : ofText text = .ok g)
    (h : Intact g p) (hr : r.1 = .reject (some k)) :
    ∃ a label, g.labels[a]? = some label ∧ label.kind? = some k ∧ Welcomes p a := by
  induction hruns with
  | @ends phase p p' events verdict hstride =>
    have hturn := h.turn hg l t phase
    rw [hstride] at hturn
    cases hturn with
    | @refuse f below s hstack hs =>
      obtain ⟨a, label, hlabel, hkind, haction⟩ :=
        exists_action_of_expected? (Verdict.reject.inj hr)
      exact ⟨a, label, hlabel, hkind, welcomes_of_usable hg h ⟨f, below, s, hstack, hs, haction⟩⟩
    | rest | popLast => cases phase <;> cases hr
    | full | wait => cases hr
  | @goes phase phase' p p' event events r hstride hrest ih =>
    have hintact := h.of_goes hg hstride
    have hunused (huse : Usable l p phase) : False :=
      hrest.ne_reject hg hintact (huse.of_goes hg h hstride) _ hr
    obtain ⟨a, label, hlabel, hkind, hwelcomes⟩ := ih hintact hr
    refine ⟨a, label, hlabel, hkind, ?_⟩
    have hturn := h.turn hg l t phase
    rw [hstride] at hturn
    cases hturn with
    | shift hstack hs haction => exact (hunused ⟨_, _, _, hstack, hs, by rw [haction]; rfl⟩).elim
    | push hstack hs haction => exact (hunused ⟨_, _, _, hstack, hs, by rw [haction]; rfl⟩).elim
    | pop hstack hs hcompletes =>
      cases phase with
      | before => exact hwelcomes.of_pop hg h hstack hs hcompletes.2
      | after => exact (hunused trivial).elim

/-- Where a token is refused with a hint, some token of that kind would not be. -/
theorem exists_expected_of_intact (hg : ofText text = .ok g) (h : Intact g p)
    (hr : (feed t p).1 = .reject (some k)) :
    ∃ u : Token, u.kind = k ∧ ∀ expected?, (feed u p).1 ≠ .reject expected? := by
  obtain ⟨events, -, hfeeds, -⟩ := h.feed hg t
  generalize feed t p = r at hfeeds hr
  cases hfeeds with
  | unknown => cases hr
  | known _ hruns =>
    obtain ⟨a, label, hlabel, hkind, hwelcomes⟩ := hruns.exists_welcomes hg (h.locate t) hr
    obtain ⟨text, htext⟩ := exists_text (lawful_of_ofText hg) hlabel hkind
    refine ⟨⟨k, text, t.line, t.column?⟩, rfl, ?_⟩
    obtain ⟨events', -, hfeeds', -⟩ := h.feed hg ⟨k, text, t.line, t.column?⟩
    rw [← h.grammar] at htext
    generalize feed ⟨k, text, t.line, t.column?⟩ p = r' at hfeeds'
    cases hfeeds' with
    | unknown hl => cases hl.symm.trans htext
    | known hl hruns' =>
      cases hl.symm.trans htext
      exact hwelcomes hruns'

/-- Hints are truthful. Whatever an automaton was fed before, if it refuses a token and expected a
kind, then some token of that kind, fed to it in place of the other, is not refused. -/
theorem exists_expected_of_ofText {symbol : Symbol} {maxDepth : Nat} (hg : ofText text = .ok g)
    (hp : start? g symbol maxDepth = some p) (ts : List Token)
    (hr : (feed t (feedAll ts p)).1 = .reject (some k)) :
    ∃ u : Token, u.kind = k ∧ ∀ expected?, (feed u (feedAll ts p)).1 ≠ .reject expected? :=
  exists_expected_of_intact hg ((intact_start? hp).feedAll hg ts) hr

/-- One line, which is a row of words. -/
def lineText : List Char := "file_input: stmt NEWLINE ENDMARKER\nstmt: NAME+\n".toList

def lineFile : RuleTable :=
  { symbol := .fileInput
    states := [⟨false, [(0, 1)], [(3, .push .stmt 1)]⟩, ⟨false, [(1, 2)], [(1, .shift 2)]⟩,
      ⟨false, [(2, 3)], [(2, .shift 3)]⟩, ⟨true, [], []⟩]
    first := [3] }

def lineGrammar : Grammar :=
  { labels := [.rule .stmt, .token .newline, .token .endMarker, .token .word]
    rules := [lineFile,
      ⟨.stmt, [⟨false, [(3, 1)], [(3, .shift 1)]⟩, ⟨true, [(3, 1)], [(3, .shift 1)]⟩], [3]⟩] }

def lineAutomaton : Pushdown := ⟨lineGrammar, [Frame.enter lineFile 0 none], 0, 2, false⟩

/-- The end behind a word completes the row, and is refused there: the line is yet to end. -/
theorem exists_expected_of_ofText_line :
    (feed ⟨.endMarker, "", 1, some 1⟩ (feedAll [⟨.word, "a", 1, some 0⟩] lineAutomaton)).1 =
        .reject (some .newline) ∧
      ∃ u : Token, u.kind = .newline ∧ ∀ expected?,
        (feed u (feedAll [⟨.word, "a", 1, some 0⟩] lineAutomaton)).1 ≠ .reject expected? := by
  have hgrammar : ofText lineText = .ok lineGrammar := by decide +kernel
  have hstart : start? lineGrammar .fileInput 2 = some lineAutomaton := rfl
  have hrefused : (feed ⟨.endMarker, "", 1, some 1⟩
      (feedAll [⟨.word, "a", 1, some 0⟩] lineAutomaton)).1 = .reject (some .newline) := by
    cbv
  exact ⟨hrefused, exists_expected_of_ofText hgrammar hstart _ hrefused⟩

end Offside.Pushdown
