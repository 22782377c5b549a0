import Offside.Proofs.Pushdown.Needs

/-!
Caps on the number of rules in progress. A cap does nothing but answer that there is no room: up to
that answer an automaton goes through the states of one with a wider cap, and it gives that answer
just where the other one comes to hold more rules than the cap admits.
-/

namespace Offside.Pushdown

open Grammar

/-- The same automaton with another cap. -/
def capped (d : Nat) (p : Pushdown) : Pushdown := { p with maxDepth := d }

def Stride.capped (d : Nat) : Stride → Stride
  | ends events verdict p => ends events verdict (p.capped d)
  | goes event phase p => goes event phase (p.capped d)

/-- The states that turns go through, the first and the last one included. -/
inductive Passes (l : Nat) (t : Token) : Phase → Pushdown → Pushdown → Prop
  | here {phase : Phase} {p : Pushdown} : Passes l t phase p p
  | ends {phase : Phase} {p p' : Pushdown} {events : List Event} {verdict : Verdict}
      (h : stride l t phase p = .ends events verdict p') : Passes l t phase p p'
  | goes {phase phase' : Phase} {p p' q : Pushdown} {event : Event}
      (h : stride l t phase p = .goes event phase' p') (hrest : Passes l t phase' p' q) :
      Passes l t phase p q

/-- The states that an automaton is in while a token is fed to it. -/
inductive Visits (t : Token) (p : Pushdown) : Pushdown → Prop
  | start : Visits t p p
  | known {l : Nat} {q : Pushdown} (h : p.grammar.classify t.kind t.text = some l)
      (hpasses : Passes l t .before (p.locate t) q) : Visits t p q

variable {text : List Char} {g : Grammar} {l d : Nat} {t : Token} {phase : Phase}
  {p p' q : Pushdown} {event : Event} {events events' : List Event} {r r' : Verdict × Pushdown}
  {taken : Stride} {ts : List Token}

theorem Intact.capped (h : Intact g p) (d : Nat) : Intact g (p.capped d) := ⟨h.grammar, h.onTrack⟩

theorem capped_locate (t : Token) (d : Nat) (p : Pushdown) :
    (p.capped d).locate t = (p.locate t).capped d := by
  unfold locate
  cases hstarted : p.started <;> simp [Pushdown.capped, hstarted]

namespace Turn

/-- A wider cap makes no difference to a turn that there is room for. -/
theorem capped (h : Turn g l t p phase taken) (hfits : taken.Fits) (hd : p.maxDepth ≤ d) :
    Turn g l t (p.capped d) phase (taken.capped d) := by
  cases h with
  | rest _ hstack => exact .rest _ hstack
  | shift hstack hs haction => exact .shift hstack hs haction
  | full => exact absurd rfl hfits
  | push hstack hs haction hrule hroom =>
    exact .push hstack hs haction hrule (Nat.lt_of_lt_of_le hroom hd)
  | pop hstack hs hcompletes => exact .pop hstack hs hcompletes
  | popLast hstack hs hcompletes => exact .popLast hstack hs hcompletes
  | refuse hstack hs haction haccepting => exact .refuse hstack hs haction haccepting
  | wait hstack hs hfinal => exact .wait hstack hs hfinal

/-- A rule is begun only where the cap admits one more. -/
theorem depth_le (h : Turn g l t p phase taken) (hp : p.depth ≤ max 1 p.maxDepth) :
    taken.state.depth ≤ max 1 p.maxDepth := by
  cases h with
  | rest | refuse | wait => exact hp
  | shift hstack | full hstack =>
    rw [depth, hstack] at hp
    exact hp
  | push _ _ _ _ hroom => exact Nat.le_trans hroom (Nat.le_max_right _ _)
  | pop hstack =>
    rw [depth, hstack] at hp
    exact Nat.le_trans (Nat.le_succ _) hp
  | popLast => exact Nat.zero_le _

end Turn

theorem stride_capped (hg : ofText text = .ok g) (h : Intact g p) (hd : p.maxDepth ≤ d)
    (hstride : stride l t phase p = taken) (hfits : taken.Fits) :
    stride l t phase (p.capped d) = taken.capped d := by
  have hturn := h.turn hg l t phase
  rw [hstride] at hturn
  exact (hturn.capped hfits hd).stride_eq h.grammar

/-- At no time are there more rules in progress than the cap admits, but for the outermost one. -/
theorem Passes.depth_le (hpasses : Passes l t phase p q) (hg : ofText text = .ok g)
    (h : Intact g p) (hp : p.depth ≤ max 1 p.maxDepth) : q.depth ≤ max 1 p.maxDepth := by
  induction hpasses with
  | here => exact hp
  | @ends phase p _ _ _ hstride =>
    have hturn := h.turn hg l t phase
    rw [hstride] at hturn
    exact hturn.depth_le hp
  | @goes phase _ p _ _ _ hstride _ ih =>
    have hturn := h.turn hg l t phase
    have hmax := hturn.maxDepth
    have hdepth := hturn.depth_le hp
    rw [hstride] at hmax hdepth
    dsimp only [Stride.state] at hmax hdepth
    rw [← hmax] at hdepth ⊢
    exact ih (h.of_goes hg hstride) hdepth

namespace Runs

theorem passes (hruns : Runs l t phase p events r) : Passes l t phase p r.2 := by
  induction hruns with
  | ends hstride => exact .ends hstride
  | goes hstride _ ih => exact .goes hstride ih

/-- Turns that there is room for are the same under a wider cap. -/
theorem capped (hruns : Runs l t phase p events r) (hg : ofText text = .ok g) (h : Intact g p)
    (hd : p.maxDepth ≤ d) (hr : r.1 ≠ .outOfMemory) :
    Runs l t phase (p.capped d) events (r.1, r.2.capped d) := by
  induction hruns with
  | ends hstride => exact .ends (stride_capped hg h hd hstride hr)
  | goes hstride _ ih =>
    have hmax := maxDepth_of_stride hg h hstride
    exact .goes (stride_capped hg h hd hstride trivial)
      (ih (h.of_goes hg hstride) (hmax.trans_le hd) hr)

/-- They go through the same states. -/
theorem passes_of_capped (hruns : Runs l t phase p events r) (hg : ofText text = .ok g)
    (h : Intact g p) (hd : p.maxDepth ≤ d) (hr : r.1 ≠ .outOfMemory)
    (hpasses : Passes l t phase (p.capped d) q) :
    ∃ p', Passes l t phase p p' ∧ q = p'.capped d := by
  induction hruns with
  | ends hstride =>
    have hstride' := stride_capped hg h hd hstride hr
    cases hpasses with
    | here => exact ⟨_, .here, rfl⟩
    | ends hends =>
      cases hstride'.symm.trans hends
      exact ⟨_, .ends hstride, rfl⟩
    | goes hgoes _ => cases hstride'.symm.trans hgoes
  | goes hstride _ ih =>
    have hmax := maxDepth_of_stride hg h hstride
    have hstride' := stride_capped hg h hd hstride trivial
    cases hpasses with
    | here => exact ⟨_, .here, rfl⟩
    | ends hends => cases hstride'.symm.trans hends
    | goes hgoes hrest =>
      cases hstride'.symm.trans hgoes
      obtain ⟨p', hpasses', rfl⟩ :=
        ih (h.of_goes hg hstride) (hmax.trans_le hd) hr hrest
      exact ⟨p', .goes hstride hpasses', rfl⟩

/-- Where turns end for want of room, under a wider cap that has room they come to hold more rules
than the narrower one admits. -/
theorem exists_deep (hruns : Runs l t phase p events r) (hg : ofText text = .ok g)
    (h : Intact g p) (hd : p.maxDepth ≤ d) (hr : r.1 = .outOfMemory)
    (hruns' : Runs l t phase (p.capped d) events' r') (hr' : r'.1 ≠ .outOfMemory) :
    ∃ q, Passes l t phase (p.capped d) q ∧ max 1 p.maxDepth < q.depth := by
  induction hruns generalizing events' with
  | @ends phase p _ _ _ hstride =>
    have hturn := h.turn hg l t phase
    rw [hstride] at hturn
    cases hturn with
    | rest | popLast => cases phase <;> cases hr
    | refuse | wait => cases hr
    | @full f below s x next hstack hs haction hfull =>
      obtain ⟨table, htable⟩ := h.exists_rule hg hstack hs haction
      rcases Nat.lt_or_ge (below.length + 1) d with hroom | hfull'
      · have hturn' : Turn g l t (p.capped d) .before _ := .push hstack hs haction htable hroom
        refine ⟨_, .goes (hturn'.stride_eq h.grammar) .here, ?_⟩
        show max 1 p.maxDepth < below.length + 1 + 1
        omega
      · have hturn' : Turn g l t (p.capped d) .before _ := .full hstack hs haction hfull'
        have hstride' := hturn'.stride_eq h.grammar
        cases hruns' with
        | ends hends =>
          cases hstride'.symm.trans hends
          exact absurd rfl hr'
        | goes hgoes _ => cases hstride'.symm.trans hgoes
  | goes hstride _ ih =>
    have hmax := maxDepth_of_stride hg h hstride
    have hstride' := stride_capped hg h hd hstride trivial
    cases hruns' with
    | ends hends => cases hstride'.symm.trans hends
    | goes hgoes hrest =>
      cases hstride'.symm.trans hgoes
      obtain ⟨q, hpasses, hdeep⟩ :=
        ih (h.of_goes hg hstride) (hmax.trans_le hd) hr hrest
      dsimp only [Stride.state] at hmax
      rw [hmax] at hdeep
      exact ⟨q, .goes hstride' hpasses, hdeep⟩

end Runs

theorem Feeds.capped (hfeeds : Feeds t p events r) (hg : ofText text = .ok g) (h : Intact g p)
    (hd : p.maxDepth ≤ d) (hr : r.1 ≠ .outOfMemory) :
    Feeds t (p.capped d) events (r.1, r.2.capped d) := by
  cases hfeeds with
  | unknown hl => exact .unknown hl
  | known hl hruns =>
    refine .known hl ?_
    rw [capped_locate]
    exact hruns.capped hg (h.locate t) ((maxDepth_locate t p).trans_le hd) hr

section Feeding

variable (hg : ofText text = .ok g) (h : Intact g p)

include hg h

theorem visits_feed (t : Token) : Visits t p (feed t p).2 := by
  obtain ⟨events, -, hfeeds, -⟩ := h.feed hg t
  generalize feed t p = r at hfeeds ⊢
  cases hfeeds with
  | unknown => exact .start
  | known hl hruns => exact .known hl hruns.passes

theorem depth_le_of_visits (hp : p.depth ≤ max 1 p.maxDepth) (hvisits : Visits t p q) :
    q.depth ≤ max 1 p.maxDepth := by
  cases hvisits with
  | start => exact hp
  | known _ hpasses =>
    have hdepth := hpasses.depth_le hg (h.locate t)
    rw [depth_locate, maxDepth_locate] at hdepth
    exact hdepth hp

theorem feed_capped (hd : p.maxDepth ≤ d) (hr : (feed t p).1 ≠ .outOfMemory) :
    feed t (p.capped d) = ((feed t p).1, (feed t p).2.capped d) := by
  obtain ⟨events, -, hfeeds, -⟩ := h.feed hg t
  obtain ⟨events', -, hfeeds', -⟩ := (h.capped d).feed hg t
  exact ((hfeeds.capped hg h hd hr).unique hfeeds').2

/-- There is no room for a token just where under a wider cap, which has room for it, more rules
come to be in progress than the narrower one admits. -/
theorem feed_eq_outOfMemory_iff (hp : p.depth ≤ max 1 p.maxDepth) (hd : p.maxDepth ≤ d)
    (hfits : (feed t (p.capped d)).1 ≠ .outOfMemory) :
    (feed t p).1 = .outOfMemory ↔
      ∃ q, Visits t (p.capped d) q ∧ max 1 p.maxDepth < q.depth := by
  obtain ⟨events, -, hfeeds, -⟩ := h.feed hg t
  obtain ⟨events', -, hfeeds', -⟩ := (h.capped d).feed hg t
  have hvisit (p' : Pushdown) (hvisits : Visits t p p') : ¬max 1 p.maxDepth < (p'.capped d).depth :=
    Nat.not_lt.2 (depth_le_of_visits (q := p') hg h hp hvisits)
  generalize feed t p = r at hfeeds ⊢
  generalize feed t (p.capped d) = r' at hfeeds' hfits
  constructor
  · intro hr
    cases hfeeds with
    | unknown => cases hr
    | known hl hruns =>
      cases hfeeds' with
      | unknown hl' => cases hl.symm.trans hl'
      | known hl' hruns' =>
        cases hl.symm.trans hl'
        rw [capped_locate] at hruns'
        obtain ⟨q, hpasses, hdeep⟩ := hruns.exists_deep hg (h.locate t)
          ((maxDepth_locate t p).trans_le hd) hr hruns' hfits
        rw [← capped_locate] at hpasses
        rw [maxDepth_locate] at hdeep
        exact ⟨q, .known hl hpasses, hdeep⟩
  · rintro ⟨q, hvisits, hdeep⟩
    by_contra hr
    cases hvisits with
    | start => exact hvisit p .start hdeep
    | known hl' hpasses =>
      cases hfeeds with
      | unknown hl => cases hl.symm.trans hl'
      | known hl hruns =>
        cases hl.symm.trans hl'
        rw [capped_locate] at hpasses
        obtain ⟨p', hpasses', rfl⟩ := hruns.passes_of_capped hg (h.locate t)
          ((maxDepth_locate t p).trans_le hd) hr hpasses
        exact hvisit p' (.known hl hpasses') hdeep

end Feeding

/-- As long as there is room, answers and states are those under a wider cap. -/
theorem answers_capped (hg : ofText text = .ok g) (h : Intact g p) (hd : p.maxDepth ≤ d)
    (ts : List Token) (hfits : .outOfMemory ∉ answers ts p) :
    answers ts (p.capped d) = answers ts p ∧
      feedAll ts (p.capped d) = (feedAll ts p).capped d := by
  induction ts generalizing p with
  | nil => exact ⟨rfl, rfl⟩
  | cons t ts ih =>
    rw [answers, List.mem_cons, not_or] at hfits
    have hfeed := feed_capped hg h hd (Ne.symm hfits.1)
    obtain ⟨-, -, -, hfed⟩ := h.feed hg t
    obtain ⟨hanswers, hstate⟩ := ih hfed ((maxDepth_feed hg h t).trans_le hd) hfits.2
    constructor
    · rw [answers, answers, hfeed, hanswers]
    · rw [feedAll, List.foldl_cons, hfeed]
      exact hstate

theorem feedAll_depth_le (hg : ofText text = .ok g) (h : Intact g p)
    (hp : p.depth ≤ max 1 p.maxDepth) (ts : List Token) :
    (feedAll ts p).maxDepth = p.maxDepth ∧ (feedAll ts p).depth ≤ max 1 p.maxDepth := by
  induction ts generalizing p with
  | nil => exact ⟨rfl, hp⟩
  | cons t ts ih =>
    obtain ⟨-, -, -, hfed⟩ := h.feed hg t
    have hmax := maxDepth_feed hg h t
    have hdepth := depth_le_of_visits hg h hp (visits_feed hg h t)
    obtain ⟨hmax', hdepth'⟩ := ih hfed (by rw [hmax]; exact hdepth)
    rw [hmax] at hmax' hdepth'
    exact ⟨hmax', hdepth'⟩

theorem start?_capped {symbol : Symbol} {d' : Nat} (hp : start? g symbol d = some p)
    (hq : start? g symbol d' = some q) : q = p.capped d' := by
  obtain ⟨table, htable, rfl⟩ := Option.map_eq_some_iff.1 hp
  obtain ⟨table', htable', rfl⟩ := Option.map_eq_some_iff.1 hq
  obtain rfl := Option.some.inj (htable.symm.trans htable')
  rfl

theorem answers_append (ts ts' : List Token) (p : Pushdown) :
    answers (ts ++ ts') p = answers ts p ++ answers ts' (feedAll ts p) := by
  induction ts generalizing p with
  | nil => rfl
  | cons t ts ih => exact congrArg _ (ih _)

/-- What a cap does. Two automata that are alike but for their caps give the same answers and are in
the same states as long as the narrower one does not run out of room; at no time does that one have
more rules in progress than its cap admits, but for the outermost one; it runs out of room at a
token just where the other one, if it has room for all tokens, comes to have more rules in progress
than that; and a cap that allows for each token to begin all rules is one that has room. -/
theorem caps_of_ofText {symbol : Symbol} {d' : Nat} (hg : ofText text = .ok g)
    (hp : start? g symbol d = some p) (hq : start? g symbol d' = some q) (hd : d ≤ d') :
    (∀ ts, .outOfMemory ∉ answers ts p →
      answers ts q = answers ts p ∧ feedAll ts q = (feedAll ts p).capped d') ∧
    (∀ ts t p', Visits t (feedAll ts p) p' → p'.depth ≤ max 1 d) ∧
    (∀ ts t, .outOfMemory ∉ answers ts p → .outOfMemory ∉ answers (ts ++ [t]) q →
      ((feed t (feedAll ts p)).1 = .outOfMemory ↔
        ∃ q', Visits t (feedAll ts q) q' ∧ max 1 d < q'.depth)) ∧
    (∀ ts : List Token, 1 + ts.length * Symbol.all.length ≤ d' → .outOfMemory ∉ answers ts q) := by
  have hintact := intact_start? hp
  have hmax : p.maxDepth = d := by
    obtain ⟨table, -, rfl⟩ := Option.map_eq_some_iff.1 hp
    rfl
  have hone : p.depth = 1 := by
    obtain ⟨table, -, rfl⟩ := Option.map_eq_some_iff.1 hp
    rfl
  obtain rfl := start?_capped hp hq
  have hdepth := feedAll_depth_le hg hintact (hone.trans_le (Nat.le_max_left _ _))
  have hsame (ts : List Token) := answers_capped hg hintact (hmax.trans_le hd) ts
  rw [hmax] at hdepth
  refine ⟨hsame, fun ts t p' hvisits => ?_, fun ts t hts hfits => ?_, fun ts hroom => ?_⟩
  · obtain ⟨hmaxAll, hdepthAll⟩ := hdepth ts
    rw [← hmaxAll] at hdepthAll ⊢
    exact depth_le_of_visits hg (hintact.feedAll hg ts) hdepthAll hvisits
  · obtain ⟨hmaxAll, hdepthAll⟩ := hdepth ts
    rw [answers_append, List.mem_append, not_or, (hsame ts hts).2] at hfits
    rw [(hsame ts hts).2, ← hmaxAll]
    rw [← hmaxAll] at hdepthAll
    refine feed_eq_outOfMemory_iff hg (hintact.feedAll hg ts) hdepthAll
      (hmaxAll.trans_le hd) fun hout => hfits.2 ?_
    rw [answers, hout]
    exact List.mem_cons_self
  · exact answers_fit hg (hintact.capped d') ts (hone ▸ hroom)

/-- A word begins a line, and one rule is already in progress. -/
theorem caps_of_ofText_wordLines :
    (feed ⟨.word, "a", 1, some 0⟩ (WordLines.automaton.capped 1)).1 = .outOfMemory ∧
      ∃ q, Visits ⟨.word, "a", 1, some 0⟩ WordLines.automaton q ∧ max 1 1 < q.depth := by
  have hstart : start? WordLines.grammar .fileInput 1 = some (WordLines.automaton.capped 1) := rfl
  have hfits : .outOfMemory ∉ answers ([] ++ [⟨.word, "a", 1, some 0⟩]) WordLines.automaton := by
    decide +kernel
  have hout : (feed ⟨.word, "a", 1, some 0⟩ (WordLines.automaton.capped 1)).1 = .outOfMemory := by
    cbv
  obtain ⟨-, -, hiff, -⟩ :=
    caps_of_ofText WordLines.ofText_text hstart WordLines.start?_eq (by decide)
  exact ⟨hout, (hiff [] ⟨.word, "a", 1, some 0⟩ List.not_mem_nil hfits).1 hout⟩

end Offside.Pushdown
