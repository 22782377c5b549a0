import Offside.Proofs.Pushdown.Traces

/-!
Turns of an automaton whose rules in progress are on track. All that a turn of its loops can come to
is told here once, with what was looked at. No turn is lost for something that is missing, the rules
stay on track, and the cap on their number stays as it is.
-/

namespace Offside.Pushdown

open Grammar

namespace Phase

/-- What is answered when no rule is in progress. -/
def atRest : Phase → Verdict
  | before => .reject none
  | after => .more

/-- What is answered when the outermost rule is completed. -/
def atEnd (tree : Node) : Phase → Verdict
  | before => .reject none
  | after => .accept tree

/-- Whether a rule is completed in a state: before the token because it cannot use it, and after
the token because it cannot go on. -/
def Completes (l : Nat) (s : TableState) : Phase → Prop
  | before => s.action? l = none ∧ s.accepting = true
  | after => s.isFinal = true

end Phase

/-- What a turn comes to. -/
inductive Turn (g : Grammar) (l : Nat) (t : Token) (p : Pushdown) : Phase → Stride → Prop
  | rest (phase : Phase) (hstack : p.stack = []) : Turn g l t p phase (.ends [] phase.atRest p)
  | shift {f : Frame} {below : List Frame} {s : TableState} {next : Nat}
      (hstack : p.stack = f :: below) (hs : f.tableState? = some s)
      (haction : s.action? l = some (.shift next)) :
      Turn g l t p .before
        (.goes .shift .after { p with stack := (f.goto next).adopt (.leaf t) :: below })
  | full {f : Frame} {below : List Frame} {s : TableState} {x : Symbol} {next : Nat}
      (hstack : p.stack = f :: below) (hs : f.tableState? = some s)
      (haction : s.action? l = some (.push x next)) (hfull : p.maxDepth ≤ below.length + 1) :
      Turn g l t p .before (.ends [] .outOfMemory { p with stack := f.goto next :: below })
  | push {f : Frame} {below : List Frame} {s : TableState} {x : Symbol} {next : Nat}
      {table : RuleTable} (hstack : p.stack = f :: below) (hs : f.tableState? = some s)
      (haction : s.action? l = some (.push x next)) (hrule : g.rule? x = some table)
      (hroom : below.length + 1 < p.maxDepth) :
      Turn g l t p .before (.goes (.push x) .before
        { p with stack := Frame.enter table t.line t.column? :: f.goto next :: below })
  | pop {phase : Phase} {f outer : Frame} {below : List Frame} {s : TableState}
      (hstack : p.stack = f :: outer :: below) (hs : f.tableState? = some s)
      (hcompletes : phase.Completes l s) :
      Turn g l t p phase (.goes (.pop f.table.symbol) phase { p with
        future := futureAfter f.node p.future, stack := outer.adopt f.node :: below })
  | popLast {phase : Phase} {f : Frame} {s : TableState} (hstack : p.stack = [f])
      (hs : f.tableState? = some s) (hcompletes : phase.Completes l s) :
      Turn g l t p phase (.ends [.pop f.table.symbol] (phase.atEnd f.node)
        { p with future := futureAfter f.node p.future, stack := [] })
  | refuse {f : Frame} {below : List Frame} {s : TableState} (hstack : p.stack = f :: below)
      (hs : f.tableState? = some s) (haction : s.action? l = none)
      (haccepting : s.accepting = false) :
      Turn g l t p .before (.ends [] (.reject (g.expected? s)) p)
  | wait {f : Frame} {below : List Frame} {s : TableState} (hstack : p.stack = f :: below)
      (hs : f.tableState? = some s) (hfinal : ¬s.isFinal = true) :
      Turn g l t p .after (.ends [] .more p)

/-- The state behind a turn. -/
def Stride.state : Stride → Pushdown
  | ends _ _ p => p
  | goes _ _ p => p

variable {text : List Char} {g : Grammar} {l : Nat} {t : Token} {phase phase' : Phase}
  {p p' : Pushdown} {event : Event} {events : List Event} {verdict : Verdict} {f : Frame}
  {below : List Frame} {s : TableState} {taken : Stride}

/-- What was looked at leaves no choice. -/
theorem Turn.stride_eq (h : Turn g l t p phase taken) (hgrammar : p.grammar = g) :
    stride l t phase p = taken := by
  unfold stride
  cases h with
  | rest _ hstack =>
    rw [hstack]
    cases phase <;> rfl
  | shift hstack hs haction =>
    simp only [hstack, hs, strideBefore, haction, Pushdown.shift]
  | full hstack hs haction hfull =>
    simp only [hstack, hs, strideBefore, haction]
    exact if_pos hfull
  | push hstack hs haction hrule hroom =>
    simp only [hstack, hs, strideBefore, haction, hgrammar, hrule]
    exact if_neg (Nat.not_le.2 hroom)
  | pop hstack hs hcompletes =>
    cases phase with
    | before =>
      simp only [hstack, hs, strideBefore, hcompletes.1, if_pos hcompletes.2, pop_inner hstack]
    | after =>
      have hfinal : _ = true := hcompletes
      simp only [hstack, hs, strideAfter, if_pos hfinal, pop_inner hstack]
  | popLast hstack hs hcompletes =>
    cases phase with
    | before =>
      simp only [hstack, hs, strideBefore, hcompletes.1, if_pos hcompletes.2, pop_outermost hstack]
      rfl
    | after =>
      have hfinal : _ = true := hcompletes
      simp only [hstack, hs, strideAfter, if_pos hfinal, pop_outermost hstack]
      rfl
  | refuse hstack hs haction haccepting =>
    simp only [hstack, hs, strideBefore, haction, haccepting, hgrammar]
    rfl
  | wait hstack hs hfinal => simp only [hstack, hs, strideAfter, if_neg hfinal]

theorem Turn.maxDepth (h : Turn g l t p phase taken) : taken.state.maxDepth = p.maxDepth := by
  cases h <;> rfl

theorem exists_turn_of_completes (hstack : p.stack = f :: below) (hs : f.tableState? = some s)
    (hcompletes : phase.Completes l s) : ∃ taken, Turn g l t p phase taken := by
  cases below with
  | nil => exact ⟨_, .popLast hstack hs hcompletes⟩
  | cons outer below => exact ⟨_, .pop hstack hs hcompletes⟩

namespace Intact

/-- What the innermost rule begins has a rule. -/
theorem exists_rule (hg : ofText text = .ok g) (h : Intact g p) (hstack : p.stack = f :: below)
    (hs : f.tableState? = some s) {x : Symbol} {next : Nat}
    (haction : s.action? l = some (.push x next)) : ∃ table, g.rule? x = some table := by
  have hlawful := lawful_of_ofText hg
  obtain ⟨a, -, hx, -⟩ := arc_of_push hlawful (h.top hstack).rule hs haction
  exact Option.isSome_iff_exists.1 (hlawful.rule_isSome (List.mem_of_getElem? hx))

theorem exists_turn (hg : ofText text = .ok g) (h : Intact g p) (l : Nat) (t : Token)
    (phase : Phase) : ∃ taken, Turn g l t p phase taken := by
  cases hstack : p.stack with
  | nil => exact ⟨_, .rest phase hstack⟩
  | cons f below =>
    obtain ⟨s, hs⟩ := (h.top hstack).exists_tableState hg
    cases phase with
    | before =>
      cases haction : s.action? l with
      | none =>
        cases haccepting : s.accepting with
        | false => exact ⟨_, .refuse hstack hs haction haccepting⟩
        | true => exact exists_turn_of_completes hstack hs ⟨haction, haccepting⟩
      | some action =>
        cases action with
        | shift next => exact ⟨_, .shift hstack hs haction⟩
        | push x next =>
          obtain ⟨table, htable⟩ := h.exists_rule hg hstack hs haction
          rcases Nat.lt_or_ge (below.length + 1) p.maxDepth with hroom | hfull
          · exact ⟨_, .push hstack hs haction htable hroom⟩
          · exact ⟨_, .full hstack hs haction hfull⟩
    | after =>
      by_cases hfinal : s.isFinal = true
      · exact exists_turn_of_completes hstack hs hfinal
      · exact ⟨_, .wait hstack hs hfinal⟩

/-- Where the rules are on track, no turn is lost for a state or a rule that is missing. -/
theorem turn (hg : ofText text = .ok g) (h : Intact g p) (l : Nat) (t : Token) (phase : Phase) :
    Turn g l t p phase (stride l t phase p) := by
  obtain ⟨taken, htaken⟩ := h.exists_turn hg l t phase
  rw [htaken.stride_eq h.grammar]
  exact htaken

/-- A turn leaves the rules on track. -/
theorem of_goes (hg : ofText text = .ok g) (h : Intact g p)
    (hstride : stride l t phase p = .goes event phase' p') : Intact g p' := by
  have hlawful := lawful_of_ofText hg
  have hturn := h.turn hg l t phase
  rw [hstride] at hturn
  cases hturn with
  | @shift f below s next hstack hs haction =>
    have hf := (h.top hstack).rule
    have hgoto := h.goto hlawful hstack hs (arc_of_shift hlawful hf hs haction)
    have hadopt : OnTrack g ((f.goto next).adopt (.leaf t)) := ⟨hgoto.rule, hgoto.state⟩
    exact h.replaceTop hstack hadopt p.future
  | push hstack hs haction hrule hroom =>
    obtain ⟨a, harc, -, -⟩ := arc_of_push hlawful (h.top hstack).rule hs haction
    have hgoto := h.replaceTop hstack (h.goto hlawful hstack hs harc) p.future
    obtain ⟨-, rfl⟩ := mem_of_rule? hrule
    refine ⟨h.grammar, fun f' hf' => ?_⟩
    rcases List.mem_cons.1 hf' with rfl | hf'
    · exact ⟨hrule, [], rfl⟩
    · exact hgoto.onTrack f' hf'
  | pop hstack _ _ => exact h.popInner hstack

end Intact

theorem maxDepth_locate (t : Token) (p : Pushdown) : (p.locate t).maxDepth = p.maxDepth := by
  unfold locate
  split <;> rfl

theorem depth_locate (t : Token) (p : Pushdown) : (p.locate t).depth = p.depth := by
  unfold locate
  split
  · rfl
  · exact List.length_map _

theorem maxDepth_of_stride (hg : ofText text = .ok g) (h : Intact g p)
    (hstride : stride l t phase p = taken) : taken.state.maxDepth = p.maxDepth := by
  subst hstride
  exact (h.turn hg l t phase).maxDepth

theorem Runs.maxDepth (hruns : Runs l t phase p events r) (hg : ofText text = .ok g)
    (h : Intact g p) : r.2.maxDepth = p.maxDepth := by
  induction hruns with
  | ends hstride => exact maxDepth_of_stride hg h hstride
  | goes hstride _ ih => exact (ih (h.of_goes hg hstride)).trans (maxDepth_of_stride hg h hstride)

/-- No token changes the cap. -/
theorem maxDepth_feed (hg : ofText text = .ok g) (h : Intact g p) (t : Token) :
    (feed t p).2.maxDepth = p.maxDepth := by
  obtain ⟨events, -, hfeeds, -⟩ := h.feed hg t
  generalize feed t p = r at hfeeds ⊢
  cases hfeeds with
  | unknown => rfl
  | known _ hruns => exact (hruns.maxDepth hg (h.locate t)).trans (maxDepth_locate t p)

end Offside.Pushdown
