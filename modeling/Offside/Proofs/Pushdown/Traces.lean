import Offside.Proofs.Grammar.Productive
import Offside.Proofs.Pushdown.Moves

/-!
What an automaton does with its stack for one token. Its two loops, in which rules are completed
and begun up to the token and completed behind it, have no bound on their turns, and they would stop
at a state that is not in its table or at a symbol that has no rule. Whatever an automaton was fed
before, they end, they meet neither, and the rules are completed first and begun then, none of them
twice.
-/

namespace Offside.Pushdown

open Grammar

/-- What happens to the stack, and what an automaton could not cope with. -/
inductive Event
  | pop (symbol : Symbol)
  | push (symbol : Symbol)
  | shift
  /-- The innermost rule is in a state that its table lacks. -/
  | noState
  /-- The grammar lacks a rule that is called for. -/
  | noRule (symbol : Symbol)
  deriving DecidableEq

/-- Whether the token is yet to be consumed. -/
inductive Phase
  | before | after
  deriving DecidableEq

/-- What a turn of the loop in a phase comes to. -/
inductive Stride
  | ends (events : List Event) (verdict : Verdict) (p : Pushdown)
  | goes (event : Event) (phase : Phase) (p : Pushdown)

/-- A turn before the token is consumed, in a state of the innermost rule. -/
def strideBefore (l : Nat) (t : Token) (f : Frame) (below : List Frame) (s : TableState)
    (p : Pushdown) : Stride :=
  match s.action? l with
  | some (.shift next) => .goes .shift .after (p.shift t next)
  | some (.push x next) =>
    let p := { p with stack := f.goto next :: below }
    if p.maxDepth ≤ p.depth then .ends [] .outOfMemory p
    else
      match p.grammar.rule? x with
      | none => .ends [.noRule x] (.reject none) p
      | some table =>
        .goes (.push x) .before { p with stack := Frame.enter table t.line t.column? :: p.stack }
  | none =>
    if s.accepting then
      match p.pop with
      | (some _, p) => .ends [.pop f.table.symbol] (.reject none) p
      | (none, p) => .goes (.pop f.table.symbol) .before p
    else .ends [] (.reject (p.grammar.expected? s)) p

/-- A turn after the token was consumed. -/
def strideAfter (f : Frame) (s : TableState) (p : Pushdown) : Stride :=
  if s.isFinal then
    match p.pop with
    | (some tree, p) => .ends [.pop f.table.symbol] (.accept tree) p
    | (none, p) => .goes (.pop f.table.symbol) .after p
  else .ends [] .more p

/-- A turn of the loop, which looks at the innermost rule and its state. -/
def stride (l : Nat) (t : Token) (phase : Phase) (p : Pushdown) : Stride :=
  match p.stack with
  | [] => .ends [] (match phase with | .before => .reject none | .after => .more) p
  | f :: below =>
    match f.tableState? with
    | none => .ends [.noState] (match phase with | .before => .reject none | .after => .more) p
    | some s =>
      match phase with
      | .before => strideBefore l t f below s p
      | .after => strideAfter f s p

/-- The turns end with a verdict, after some events. -/
inductive Runs (l : Nat) (t : Token) : Phase → Pushdown → List Event → Verdict × Pushdown → Prop
  | ends {phase : Phase} {p p' : Pushdown} {events : List Event} {verdict : Verdict}
      (h : stride l t phase p = .ends events verdict p') : Runs l t phase p events (verdict, p')
  | goes {phase phase' : Phase} {p p' : Pushdown} {event : Event} {events : List Event}
      {r : Verdict × Pushdown} (h : stride l t phase p = .goes event phase' p')
      (hrest : Runs l t phase' p' events r) : Runs l t phase p (event :: events) r

/-- A token is fed, with no bound on the turns that it takes. -/
inductive Feeds (t : Token) (p : Pushdown) : List Event → Verdict × Pushdown → Prop
  | unknown (h : p.grammar.classify t.kind t.text = none) : Feeds t p [] (.reject none, p)
  | known {l : Nat} {events : List Event} {r : Verdict × Pushdown}
      (h : p.grammar.classify t.kind t.text = some l)
      (hruns : Runs l t .before (p.locate t) events r) : Feeds t p events r

/-- The token is consumed and rules are completed, or it is not. -/
def Consumes (events : List Event) : Prop :=
  events = [] ∨ ∃ pops : List Symbol, events = .shift :: pops.map .pop

/-- Rules are completed, then rules are begun, none of them twice, and then the token is consumed
and rules are completed, or it is not. -/
def Orderly (events : List Event) : Prop :=
  ∃ (pops pushes : List Symbol) (rest : List Event),
    events = pops.map .pop ++ (pushes.map .push ++ rest) ∧ pushes.Nodup ∧ Consumes rest

variable {g : Grammar} {l : Nat} {t : Token} {phase : Phase} {p p' : Pushdown}
  {events events' : List Event} {r r' : Verdict × Pushdown} {f : Frame} {below : List Frame}

/-- The loops leave no choice. -/
theorem Runs.unique (h : Runs l t phase p events r) (h' : Runs l t phase p events' r') :
    events' = events ∧ r' = r := by
  induction h generalizing events' with
  | ends hends =>
    cases h' with
    | ends hends' =>
      cases hends.symm.trans hends'
      exact ⟨rfl, rfl⟩
    | goes hgoes _ => cases hends.symm.trans hgoes
  | goes hgoes _ ih =>
    cases h' with
    | ends hends' => cases hgoes.symm.trans hends'
    | goes hgoes' hrest =>
      cases hgoes.symm.trans hgoes'
      obtain ⟨rfl, rfl⟩ := ih hrest
      exact ⟨rfl, rfl⟩

theorem Feeds.unique (h : Feeds t p events r) (h' : Feeds t p events' r') :
    events' = events ∧ r' = r := by
  cases h with
  | unknown hl =>
    cases h' with
    | unknown => exact ⟨rfl, rfl⟩
    | known hl' => cases hl.symm.trans hl'
  | known hl hruns =>
    cases h' with
    | unknown hl' => cases hl.symm.trans hl'
    | known hl' hruns' =>
      cases hl.symm.trans hl'
      exact hruns.unique hruns'

/-- A rule in progress has the table of the grammar for it, and a state that its automaton can
come to. -/
structure OnTrack (g : Grammar) (f : Frame) : Prop where
  rule : g.rule? f.table.symbol = some f.table
  state : ∃ labels, Dfa.run f.table.dfa 0 labels = some f.state

theorem OnTrack.exists_tableState {text : List Char} (hg : ofText text = .ok g)
    (h : OnTrack g f) : ∃ s, f.tableState? = some s := by
  obtain ⟨labels, hrun⟩ := h.state
  obtain ⟨v, haccepts, -⟩ := exists_continuation hg (mem_of_rule? h.rule).1 hrun
  have hstate : f.table.dfa[f.state]?.isSome = true := by
    by_contra hnone
    rw [Option.not_isSome_iff_eq_none] at hnone
    cases v with
    | nil => simp [Dfa.acceptsFrom_nil, Dfa.isAccepting, hnone] at haccepts
    | cons a v => simp [Dfa.acceptsFrom_cons, Dfa.next?, hnone] at haccepts
  rw [RuleTable.dfa, List.getElem?_map, Option.isSome_map] at hstate
  exact Option.isSome_iff_exists.1 hstate

theorem unwind_eq (l : Nat) (t : Token) (p : Pushdown) :
    p.unwind =
      match stride l t .after p with
      | .ends _ verdict p' => (verdict, p')
      | .goes _ _ p' => p'.unwind := by
  rw [unwind]
  split
  · next hstack => simp only [stride, hstack]
  · next f below hstack =>
    cases hs : f.tableState? with
    | none =>
      have hopen : ¬f.isFinal = true := by simp [Frame.isFinal, hs]
      rw [if_neg hopen]
      simp only [stride, hstack, hs]
    | some s =>
      have hfinal : f.isFinal = s.isFinal := by simp [Frame.isFinal, hs]
      rw [hfinal]
      simp only [stride, hstack, hs, strideAfter]
      split
      · split
        · next hpop => rw [hpop]
        · next hpop => rw [hpop]
      · rfl

/-- With fuel left, a run takes a turn. -/
theorem run_succ (l : Nat) (t : Token) (fuel : Nat) (p : Pushdown) :
    run l t (fuel + 1) p =
      match stride l t .before p with
      | .ends _ verdict p' => (verdict, p')
      | .goes _ .before p' => run l t fuel p'
      | .goes _ .after p' => p'.unwind := by
  rw [run, stride]
  cases hstack : p.stack with
  | nil => rfl
  | cons f below =>
    cases hs : f.tableState? with
    | none => simp only [moveOf, hs]
    | some s =>
      simp only [moveOf, hs, strideBefore]
      cases haction : s.action? l with
      | none =>
        cases s.accepting with
        | false => rfl
        | true =>
          rcases p.pop with ⟨_ | tree, p'⟩
          all_goals rfl
      | some a =>
        cases a with
        | shift next => rfl
        | push x next =>
          simp only [push, hstack]
          by_cases hfull : p.maxDepth ≤ ({ p with stack := f.goto next :: below } : Pushdown).depth
          · simp only [if_pos hfull]
          · simp only [if_neg hfull]
            cases p.grammar.rule? x
            all_goals rfl

/-- An automaton all of whose rules in progress are on track. -/
structure Intact (g : Grammar) (p : Pushdown) : Prop where
  grammar : p.grammar = g
  onTrack : ∀ f ∈ p.stack, OnTrack g f

namespace Intact

variable {text : List Char} {outer : Frame} {s : TableState} {next : Nat} {x : Symbol}
  {rank : Symbol → Nat} {fuel : Nat}

theorem ruled (h : Intact g p) : Ruled g p.stack := fun f hf => (h.onTrack f hf).rule

theorem top (h : Intact g p) (hstack : p.stack = f :: below) : OnTrack g f :=
  h.onTrack f (hstack ▸ List.mem_cons_self)

/-- What is known of the innermost rule may be learned anew. -/
theorem replaceTop (h : Intact g p) (hstack : p.stack = f :: below) {f' : Frame}
    (hf' : OnTrack g f') (future : Future) :
    Intact g { p with future := future, stack := f' :: below } := by
  refine ⟨h.grammar, fun f'' hf'' => ?_⟩
  rcases List.mem_cons.1 hf'' with rfl | hf''
  · exact hf'
  · exact h.onTrack f'' (hstack ▸ List.mem_cons_of_mem _ hf'')

theorem popInner (h : Intact g p) (hstack : p.stack = f :: outer :: below) :
    Intact g { p with
      future := futureAfter f.node p.future, stack := outer.adopt f.node :: below } := by
  have hbelow : Intact g { p with stack := outer :: below } :=
    ⟨h.grammar, fun f' hf' => h.onTrack f' (hstack ▸ List.mem_cons_of_mem _ hf')⟩
  have houter := hbelow.top rfl
  have hadopt : OnTrack g (outer.adopt f.node) := ⟨houter.rule, houter.state⟩
  exact hbelow.replaceTop rfl hadopt _

/-- A rule that goes along an arc stays on track. -/
theorem goto (hg : g.Lawful) (h : Intact g p) (hstack : p.stack = f :: below)
    (hs : f.tableState? = some s) {a : Nat} (harc : (a, next) ∈ s.arcs) :
    OnTrack g (f.goto next) := by
  obtain ⟨hrule, labels, hrun⟩ := h.top hstack
  refine ⟨hrule, labels ++ [a], ?_⟩
  calc Dfa.run f.table.dfa 0 (labels ++ [a])
      = (Dfa.run f.table.dfa 0 labels).bind fun r => Dfa.next? f.table.dfa r a := Dfa.run_concat
    _ = some next := by rw [hrun, Option.bind_some, Frame.next?_dfa hg hrule hs harc]

/-- Behind the token, rules are completed and nothing else happens. -/
theorem unwind (hg : ofText text = .ok g) (l : Nat) (t : Token) {p : Pushdown}
    (h : Intact g p) :
    ∃ pops : List Symbol, Runs l t .after p (pops.map .pop) p.unwind ∧ Intact g p.unwind.2 := by
  cases hstack : p.stack with
  | nil =>
    have hstride : stride l t .after p = .ends [] .more p := by simp only [stride, hstack]
    rw [unwind_eq l t, hstride]
    exact ⟨[], .ends hstride, h⟩
  | cons f below =>
    obtain ⟨s, hs⟩ := (h.top hstack).exists_tableState hg
    have hturn : stride l t .after p = strideAfter f s p := by simp only [stride, hstack, hs]
    by_cases hfinal : s.isFinal = true
    · cases below with
      | nil =>
        rw [strideAfter, if_pos hfinal, pop_outermost hstack] at hturn
        rw [unwind_eq l t, hturn]
        exact ⟨[f.table.symbol], .ends hturn, h.grammar, nofun⟩
      | cons outer below =>
        rw [strideAfter, if_pos hfinal, pop_inner hstack] at hturn
        have hlt : below.length + 1 < p.stack.length := by rw [hstack]; exact Nat.lt_succ_self _
        obtain ⟨pops, hruns, hintact⟩ := unwind hg l t (h.popInner hstack)
        rw [unwind_eq l t, hturn]
        exact ⟨f.table.symbol :: pops, .goes hturn hruns, hintact⟩
    · rw [strideAfter, if_neg hfinal] at hturn
      rw [unwind_eq l t, hturn]
      exact ⟨[], .ends hturn, h⟩
termination_by p.stack.length

/-- Where the innermost rule has an action, rules are begun and then the token is consumed. A rule
that is begun has an action as well, and begins none of its own rank. -/
theorem run_of_action (hg : ofText text = .ok g) (hrank : Ranks g rank) (h : Intact g p)
    (hstack : p.stack = f :: below) (hs : f.tableState? = some s)
    (haction : (s.action? l).isSome = true) (hfuel : cost g rank l p.stack < fuel) :
    ∃ (pushes : List Symbol) (rest : List Event),
      Runs l t .before p (pushes.map .push ++ rest) (run l t fuel p) ∧ pushes.Nodup ∧
      Consumes rest ∧ (Fresh g l f → ∀ x ∈ pushes, rank x < rank f.table.symbol) ∧
      Intact g (run l t fuel p).2 := by
  have hlawful := lawful_of_ofText hg
  induction fuel generalizing p f below s with
  | zero => exact absurd hfuel (Nat.not_lt_zero _)
  | succ fuel ih =>
    have hf := (h.top hstack).rule
    have hturn : stride l t .before p = strideBefore l t f below s p := by
      simp only [stride, hstack, hs]
    obtain ⟨a, ha⟩ := Option.isSome_iff_exists.1 haction
    cases a with
    | shift next =>
      simp only [strideBefore, ha] at hturn
      have hshift : Intact g (p.shift t next) := by
        have hgoto := h.goto hlawful hstack hs (arc_of_shift hlawful hf hs ha)
        have hadopt : OnTrack g ((f.goto next).adopt (.leaf t)) := ⟨hgoto.rule, hgoto.state⟩
        unfold shift
        rw [hstack]
        exact h.replaceTop hstack hadopt p.future
      obtain ⟨pops, hruns, hintact⟩ := hshift.unwind hg l t
      rw [run_succ, hturn]
      exact ⟨[], _, .goes hturn hruns, List.nodup_nil, Or.inr ⟨pops, rfl⟩, fun _ => nofun, hintact⟩
    | push x next =>
      simp only [strideBefore, ha] at hturn
      obtain ⟨a, harc, hx, hfirst⟩ := arc_of_push hlawful hf hs ha
      have hgoto := h.replaceTop hstack (h.goto hlawful hstack hs harc) p.future
      by_cases hfull : p.maxDepth ≤ ({ p with stack := f.goto next :: below } : Pushdown).depth
      · rw [if_pos hfull] at hturn
        rw [run_succ, hturn]
        exact ⟨[], [], .ends hturn, List.nodup_nil, Or.inl rfl, fun _ => nofun, hgoto⟩
      · obtain ⟨table, htable⟩ := Option.isSome_iff_exists.1
          (hlawful.rule_isSome (List.mem_of_getElem? hx))
        obtain ⟨-, rfl⟩ := mem_of_rule? htable
        have hrule : p.grammar.rule? table.symbol = some table := by rw [h.grammar, htable]
        simp only [if_neg hfull, hrule] at hturn
        have hentered : OnTrack g (Frame.enter table t.line t.column?) := ⟨htable, [], rfl⟩
        have hnew : Intact g { p with
            stack := Frame.enter table t.line t.column? :: f.goto next :: below } := by
          refine ⟨h.grammar, fun f' hf' => ?_⟩
          rcases List.mem_cons.1 hf' with rfl | hf'
          · exact hentered
          · exact hgoto.onTrack f' hf'
        have hfresh : Fresh g l (Frame.enter table t.line t.column?) := ⟨rfl, hfirst⟩
        obtain ⟨s', hs'⟩ := hentered.exists_tableState hg
        have hmoves : Moves g p.maxDepth l t p.stack
            (Frame.enter table t.line t.column? :: f.goto next :: below) :=
          hstack ▸ .push hs ha htable (Nat.not_le.1 hfull)
        have hcost := cost_moves hlawful hrank h.ruled hmoves
        obtain ⟨pushes, rest, hruns, hnodup, hrest, hranks, hintact⟩ := ih hnew rfl hs'
          (hfresh.isSome_action? hlawful htable hs')
          (Nat.lt_of_lt_of_le hcost (Nat.le_of_lt_succ hfuel))
        have hbelow := hranks hfresh
        rw [run_succ, hturn]
        refine ⟨table.symbol :: pushes, rest, .goes hturn hruns, ?_, hrest, ?_, hintact⟩
        · exact List.nodup_cons.2 ⟨fun hmem => Nat.lt_irrefl _ (hbelow _ hmem), hnodup⟩
        · intro hfresh' y hy
          have hlt : rank table.symbol < rank f.table.symbol := by
            rw [Frame.tableState?, hfresh'.1] at hs
            exact hrank.2 f.table (mem_of_rule? hf).1 s hs _ harc _ hx
          rcases List.mem_cons.1 hy with rfl | hy
          · exact hlt
          · exact Nat.lt_trans (hbelow y hy) hlt

end Intact

theorem orderly_nil : Orderly [] := ⟨[], [], [], rfl, List.nodup_nil, Or.inl rfl⟩

theorem Orderly.pop (h : Orderly events) (x : Symbol) : Orderly (.pop x :: events) := by
  obtain ⟨pops, pushes, rest, rfl, hrest⟩ := h
  exact ⟨x :: pops, pushes, rest, rfl, hrest⟩

namespace Intact

variable {text : List Char} {rank : Symbol → Nat} {fuel : Nat}

/-- Up to the token, rules are completed before rules are begun. -/
theorem run (hg : ofText text = .ok g) (hrank : Ranks g rank) (h : Intact g p)
    (hfuel : cost g rank l p.stack < fuel) :
    ∃ events, Orderly events ∧ Runs l t .before p events (run l t fuel p) ∧
      Intact g (run l t fuel p).2 := by
  have hlawful := lawful_of_ofText hg
  induction fuel generalizing p with
  | zero => exact absurd hfuel (Nat.not_lt_zero _)
  | succ fuel ih =>
    cases hstack : p.stack with
    | nil =>
      have hstride : stride l t .before p = .ends [] (.reject none) p := by
        simp only [stride, hstack]
      rw [run_succ, hstride]
      exact ⟨[], orderly_nil, .ends hstride, h⟩
    | cons f below =>
      obtain ⟨s, hs⟩ := (h.top hstack).exists_tableState hg
      have hturn : stride l t .before p = strideBefore l t f below s p := by
        simp only [stride, hstack, hs]
      cases haction : s.action? l with
      | some a =>
        obtain ⟨pushes, rest, hruns, hnodup, hrest, -, hintact⟩ :=
          h.run_of_action hg hrank hstack hs (by rw [haction]; rfl) hfuel
        exact ⟨_, ⟨[], pushes, rest, rfl, hnodup, hrest⟩, hruns, hintact⟩
      | none =>
        simp only [strideBefore, haction] at hturn
        by_cases haccepting : s.accepting = true
        · rw [if_pos haccepting] at hturn
          cases below with
          | nil =>
            rw [pop_outermost hstack] at hturn
            rw [run_succ, hturn]
            exact ⟨_, orderly_nil.pop _, .ends hturn, h.grammar, nofun⟩
          | cons outer below =>
            rw [pop_inner hstack] at hturn
            have hmoves : Moves g p.maxDepth l t p.stack (outer.adopt f.node :: below) :=
              hstack ▸ .pop hs haction haccepting
            have hcost := cost_moves hlawful hrank h.ruled hmoves
            obtain ⟨events, horderly, hruns, hintact⟩ :=
              ih (h.popInner hstack) (Nat.lt_of_lt_of_le hcost (Nat.le_of_lt_succ hfuel))
            rw [run_succ, hturn]
            exact ⟨_, horderly.pop f.table.symbol, .goes hturn hruns, hintact⟩
        · rw [if_neg haccepting] at hturn
          rw [run_succ, hturn]
          exact ⟨[], orderly_nil, .ends hturn, h⟩

theorem locate (h : Intact g p) (t : Token) : Intact g (p.locate t) := by
  unfold Pushdown.locate
  split
  · exact h
  · refine ⟨h.grammar, fun f hf => ?_⟩
    obtain ⟨f', hf', rfl⟩ := List.mem_map.1 hf
    have hf' := h.onTrack f' hf'
    exact ⟨hf'.rule, hf'.state⟩

theorem feed (hg : ofText text = .ok g) (h : Intact g p) (t : Token) :
    ∃ events, Orderly events ∧ Feeds t p events (feed t p) ∧ Intact g (feed t p).2 := by
  obtain ⟨rank, hrank⟩ := (lawful_of_ofText hg).exists_rank
  unfold Pushdown.feed
  cases hl : p.grammar.classify t.kind t.text with
  | none => exact ⟨[], orderly_nil, .unknown hl, h⟩
  | some l =>
    obtain ⟨events, horderly, hruns, hintact⟩ :=
      (h.locate t).run hg hrank (cost_lt_fuel hrank l (p.locate t))
    exact ⟨events, horderly, .known hl hruns, hintact⟩

end Intact

theorem intact_start? {s : Symbol} {maxDepth : Nat} (h : start? g s maxDepth = some p) :
    Intact g p := by
  obtain ⟨table, htable, rfl⟩ := Option.map_eq_some_iff.1 h
  refine ⟨rfl, fun f hf => ?_⟩
  obtain rfl := List.mem_singleton.1 hf
  obtain ⟨-, rfl⟩ := mem_of_rule? htable
  exact ⟨htable, [], rfl⟩

/-- An automaton after some tokens, whatever its answers were. -/
def feedAll (ts : List Token) (p : Pushdown) : Pushdown := ts.foldl (fun p t => (feed t p).2) p

theorem Intact.feedAll {text : List Char} (hg : ofText text = .ok g) (h : Intact g p)
    (ts : List Token) : Intact g (feedAll ts p) := by
  induction ts generalizing p with
  | nil => exact h
  | cons t ts ih =>
    obtain ⟨-, -, -, hfed⟩ := h.feed hg t
    exact ih hfed

/-- Feeding a token always ends, however the tokens before were answered, in one way only, and in
the way in which the automaton answers. On the way rules are completed, then rules are begun, none
of them twice, and then the token is consumed and rules are completed, or it is not; no state and no
rule is found missing. -/
theorem feeds_of_ofText {text : List Char} {s : Symbol} {maxDepth : Nat}
    (hg : ofText text = .ok g) (hp : start? g s maxDepth = some p) (ts : List Token) (t : Token) :
    ∃ events, Orderly events ∧ ∀ events' r,
      Feeds t (feedAll ts p) events' r ↔ events' = events ∧ r = feed t (feedAll ts p) := by
  obtain ⟨events, horderly, hfeeds, -⟩ := ((intact_start? hp).feedAll hg ts).feed hg t
  refine ⟨events, horderly, fun events' r => ⟨fun h => hfeeds.unique h, ?_⟩⟩
  rintro ⟨rfl, rfl⟩
  exact hfeeds

/-- The first word of the first line. -/
theorem feeds_of_ofText_wordLines :
    Orderly [.push .stmt, .shift] ∧
      Feeds ⟨.word, "a", 1, some 0⟩ WordLines.automaton [.push .stmt, .shift]
        (feed ⟨.word, "a", 1, some 0⟩ WordLines.automaton) := by
  obtain ⟨events, horderly, h⟩ :=
    feeds_of_ofText WordLines.ofText_text WordLines.start?_eq [] ⟨.word, "a", 1, some 0⟩
  have hfeeds : ∃ r, Feeds ⟨.word, "a", 1, some 0⟩ WordLines.automaton [.push .stmt, .shift] r :=
    ⟨_, .known (l := 2) (by decide) (.goes rfl (.goes rfl (.ends rfl)))⟩
  obtain ⟨r, hfeeds⟩ := hfeeds
  obtain ⟨rfl, rfl⟩ := (h _ _).1 hfeeds
  exact ⟨horderly, hfeeds⟩

end Offside.Pushdown
