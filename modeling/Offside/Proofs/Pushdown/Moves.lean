import Offside.Proofs.Pushdown.Soundness

/-!
Moves on the stack alone. A token is taken by completing rules, then beginning rules, then
consuming it; that rules which cannot go on are completed at once makes no difference to what comes
later. The main statements tell that tokens are taken in one way, and how an automaton answers when
its stack takes all of them.
-/

namespace Offside.Pushdown

open Grammar

/-- A move before a token with label `l` is consumed. -/
inductive Moves (g : Grammar) (maxDepth l : Nat) (t : Token) : List Frame → List Frame → Prop
  | pop {f outer : Frame} {below : List Frame} {s : TableState} (hs : f.tableState? = some s)
      (haction : s.action? l = none) (haccepting : s.accepting = true) :
      Moves g maxDepth l t (f :: outer :: below) (outer.adopt f.node :: below)
  | push {f : Frame} {below : List Frame} {s : TableState} {x : Symbol} {next : Nat}
      {table : RuleTable} (hs : f.tableState? = some s)
      (haction : s.action? l = some (.push x next)) (hrule : g.rule? x = some table)
      (hdepth : below.length + 1 < maxDepth) :
      Moves g maxDepth l t (f :: below)
        (Frame.enter table t.line t.column? :: f.goto next :: below)

/-- A token with label `l` is consumed after some moves. -/
inductive Takes (g : Grammar) (maxDepth l : Nat) (t : Token) : List Frame → List Frame → Prop
  | shift {f : Frame} {below : List Frame} {s : TableState} {next : Nat}
      (hs : f.tableState? = some s) (haction : s.action? l = some (.shift next)) :
      Takes g maxDepth l t (f :: below) ((f.goto next).adopt (.leaf t) :: below)
  | move {stack stack' stack'' : List Frame} (hmove : Moves g maxDepth l t stack stack')
      (hrest : Takes g maxDepth l t stack' stack'') : Takes g maxDepth l t stack stack''

/-- Several tokens are consumed one after the other. -/
inductive TakesAll (g : Grammar) (maxDepth : Nat) : List Token → List Frame → List Frame → Prop
  | nil (stack : List Frame) : TakesAll g maxDepth [] stack stack
  | cons {t : Token} {ts : List Token} {l : Nat} {stack stack' stack'' : List Frame}
      (hl : g.classify t.kind t.text = some l) (htakes : Takes g maxDepth l t stack stack')
      (hrest : TakesAll g maxDepth ts stack' stack'') : TakesAll g maxDepth (t :: ts) stack stack''

variable {g : Grammar} {maxDepth l : Nat} {t : Token} {stack stack' : List Frame}

theorem TakesAll.append {ts ts' : List Token} {stack'' : List Frame}
    (h : TakesAll g maxDepth ts stack stack') (h' : TakesAll g maxDepth ts' stack' stack'') :
    TakesAll g maxDepth (ts ++ ts') stack stack'' := by
  induction h with
  | nil => exact h'
  | cons hl htakes _ ih => exact .cons hl htakes (ih h')

/-- Every rule in progress has the table that the grammar has for it. -/
def Ruled (g : Grammar) (stack : List Frame) : Prop :=
  ∀ f ∈ stack, g.rule? f.table.symbol = some f.table

theorem Ruled.moves (h : Ruled g stack) (hmove : Moves g maxDepth l t stack stack') :
    Ruled g stack' := by
  cases hmove with
  | @pop inner outer =>
    intro f hf
    rcases List.mem_cons.1 hf with rfl | hf
    · exact h outer (List.mem_cons_of_mem _ List.mem_cons_self)
    · exact h f (List.mem_cons_of_mem _ (List.mem_cons_of_mem _ hf))
  | @push outer _ _ _ _ _ _ _ hrule _ =>
    intro f hf
    rcases List.mem_cons.1 hf with rfl | hf
    · obtain ⟨_, rfl⟩ := mem_of_rule? hrule
      exact hrule
    · rcases List.mem_cons.1 hf with rfl | hf
      · exact h outer List.mem_cons_self
      · exact h f (List.mem_cons_of_mem _ hf)

theorem Ruled.takes (h : Ruled g stack) (htakes : Takes g maxDepth l t stack stack') :
    Ruled g stack' := by
  induction htakes with
  | @shift inner =>
    intro f hf
    rcases List.mem_cons.1 hf with rfl | hf
    · exact h inner List.mem_cons_self
    · exact h f (List.mem_cons_of_mem _ hf)
  | move hmove _ ih => exact ih (h.moves hmove)

/-- A bound on the moves before a token is consumed: once a rule has been begun, each rule begun
after it has a lower rank. -/
def cost (g : Grammar) (rank : Symbol → Nat) (l : Nat) : List Frame → Nat
  | [] => 0
  | f :: below => if Fresh g l f then rank f.table.symbol else below.length + Symbol.all.length

/-- Ranks along which no rule begins with itself. -/
def Ranks (g : Grammar) (rank : Symbol → Nat) : Prop :=
  (∀ s, rank s < Symbol.all.length) ∧ ∀ t ∈ g.rules, ∀ s, t.states[0]? = some s →
    ∀ arc ∈ s.arcs, ∀ sub, g.labels[arc.1]? = some (.rule sub) → rank sub < rank t.symbol

theorem cost_moves (hg : g.Lawful) {rank : Symbol → Nat} (hrank : Ranks g rank)
    (hruled : Ruled g stack) (hmove : Moves g maxDepth l t stack stack') :
    cost g rank l stack' < cost g rank l stack := by
  cases hmove with
  | @pop f outer below s hs haction haccepting =>
    have hfresh : ¬Fresh g l f := by
      intro hfresh
      have hsome := hfresh.isSome_action? hg (hruled f List.mem_cons_self) hs
      rw [haction] at hsome
      cases hsome
    have hbound := hrank.1 (outer.adopt f.node).table.symbol
    simp only [cost, if_neg hfresh, List.length_cons]
    split <;> omega
  | @push f below s x next table hs haction hrule hdepth =>
    have hf := hruled f List.mem_cons_self
    obtain ⟨a, harc, ha, hfirst⟩ := arc_of_push hg hf hs haction
    obtain ⟨_, rfl⟩ := mem_of_rule? hrule
    have hfresh : Fresh g l (Frame.enter table t.line t.column?) := ⟨rfl, hfirst⟩
    have hbound := hrank.1 table.symbol
    rw [cost, if_pos hfresh, cost]
    split
    · next hfresh' =>
      rw [Frame.tableState?, hfresh'.1] at hs
      exact hrank.2 f.table (mem_of_rule? hf).1 s hs _ harc _ ha
    · show rank table.symbol < _
      omega

theorem moveOf_eq_shift {f : Frame} {s : TableState} {next : Nat} (hs : f.tableState? = some s)
    (haction : s.action? l = some (.shift next)) : moveOf g l f = .shift next := by
  simp only [moveOf, hs, haction]

theorem moveOf_eq_push {f : Frame} {s : TableState} {x : Symbol} {next : Nat}
    (hs : f.tableState? = some s) (haction : s.action? l = some (.push x next)) :
    moveOf g l f = .push x next := by
  simp only [moveOf, hs, haction]

theorem moveOf_eq_pop {f : Frame} {s : TableState} (hs : f.tableState? = some s)
    (haction : s.action? l = none) (haccepting : s.accepting = true) : moveOf g l f = .pop := by
  simp only [moveOf, hs, haction, haccepting, if_true]

/-- A run does what the stack does, as long as there is fuel for it. -/
theorem run_of_takes (hg : g.Lawful) {rank : Symbol → Nat} (hrank : Ranks g rank)
    (htakes : Takes g maxDepth l t stack stack') (p : Pushdown) (fuel : Nat)
    (hgrammar : p.grammar = g) (hdepth : p.maxDepth = maxDepth) (hstack : p.stack = stack)
    (hruled : Ruled g stack) (hfuel : cost g rank l stack < fuel) :
    ∃ bits, run l t fuel p = ({ p with stack := stack', future := bits } : Pushdown).unwind := by
  induction htakes generalizing p fuel with
  | @shift f below s next hs haction =>
    obtain ⟨fuel, rfl⟩ : ∃ n, fuel = n + 1 := ⟨fuel - 1, by omega⟩
    have hmoveOf : moveOf p.grammar l f = .shift next := moveOf_eq_shift hs haction
    refine ⟨p.future, ?_⟩
    rw [run]
    simp only [hstack, hmoveOf, shift]
  | @move stack stack₁ stack' hmove hrest ih =>
    obtain ⟨fuel, rfl⟩ : ∃ n, fuel = n + 1 := ⟨fuel - 1, by omega⟩
    have hcost := cost_moves hg hrank hruled hmove
    have hruled' := hruled.moves hmove
    cases hmove with
    | @pop f outer below s hs haction haccepting =>
      obtain ⟨bits, hrun⟩ := ih { p with
        future := futureAfter f.node p.future, stack := outer.adopt f.node :: below } fuel
        hgrammar hdepth rfl hruled' (by omega)
      have hmoveOf : moveOf p.grammar l f = .pop := moveOf_eq_pop hs haction haccepting
      refine ⟨bits, ?_⟩
      rw [run]
      simp only [hstack, hmoveOf, pop_inner hstack]
      exact hrun
    | @push f below s x next table hs haction hrule hdepth' =>
      obtain ⟨bits, hrun⟩ := ih { p with
        stack := Frame.enter table t.line t.column? :: f.goto next :: below } fuel
        hgrammar hdepth rfl hruled' (by omega)
      have hmoveOf : moveOf p.grammar l f = .push x next := moveOf_eq_push hs haction
      have hpush : p.push t x next = (.more, { p with
          stack := Frame.enter table t.line t.column? :: f.goto next :: below }) := by
        unfold push
        rw [hstack]
        dsimp only
        rw [if_neg (by rw [hdepth, depth, List.length_cons]; omega), hgrammar, hrule]
      refine ⟨bits, ?_⟩
      rw [run]
      simp only [hstack, hmoveOf, hpush]
      exact hrun

/-- A rule that is complete and cannot go on. -/
def Final (f : Frame) : Prop :=
  ∃ s, f.tableState? = some s ∧ s.accepting = true ∧ s.arcs = []

theorem isFinal_iff {f : Frame} : f.isFinal = true ↔ Final f := by
  unfold Frame.isFinal Final
  cases f.tableState? with
  | none => simp
  | some s => simp [TableState.isFinal]

theorem Final.action?_eq_none (hg : g.Lawful) {f : Frame}
    (hf : g.rule? f.table.symbol = some f.table) (hfinal : Final f) {s : TableState}
    (hs : f.tableState? = some s) (l : Nat) : s.action? l = none := by
  obtain ⟨s', hs', _, harcs⟩ := hfinal
  obtain rfl : s = s' := Option.some.inj (hs.symm.trans hs')
  cases haction : s.action? l with
  | none => rfl
  | some a =>
    obtain ⟨arc, harc, _⟩ := (action?_iff hg hf hs).1 haction
    rw [harcs] at harc
    cases harc

theorem unwind_of_not_final {p : Pushdown} {f : Frame} {below : List Frame}
    (hstack : p.stack = f :: below) (h : ¬Final f) : p.unwind = (.more, p) := by
  rw [unwind]
  split
  · rfl
  · next f' below' hstack' =>
    obtain ⟨rfl, _⟩ := List.cons.inj (hstack.symm.trans hstack')
    rw [if_neg (by rwa [isFinal_iff])]

theorem unwind_of_final_inner {p : Pushdown} {f outer : Frame} {below : List Frame}
    (hstack : p.stack = f :: outer :: below) (h : Final f) :
    p.unwind = ({ p with
      future := futureAfter f.node p.future, stack := outer.adopt f.node :: below } :
        Pushdown).unwind := by
  rw [unwind]
  split
  · next hnil =>
    rw [hstack] at hnil
    cases hnil
  · next f' below' hstack' =>
    obtain ⟨rfl, rfl⟩ := List.cons.inj (hstack.symm.trans hstack')
    rw [if_pos (isFinal_iff.2 h)]
    split
    · next tree p' hpop =>
      rw [pop_inner hstack] at hpop
      cases hpop
    · next p' hpop =>
      rw [pop_inner hstack] at hpop
      obtain ⟨_, rfl⟩ := Prod.mk.inj hpop
      rfl

theorem unwind_of_final_outermost {p : Pushdown} {f : Frame} (hstack : p.stack = [f])
    (h : Final f) : ∃ p', p.unwind = (.accept f.node, p') := by
  rw [unwind]
  split
  · next hnil =>
    rw [hstack] at hnil
    cases hnil
  · next f' below' hstack' =>
    obtain ⟨rfl, rfl⟩ := List.cons.inj (hstack.symm.trans hstack')
    rw [if_pos (isFinal_iff.2 h)]
    split
    · next tree p' hpop =>
      rw [pop_outermost hstack] at hpop
      obtain ⟨rfl, _⟩ : f.node = tree ∧ _ := by simpa using hpop
      exact ⟨p', rfl⟩
    · next p' hpop =>
      rw [pop_outermost hstack] at hpop
      cases hpop

/-- Rules that cannot go on would be completed before the next token anyway. -/
theorem Takes.pop_final (hg : g.Lawful) {f : Frame} {below : List Frame}
    (hf : g.rule? f.table.symbol = some f.table) (hfinal : Final f)
    (h : Takes g maxDepth l t (f :: below) stack') :
    ∃ outer rest, below = outer :: rest ∧
      Takes g maxDepth l t (outer.adopt f.node :: rest) stack' := by
  cases h with
  | shift hs haction =>
    rw [hfinal.action?_eq_none hg hf hs] at haction
    cases haction
  | move hmove hrest =>
    cases hmove with
    | @pop _ outer rest => exact ⟨outer, rest, rfl, hrest⟩
    | push hs haction =>
      rw [hfinal.action?_eq_none hg hf hs] at haction
      cases haction

theorem unwind_of_takes (hg : g.Lawful) (p : Pushdown) (hruled : Ruled g p.stack)
    (h : Takes g maxDepth l t p.stack stack') :
    ∃ stack₁ bits, p.unwind = (.more, { p with stack := stack₁, future := bits }) ∧
      Ruled g stack₁ ∧ Takes g maxDepth l t stack₁ stack' := by
  cases hstack : p.stack with
  | nil =>
    rw [hstack] at h
    cases h with
    | move hmove _ => cases hmove
  | cons f below =>
    by_cases hfinal : Final f
    · have hf := hruled f (by rw [hstack]; exact List.mem_cons_self)
      obtain ⟨outer, rest, rfl, htakes⟩ := Takes.pop_final hg hf hfinal (hstack ▸ h)
      have hruled' : Ruled g (outer.adopt f.node :: rest) := by
        intro f' hf'
        rw [hstack] at hruled
        rcases List.mem_cons.1 hf' with rfl | hf'
        · exact hruled outer (List.mem_cons_of_mem _ List.mem_cons_self)
        · exact hruled f' (List.mem_cons_of_mem _ (List.mem_cons_of_mem _ hf'))
      have hlt : (outer.adopt f.node :: rest).length < p.stack.length := by
        rw [hstack]
        exact Nat.lt_succ_self _
      obtain ⟨stack₁, bits, hunwind, hrest⟩ := unwind_of_takes hg
        { p with future := futureAfter f.node p.future, stack := outer.adopt f.node :: rest }
        hruled' htakes
      exact ⟨stack₁, bits, by rw [unwind_of_final_inner hstack hfinal, hunwind], hrest⟩
    · refine ⟨p.stack, p.future, unwind_of_not_final hstack hfinal, hruled, h⟩
termination_by p.stack.length

/-- A rule in progress has one action at a label, or none. -/
theorem eq_of_action? {f : Frame} {s s' : TableState} {action action' : Option Action}
    (hs : f.tableState? = some s) (haction : s.action? l = action)
    (hs' : f.tableState? = some s') (haction' : s'.action? l = action') : action = action' := by
  obtain rfl := Option.some.inj (hs.symm.trans hs')
  exact haction.symm.trans haction'

/-- A token moves a stack in one way. -/
theorem Moves.unique {stack'' : List Frame} (h : Moves g maxDepth l t stack stack')
    (h' : Moves g maxDepth l t stack stack'') : stack' = stack'' := by
  cases h with
  | pop hs haction haccepting =>
    cases h' with
    | pop => rfl
    | push hs' haction' => cases eq_of_action? hs haction hs' haction'
  | push hs haction hrule =>
    cases h' with
    | pop hs' haction' => cases eq_of_action? hs haction hs' haction'
    | push hs' haction' hrule' =>
      cases eq_of_action? hs haction hs' haction'
      cases hrule.symm.trans hrule'
      rfl

/-- Where a token can be consumed there is no move to make before. -/
theorem not_moves_of_shift {f : Frame} {below : List Frame} {s : TableState} {next : Nat}
    (hs : f.tableState? = some s) (haction : s.action? l = some (.shift next)) :
    ¬Moves g maxDepth l t (f :: below) stack' := by
  intro h
  cases h with
  | pop hs' haction' => cases eq_of_action? hs haction hs' haction'
  | push hs' haction' => cases eq_of_action? hs haction hs' haction'

theorem Takes.unique {stack'' : List Frame} (h : Takes g maxDepth l t stack stack')
    (h' : Takes g maxDepth l t stack stack'') : stack' = stack'' := by
  induction h with
  | shift hs haction =>
    cases h' with
    | shift hs' haction' =>
      cases eq_of_action? hs haction hs' haction'
      rfl
    | move hmove => exact absurd hmove (not_moves_of_shift hs haction)
  | move hmove _ ih =>
    cases h' with
    | shift hs' haction' => exact absurd hmove (not_moves_of_shift hs' haction')
    | move hmove' hrest' => exact ih (hmove.unique hmove' ▸ hrest')

/-- So the tokens tell the stack that takes them. -/
theorem TakesAll.unique {ts : List Token} {stack'' : List Frame}
    (h : TakesAll g maxDepth ts stack stack') (h' : TakesAll g maxDepth ts stack stack'') :
    stack' = stack'' := by
  induction h with
  | nil =>
    cases h'
    rfl
  | cons hl htakes _ ih =>
    cases h' with
    | cons hl' htakes' hrest' =>
      obtain rfl := Option.some.inj (hl.symm.trans hl')
      exact ih (htakes.unique htakes' ▸ hrest')

/-- The rules that are complete on one stack are completed on the other. They could not go on
with the next label; if there is none they may still go on, unless `closed` holds. -/
inductive Owes (closed : Prop) (l? : Option Nat) : List Frame → List Frame → Prop
  | nil (stack : List Frame) : Owes closed l? stack stack
  | pop {f outer : Frame} {below stack' : List Frame} {s : TableState}
      (hs : f.tableState? = some s) (haccepting : s.accepting = true)
      (hnext : ∀ l, l? = some l → s.action? l = none) (hend : closed → l? = none → s.arcs = [])
      (hrest : Owes closed l? (outer.adopt f.node :: below) stack') :
      Owes closed l? (f :: outer :: below) stack'

section Owes

variable {closed : Prop}

theorem Owes.trans {l? : Option Nat} {stack'' : List Frame} (h : Owes closed l? stack stack')
    (h' : Owes closed l? stack' stack'') : Owes closed l? stack stack'' := by
  induction h with
  | nil => exact h'
  | pop hs haccepting hnext hend _ ih => exact .pop hs haccepting hnext hend (ih h')

theorem Owes.takes {stack'' : List Frame} (h : Owes closed (some l) stack stack')
    (h' : Takes g maxDepth l t stack' stack'') : Takes g maxDepth l t stack stack'' := by
  induction h with
  | nil => exact h'
  | pop hs haccepting hnext _ _ ih => exact .move (.pop hs (hnext l rfl) haccepting) (ih h')

/-- What is left of a stack when all rules but the outermost are completed. -/
theorem Owes.unique {l? : Option Nat} {f f' : Frame} (h : Owes closed l? stack [f])
    (h' : Owes closed l? stack [f']) : f = f' := by
  generalize hends : [f] = ends at h
  induction h with
  | nil =>
    subst hends
    cases h'
    rfl
  | pop _ _ _ _ _ ih =>
    cases h' with
    | pop _ _ _ _ hrest' => exact ih hrest' hends

/-- At the end the outermost rule is completed, or the automaton waits for a rule to go on; no rule
can if `closed` holds. -/
theorem unwind_of_owes {f : Frame} (p : Pushdown) (h : Owes closed none p.stack [f]) :
    ∃ v p', p.unwind = (v, p') ∧ (v = .more ∨ v = .accept f.node) ∧
      (closed → Final f → v = .accept f.node) := by
  generalize hstack : p.stack = stack at h
  generalize hends : [f] = ends at h
  induction h generalizing p with
  | nil =>
    subst hends
    by_cases hfinal : Final f
    · obtain ⟨p', hp'⟩ := unwind_of_final_outermost hstack hfinal
      exact ⟨_, p', hp', Or.inr rfl, fun _ _ => rfl⟩
    · exact ⟨_, p, unwind_of_not_final hstack hfinal, Or.inl rfl,
        fun _ hfinal' => absurd hfinal' hfinal⟩
  | @pop inner outer below _ s hs haccepting _ hend _ ih =>
    by_cases hfinal : Final inner
    · obtain ⟨v, p', hp', hv⟩ := ih
        { p with
          future := futureAfter inner.node p.future, stack := outer.adopt inner.node :: below }
        rfl hends
      exact ⟨v, p', by rw [unwind_of_final_inner hstack hfinal, hp'], hv⟩
    · exact ⟨_, p, unwind_of_not_final hstack hfinal, Or.inl rfl,
        fun hclosed _ => absurd ⟨s, hs, haccepting, hend hclosed rfl⟩ hfinal⟩

end Owes

theorem cost_lt_fuel {rank : Symbol → Nat} (hrank : Ranks g rank) (l : Nat) (p : Pushdown) :
    cost g rank l p.stack < p.fuel := by
  unfold fuel
  cases p.stack with
  | nil => exact Nat.succ_pos _
  | cons f below =>
    have hbound := hrank.1 f.table.symbol
    rw [cost, List.length_cons]
    split <;> omega

/-- An automaton whose stack takes all tokens asks for more after each but the last, and then
completes the outermost rule or waits for more. -/
theorem answers_of_takesAll (hg : g.Lawful) {closed : Prop} {ts : List Token} {f : Frame}
    (hne : ts ≠ []) (htakes : TakesAll g maxDepth ts stack stack')
    (howes : Owes closed none stack' [f]) (p : Pushdown) (hstarted : p.started = true)
    (hgrammar : p.grammar = g) (hdepth : p.maxDepth = maxDepth) (hstack : p.stack = stack)
    (hruled : Ruled g stack) :
    ∃ v, answers ts p = List.replicate (ts.length - 1) .more ++ [v] ∧
      (v = .more ∨ v = .accept f.node) ∧ (closed → Final f → v = .accept f.node) := by
  obtain ⟨rank, hrank⟩ := hg.exists_rank
  induction ts generalizing stack p with
  | nil => exact absurd rfl hne
  | cons t ts ih =>
    cases htakes with
    | @cons _ _ l _ stack₁ _ hl htakes hrest =>
      obtain ⟨bits, hrun⟩ := run_of_takes hg hrank htakes p p.fuel hgrammar hdepth hstack hruled
        (hstack ▸ cost_lt_fuel hrank l p)
      have hfeed : feed t p = ({ p with stack := stack₁, future := bits } : Pushdown).unwind := by
        have hclassify : p.grammar.classify t.kind t.text = some l := by rw [hgrammar, hl]
        have hlocate : p.locate t = p := by rw [locate, if_pos hstarted]
        unfold feed
        simp only [hclassify, hlocate]
        exact hrun
      rw [answers, hfeed]
      cases hrest with
      | nil =>
        obtain ⟨v, p', hp', hv⟩ :=
          unwind_of_owes { p with stack := stack', future := bits } howes
        exact ⟨v, by rw [hp']; rfl, hv⟩
      | @cons t' ts _ _ _ _ hl' htakes' hrest' =>
        -- The stack is unwound before the next token; that token is taken from there as well.
        obtain ⟨stack₂, bits', hunwind, hruled₂, htakes₂⟩ := unwind_of_takes hg
          { p with stack := stack₁, future := bits } (hruled.takes htakes) htakes'
        obtain ⟨v, hanswers, hv⟩ := ih (List.cons_ne_nil _ _) (.cons hl' htakes₂ hrest')
          { p with stack := stack₂, future := bits' } hstarted hgrammar hdepth rfl hruled₂
        refine ⟨v, ?_, hv⟩
        rw [List.length_cons, Nat.add_sub_cancel] at hanswers
        rw [hunwind, hanswers]
        rfl

end Offside.Pushdown
