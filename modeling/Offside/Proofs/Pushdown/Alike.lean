import Offside.Proofs.Pushdown.Moves

/-!
Pushdown automata in the same states. How an automaton answers follows from the rules in progress
and their states alone; where the tokens stood that were read before, and which trees came of them,
makes no difference.
-/

namespace Offside.Pushdown

/-- Two rules in progress in the same state. -/
def AlikeFrame (f f' : Frame) : Prop := f.table = f'.table ∧ f.state = f'.state

/-- Two automata with the same rules in progress, in the same states. -/
structure Alike (p q : Pushdown) : Prop where
  grammar : p.grammar = q.grammar
  maxDepth : p.maxDepth = q.maxDepth
  stack : List.Forall₂ AlikeFrame p.stack q.stack

/-- Answers of one kind; where more is asked for, the automata are in the same states. -/
inductive AlikeAnswer : Verdict × Pushdown → Verdict × Pushdown → Prop
  | more {p q : Pushdown} (h : Alike p q) : AlikeAnswer (.more, p) (.more, q)
  | accept {tree tree' : Node} {p q : Pushdown} : AlikeAnswer (.accept tree, p) (.accept tree', q)
  | reject {expected? : Option Kind} {p q : Pushdown} :
      AlikeAnswer (.reject expected?, p) (.reject expected?, q)
  | outOfMemory {p q : Pushdown} : AlikeAnswer (.outOfMemory, p) (.outOfMemory, q)

variable {p q : Pushdown} {f f' : Frame}

theorem AlikeFrame.refl (f : Frame) : AlikeFrame f f := ⟨rfl, rfl⟩

theorem AlikeFrame.tableState? (h : AlikeFrame f f') : f.tableState? = f'.tableState? := by
  rw [Frame.tableState?, Frame.tableState?, h.1, h.2]

theorem AlikeFrame.isFinal (h : AlikeFrame f f') : f.isFinal = f'.isFinal := by
  rw [Frame.isFinal, Frame.isFinal, h.tableState?]

theorem AlikeFrame.moveOf (h : AlikeFrame f f') (g : Grammar) (l : Nat) :
    moveOf g l f = moveOf g l f' := by
  rw [Pushdown.moveOf, Pushdown.moveOf, h.tableState?]

theorem AlikeFrame.adopt (h : AlikeFrame f f') (n n' : Node) :
    AlikeFrame (f.adopt n) (f'.adopt n') := h

theorem AlikeFrame.goto (h : AlikeFrame f f') (next : Nat) :
    AlikeFrame (f.goto next) (f'.goto next) := ⟨h.1, rfl⟩

theorem Alike.refl (p : Pushdown) : Alike p p where
  grammar := rfl
  maxDepth := rfl
  stack := List.forall₂_same.2 fun f _ => AlikeFrame.refl f

theorem unwind_nil (h : p.stack = []) : p.unwind = (.more, p) := by
  rw [unwind.eq_def]
  split
  · rfl
  · next heq =>
    rw [h] at heq
    cases heq

theorem unwind_alike {p q : Pushdown} (h : Alike p q) : AlikeAnswer p.unwind q.unwind := by
  have hstack := h.stack
  cases hp : p.stack with
  | nil =>
    rw [hp, List.forall₂_nil_left_iff] at hstack
    rw [unwind_nil hp, unwind_nil hstack]
    exact .more h
  | cons f below =>
    rw [hp, List.forall₂_cons_left_iff] at hstack
    obtain ⟨f', below', hf, hbelow, hq⟩ := hstack
    by_cases hfinal : f.isFinal = true
    · have hfinal' := hf.isFinal.symm.trans hfinal
      cases below with
      | nil =>
        obtain rfl := List.forall₂_nil_left_iff.1 hbelow
        obtain ⟨p', hp'⟩ := unwind_of_final_outermost hp (isFinal_iff.1 hfinal)
        obtain ⟨q', hq'⟩ := unwind_of_final_outermost hq (isFinal_iff.1 hfinal')
        rw [hp', hq']
        exact .accept
      | cons outer below =>
        obtain ⟨outer', below', houter, hrest, rfl⟩ := List.forall₂_cons_left_iff.1 hbelow
        rw [unwind_of_final_inner hp (isFinal_iff.1 hfinal),
          unwind_of_final_inner hq (isFinal_iff.1 hfinal')]
        exact unwind_alike
          { grammar := h.grammar, maxDepth := h.maxDepth
            stack := .cons (houter.adopt f.node f'.node) hrest }
    · have hfinal' : ¬f'.isFinal = true := by rwa [← hf.isFinal]
      rw [unwind_of_not_final hp (isFinal_iff.not.1 hfinal),
        unwind_of_not_final hq (isFinal_iff.not.1 hfinal')]
      exact .more h
termination_by p.stack.length
decreasing_by
  rw [hp]
  exact Nat.lt_succ_self _

theorem shift_cons {below : List Frame} (h : p.stack = f :: below) (t : Token) (next : Nat) :
    p.shift t next = { p with stack := (f.goto next).adopt (.leaf t) :: below } := by
  rw [shift, h]

theorem push_cons {below : List Frame} (h : p.stack = f :: below) (t : Token) (x : Symbol)
    (next : Nat) :
    p.push t x next =
      if p.maxDepth ≤ below.length + 1 then
        (.outOfMemory, { p with stack := f.goto next :: below })
      else
        match p.grammar.rule? x with
        | none => (.reject none, { p with stack := f.goto next :: below })
        | some table =>
          (.more, { p with
            stack := Frame.enter table t.line t.column? :: f.goto next :: below }) := by
  unfold push
  rw [h]
  rfl

theorem run_alike {t u : Token} (l fuel : Nat) (h : Alike p q) :
    AlikeAnswer (run l t fuel p) (run l u fuel q) := by
  induction fuel generalizing p q with
  | zero => exact .reject
  | succ fuel ih =>
    have hstack := h.stack
    rw [run, run]
    cases hp : p.stack with
    | nil =>
      rw [hp, List.forall₂_nil_left_iff] at hstack
      rw [hstack]
      exact .reject
    | cons f below =>
      rw [hp, List.forall₂_cons_left_iff] at hstack
      obtain ⟨f', below', hf, hbelow, hq⟩ := hstack
      rw [hq]
      dsimp only
      rw [← h.grammar, ← hf.moveOf]
      cases moveOf p.grammar l f with
      | refuse expected? => exact .reject
      | shift next =>
        dsimp only
        rw [shift_cons hp, shift_cons hq]
        exact unwind_alike
          { grammar := h.grammar, maxDepth := h.maxDepth
            stack := .cons ((hf.goto next).adopt (.leaf t) (.leaf u)) hbelow }
      | pop =>
        dsimp only
        cases below with
        | nil =>
          obtain rfl := List.forall₂_nil_left_iff.1 hbelow
          rw [pop_outermost hp, pop_outermost hq]
          exact .reject
        | cons outer below =>
          obtain ⟨outer', below', houter, hrest, rfl⟩ := List.forall₂_cons_left_iff.1 hbelow
          rw [pop_inner hp, pop_inner hq]
          exact ih
            { grammar := h.grammar, maxDepth := h.maxDepth
              stack := .cons (houter.adopt f.node f'.node) hrest }
      | push x next =>
        dsimp only
        rw [push_cons hp, push_cons hq, ← h.maxDepth, ← h.grammar, ← hbelow.length_eq]
        split
        · next hmore =>
          split at hmore
          · cases hmore
          · next hdepth =>
            rw [if_neg hdepth]
            split at hmore
            · cases hmore
            · next table htable =>
              obtain ⟨_, rfl⟩ := Prod.mk.inj hmore
              exact ih
                { grammar := rfl, maxDepth := rfl
                  stack := .cons ⟨rfl, rfl⟩ (.cons (hf.goto next) hbelow) }
        · next hother hanswer =>
          split at hanswer
          · next hdepth =>
            obtain ⟨rfl, rfl⟩ := Prod.mk.inj hanswer
            rw [if_pos hdepth]
            exact .outOfMemory
          · next hdepth =>
            rw [if_neg hdepth]
            split at hanswer
            · obtain ⟨rfl, rfl⟩ := Prod.mk.inj hanswer
              exact .reject
            · obtain ⟨rfl, rfl⟩ := Prod.mk.inj hanswer
              exact absurd rfl hother

theorem Alike.locate (h : Alike p q) (t u : Token) : Alike (p.locate t) (q.locate u) where
  grammar := by
    unfold Pushdown.locate
    split <;> split <;> exact h.grammar
  maxDepth := by
    unfold Pushdown.locate
    split <;> split <;> exact h.maxDepth
  stack := by
    unfold Pushdown.locate
    split
    · split
      · exact h.stack
      · exact List.forall₂_map_right_iff.2 h.stack
    · split
      · exact List.forall₂_map_left_iff.2 h.stack
      · exact List.forall₂_map_left_iff.2 (List.forall₂_map_right_iff.2 h.stack)

/-- The answer to a token does not depend on its place. -/
theorem feed_alike {t u : Token} (hkind : t.kind = u.kind) (htext : t.text = u.text)
    (h : Alike p q) : AlikeAnswer (feed t p) (feed u q) := by
  unfold feed
  rw [← h.grammar, ← hkind, ← htext]
  cases p.grammar.classify t.kind t.text with
  | none => exact .reject
  | some l =>
    have hlocate := h.locate t u
    have hfuel : (p.locate t).fuel = (q.locate u).fuel := by
      rw [fuel, fuel, hlocate.stack.length_eq]
    dsimp only
    rw [hfuel]
    exact run_alike l _ hlocate

end Offside.Pushdown
