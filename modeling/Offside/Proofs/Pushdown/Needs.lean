import Offside.Proofs.Pushdown.Turns

/-!
How many rules come to be in progress. Once a rule was begun for a token, each rule begun after it
has a lower rank, so no token begins one rule twice. A cap that allows for every rule at every token
is never met.
-/

namespace Offside.Pushdown

open Grammar

variable {text : List Char} {g : Grammar} {l : Nat} {t : Token} {phase : Phase} {p : Pushdown}
  {events : List Event} {r : Verdict × Pushdown} {taken : Stride} {rank : Symbol → Nat}

/-- A turn that there is room for. -/
def Stride.Fits : Stride → Prop
  | ends _ verdict _ => verdict ≠ .outOfMemory
  | goes _ _ _ => True

/-- How many rules may come to be in progress for a token: once a rule is begun, each rule begun
after it has a lower rank. -/
def need (g : Grammar) (rank : Symbol → Nat) (l : Nat) : Phase → List Frame → Nat
  | .after, stack => stack.length
  | .before, [] => 0
  | .before, f :: below =>
    below.length + 1 + if Fresh g l f then rank f.table.symbol else Symbol.all.length

def Stride.need (g : Grammar) (rank : Symbol → Nat) (l : Nat) : Stride → Nat
  | ends _ _ p => p.depth
  | goes _ phase p => Pushdown.need g rank l phase p.stack

theorem length_le_need (g : Grammar) (rank : Symbol → Nat) (l : Nat) (phase : Phase)
    (stack : List Frame) : stack.length ≤ need g rank l phase stack := by
  cases phase with
  | after => exact Nat.le_refl _
  | before =>
    cases stack with
    | nil => exact Nat.le_refl _
    | cons f below => exact Nat.le_add_right _ _

theorem need_le (hrank : Ranks g rank) (l : Nat) (stack : List Frame) :
    need g rank l .before stack ≤ stack.length + Symbol.all.length := by
  cases stack with
  | nil => exact Nat.zero_le _
  | cons f below =>
    have hbound := hrank.1 f.table.symbol
    rw [need, List.length_cons]
    split <;> omega

/-- What is begun is allowed for. -/
theorem lt_need_of_push (hg : g.Lawful) (hrank : Ranks g rank) {f : Frame} (below : List Frame)
    {s : TableState} {x : Symbol} {next : Nat} (hf : g.rule? f.table.symbol = some f.table)
    (hs : f.tableState? = some s) (haction : s.action? l = some (.push x next)) :
    below.length + 1 + rank x < need g rank l .before (f :: below) := by
  obtain ⟨a, harc, ha, -⟩ := arc_of_push hg hf hs haction
  rw [need]
  split
  · next hfresh =>
    rw [Frame.tableState?, hfresh.1] at hs
    exact Nat.add_lt_add_left (hrank.2 f.table (mem_of_rule? hf).1 s hs _ harc _ ha) _
  · exact Nat.add_lt_add_left (hrank.1 x) _

theorem Turn.need_le (hg : g.Lawful) (hrank : Ranks g rank) (hruled : Ruled g p.stack)
    (h : Turn g l t p phase taken) : taken.need g rank l ≤ need g rank l phase p.stack := by
  cases h with
  | rest | refuse | wait => exact length_le_need g rank l _ p.stack
  | shift hstack | full hstack =>
    rw [hstack]
    exact length_le_need g rank l .before (_ :: _)
  | @push f below s x next table hstack hs haction hrule =>
    obtain ⟨a, -, -, hfirst⟩ := arc_of_push hg (hruled f (by simp [hstack])) hs haction
    obtain ⟨-, rfl⟩ := mem_of_rule? hrule
    have hfresh : Fresh g l (Frame.enter table t.line t.column?) := ⟨rfl, hfirst⟩
    have hlt := lt_need_of_push hg hrank below (hruled f (by simp [hstack])) hs haction
    rw [hstack, Stride.need, need, if_pos hfresh, List.length_cons]
    show below.length + 1 + 1 + rank table.symbol ≤ _
    omega
  | @pop _ f outer below s hstack hs hcompletes =>
    rw [hstack, Stride.need]
    cases phase with
    | after => exact Nat.le_succ _
    | before =>
      have hfresh : ¬Fresh g l f := by
        intro hfresh
        have hsome := hfresh.isSome_action? hg (hruled f (by simp [hstack])) hs
        rw [hcompletes.1] at hsome
        cases hsome
      have hle := Pushdown.need_le hrank l (outer.adopt f.node :: below)
      have hneed : need g rank l .before (f :: outer :: below) =
          below.length + 1 + 1 + Symbol.all.length := by
        rw [need, if_neg hfresh, List.length_cons]
      rw [hneed]
      exact hle.trans (Nat.add_le_add_right (Nat.le_succ _) _)
  | popLast => exact Nat.zero_le _

theorem Turn.fits (hg : g.Lawful) (hrank : Ranks g rank) (hruled : Ruled g p.stack)
    (h : Turn g l t p phase taken) (hroom : need g rank l phase p.stack ≤ p.maxDepth) :
    taken.Fits := by
  cases h with
  | shift | push | pop => trivial
  | rest | popLast => cases phase <;> exact Verdict.noConfusion
  | refuse | wait => exact Verdict.noConfusion
  | @full f below s x next hstack hs haction hfull =>
    have hlt := lt_need_of_push hg hrank below (hruled f (by simp [hstack])) hs haction
    rw [hstack] at hroom
    omega

theorem Runs.fits (hruns : Runs l t phase p events r) (hg : ofText text = .ok g)
    (hrank : Ranks g rank) (h : Intact g p) (hroom : need g rank l phase p.stack ≤ p.maxDepth) :
    r.1 ≠ .outOfMemory ∧ r.2.depth ≤ need g rank l phase p.stack := by
  have hlawful := lawful_of_ofText hg
  induction hruns with
  | @ends phase p _ _ _ hstride =>
    have hturn := h.turn hg l t phase
    rw [hstride] at hturn
    exact ⟨hturn.fits hlawful hrank h.ruled hroom, hturn.need_le hlawful hrank h.ruled⟩
  | @goes phase _ p p' _ _ _ hstride _ ih =>
    have hturn := h.turn hg l t phase
    rw [hstride] at hturn
    have hneed := hturn.need_le hlawful hrank h.ruled
    have hmax : p'.maxDepth = p.maxDepth := hturn.maxDepth
    obtain ⟨hfits, hdepth⟩ := ih (h.of_goes hg hstride) ((hneed.trans hroom).trans_eq hmax.symm)
    exact ⟨hfits, hdepth.trans hneed⟩

/-- A token begins each rule once at most, so there is room for it if there is room for all. -/
theorem feed_fits (hg : ofText text = .ok g) (h : Intact g p) (t : Token)
    (hroom : p.depth + Symbol.all.length ≤ p.maxDepth) :
    (feed t p).1 ≠ .outOfMemory ∧ (feed t p).2.depth ≤ p.depth + Symbol.all.length := by
  obtain ⟨rank, hrank⟩ := (lawful_of_ofText hg).exists_rank
  obtain ⟨events, -, hfeeds, -⟩ := h.feed hg t
  generalize feed t p = r at hfeeds ⊢
  cases hfeeds with
  | unknown => exact ⟨Verdict.noConfusion, Nat.le_add_right _ _⟩
  | @known l _ _ _ hruns =>
    have hneed := need_le hrank l (p.locate t).stack
    have hdepth := depth_locate t p
    have hmax := maxDepth_locate t p
    unfold depth at hdepth hroom
    obtain ⟨hfits, hle⟩ := hruns.fits hg hrank (h.locate t) (by omega)
    refine ⟨hfits, hle.trans ?_⟩
    unfold depth
    omega

theorem answers_fit (hg : ofText text = .ok g) (h : Intact g p) (ts : List Token)
    (hroom : p.depth + ts.length * Symbol.all.length ≤ p.maxDepth) :
    .outOfMemory ∉ answers ts p := by
  induction ts generalizing p with
  | nil => exact List.not_mem_nil
  | cons t ts ih =>
    rw [List.length_cons, Nat.add_mul, Nat.one_mul] at hroom
    obtain ⟨hfits, hdepth⟩ := feed_fits hg h t (by omega)
    obtain ⟨-, -, -, hfed⟩ := h.feed hg t
    have hmax := maxDepth_feed hg h t
    rw [answers, List.mem_cons, not_or]
    exact ⟨fun heq => hfits heq.symm, ih hfed (by omega)⟩

end Offside.Pushdown
