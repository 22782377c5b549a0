import Offside.Parse.Run
import Offside.Proofs.Lexer.Tokens
import Offside.Proofs.Pushdown.LineEnds

/-!
Steps of a run over a text. A run gives a tree in some number of steps, and every step that asks
for more lowers a weight, so that enough fuel is as good as any number of steps.
-/

namespace Offside.Run

section Generic

variable {σ α : Type} [Automaton α]

/-- Deals with a lexeme under a kind. -/
def receive (x : Lexeme) (kind : Kind) (r : Run σ α) : Progress × Run σ α :=
  if kind = .typeIgnore then
    match r.pragmas.push x.line x.text with
    | .ok pragmas => (.more, { r with pragmas })
    | .error e => (.failed (.ofAllocError e), r)
  else offer { x.token with kind } r

/-- A lexeme is dealt with wherever the source stands. -/
theorem receive_source (x : Lexeme) (kind : Kind) (r : Run σ α) (source : σ) :
    receive x kind { r with source } =
      ((receive x kind r).1, { (receive x kind r).2 with source }) := by
  unfold receive
  split
  · cases r.pragmas.push x.line x.text <;> rfl
  · unfold offer
    dsimp only
    cases checkSpelling (Automaton.future r.automaton) { x.token with kind } with
    | error f => rfl
    | ok _ =>
      dsimp only
      cases (Automaton.feed { x.token with kind } r.automaton).1 <;> rfl

theorem source_receive (x : Lexeme) (kind : Kind) (r : Run σ α) :
    (receive x kind r).2.source = r.source ∧ (receive x kind r).2.started = r.started := by
  unfold receive
  split
  · cases r.pragmas.push x.line x.text <;> exact ⟨rfl, rfl⟩
  · unfold offer
    cases checkSpelling (Automaton.future r.automaton) { x.token with kind } with
    | error f => exact ⟨rfl, rfl⟩
    | ok _ =>
      dsimp only
      cases (Automaton.feed { x.token with kind } r.automaton).1 <;> exact ⟨rfl, rfl⟩

/-- A token other than an inequality goes to the automaton as it is. -/
theorem receive_eq_more_iff {x : Lexeme} {kind : Kind} (hpragma : kind ≠ .typeIgnore)
    (hne : kind ≠ .notEqual) {r r₁ : Run σ α} :
    receive x kind r = (.more, r₁) ↔
      ∃ automaton, Automaton.feed { x.token with kind } r.automaton = (.more, automaton) ∧
        { r with automaton } = r₁ := by
  unfold receive
  rw [if_neg hpragma, offer, checkSpelling, if_pos hne]
  dsimp only
  generalize Automaton.feed _ r.automaton = answer
  obtain ⟨verdict, automaton⟩ := answer
  cases verdict <;> simp

theorem receive_eq_accepted_iff {x : Lexeme} {kind : Kind} (hpragma : kind ≠ .typeIgnore)
    (hne : kind ≠ .notEqual) {r r₁ : Run σ α} {tree : Node} :
    receive x kind r = (.accepted tree, r₁) ↔
      ∃ automaton, Automaton.feed { x.token with kind } r.automaton = (.accept tree, automaton) ∧
        { r with automaton } = r₁ := by
  unfold receive
  rw [if_neg hpragma, offer, checkSpelling, if_pos hne]
  dsimp only
  generalize Automaton.feed _ r.automaton = answer
  obtain ⟨verdict, automaton⟩ := answer
  cases verdict <;> simp [and_assoc]

variable [TokenSource σ] {flags : Flags}

/-- A run gives a tree, and is left like this. -/
inductive Gives (flags : Flags) : Run σ α → Node → Run σ α → Prop
  | accepted {r r' : Run σ α} {tree : Node} (h : r.step flags = (.accepted tree, r')) :
      Gives flags r tree r'
  | more {r r₁ r' : Run σ α} {tree : Node} (h : r.step flags = (.more, r₁))
      (hrest : Gives flags r₁ tree r') : Gives flags r tree r'

theorem gives_of_loop {fuel : Nat} {r r' : Run σ α} {tree : Node}
    (h : loop flags fuel r = some (.ok tree, r')) : Gives flags r tree r' := by
  induction fuel generalizing r with
  | zero => cases h
  | succ fuel ih =>
    rw [loop] at h
    split at h
    · next r₁ hstep => exact .more hstep (ih h)
    · next tree' r₁ hstep =>
      cases h
      exact .accepted hstep
    · cases h

theorem step_of_error {r : Run σ α} {e : LexError} {source : σ}
    (h : TokenSource.next r.source = (.error e, source)) :
    r.step flags = (.failed (.ofKind (.ofLexError e)), { r with source }) := by
  rw [step, h]

theorem step_of_next {r : Run σ α} {x : Lexeme} {source : σ}
    (h : TokenSource.next r.source = (.ok x, source)) {kind : Kind} {r₁ : Run σ α}
    (hterminate : terminate flags x.kind { r with source } = (kind, r₁)) :
    r.step flags = receive x kind r₁ := by
  rw [step, h]
  dsimp only
  rw [hterminate]
  rfl

theorem step_of_token (flags : Flags) {r : Run σ α} {x : Lexeme} {source : σ}
    (h : TokenSource.next r.source = (.ok x, source)) (hx : x.kind ≠ .endMarker) :
    r.step flags = receive x x.kind { r with source, started := true } :=
  step_of_next h (by rw [terminate, if_pos (Or.inl hx)])

/-- The end marker goes on as it is where no token came before it. -/
theorem step_of_fresh (flags : Flags) {r : Run σ α} {x : Lexeme} {source : σ}
    (h : TokenSource.next r.source = (.ok x, source)) (hx : x.kind = .endMarker)
    (hfresh : r.started = false) :
    r.step flags = receive x .endMarker { r with source, started := true } :=
  step_of_next h (by rw [terminate, if_pos (Or.inr hfresh), hx])

/-- Where the input has ended, the open blocks are closed by dedents. -/
def closeBlocks (flags : Flags) (source : σ) : σ :=
  if 0 < TokenSource.depth source ∧ flags.dontImplyDedent = false
  then TokenSource.queueDedents (TokenSource.depth source) source else source

/-- Else it goes on as a newline. -/
theorem step_of_end (flags : Flags) {r : Run σ α} {x : Lexeme} {source : σ}
    (h : TokenSource.next r.source = (.ok x, source)) (hx : x.kind = .endMarker)
    (hstarted : r.started = true) :
    r.step flags = receive x .newline
      { r with source := closeBlocks flags source, started := false } :=
  step_of_next h (by rw [terminate, if_neg (by simp [hx, hstarted])]; rfl)

end Generic

open Grammar Pushdown

variable {g : Grammar} {root : Symbol} {ts : List Token} {flags : Flags}
  {r r₁ r' : Run Lexer Pushdown} {x : Lexeme} {kind : Kind} {tree : Node} {lx : Lexer}

/-- What comes of a lexeme after some tokens. -/
inductive Received (g : Grammar) (root : Symbol) (ts : List Token) (x : Lexeme) (kind : Kind)
    (r : Run Lexer Pushdown) : Progress × Run Lexer Pushdown → Prop
  | pragma {pragmas : PragmaBuffer} (hkind : kind = .typeIgnore) :
      Received g root ts x kind r (.more, { r with pragmas })
  | more {automaton : Pushdown} (h : Reading g root (ts ++ [{ x.token with kind }]) automaton)
      (hkind : kind ≠ .typeIgnore) : Received g root ts x kind r (.more, { r with automaton })
  | accepted {tree : Node} {automaton : Pushdown}
      (h : Sound g root (ts ++ [{ x.token with kind }]) tree) :
      Received g root ts x kind r (.accepted tree, { r with automaton })
  | failed {f : Failure} {r' : Run Lexer Pushdown} : Received g root ts x kind r (.failed f, r')

theorem received (hg : g.Lawful) (h : Reading g root ts r.automaton) (x : Lexeme) (kind : Kind) :
    Received g root ts x kind r (receive x kind r) := by
  unfold receive
  split
  · next hkind =>
    cases r.pragmas.push x.line x.text with
    | ok pragmas => exact .pragma hkind
    | error e => exact .failed
  · next hkind =>
    unfold offer
    cases checkSpelling (Automaton.future r.automaton) { x.token with kind } with
    | error f => exact .failed
    | ok _ =>
      dsimp only
      cases hfeed : Automaton.feed { x.token with kind } r.automaton with
      | mk verdict automaton =>
        cases verdict with
        | more => exact .more (reading_of_feed hg h hfeed) hkind
        | accept tree => exact .accepted (sound_of_feed hg h hfeed)
        | reject => exact .failed
        | outOfMemory => exact .failed

theorem reading_of_receive (hg : g.Lawful) (hmore : receive x kind r = (.more, r₁))
    (h : Reading g root ts r.automaton) : ∃ ts', Reading g root ts' r₁.automaton := by
  have hreceived := received hg h x kind
  rw [hmore] at hreceived
  cases hreceived with
  | pragma => exact ⟨ts, h⟩
  | more hreading => exact ⟨_, hreading⟩

/-- A step that does not fail has dealt with a lexeme. -/
theorem step_eq_receive (flags : Flags) (r : Run Lexer Pushdown) :
    (∃ f r', r.step flags = (.failed f, r')) ∨
      ∃ x kind r₀, r.step flags = receive x kind r₀ ∧ r₀.automaton = r.automaton := by
  cases hnext : TokenSource.next r.source with
  | mk result lx =>
    cases result with
    | error e => exact Or.inl ⟨_, _, step_of_error hnext⟩
    | ok x =>
      let terminated := terminate flags x.kind { r with source := lx }
      refine Or.inr ⟨x, terminated.1, terminated.2, step_of_next hnext rfl, ?_⟩
      show (terminate flags x.kind { r with source := lx }).2.automaton = _
      unfold terminate
      split <;> rfl

/-- What dealing with a lexeme keeps leads from the start of a run to the tree that it gives. -/
theorem Gives.induction {P : Pushdown → Prop} {Q : Node → Pushdown → Prop}
    (hmore : ∀ x kind (r r₁ : Run Lexer Pushdown), P r.automaton →
      receive x kind r = (.more, r₁) → P r₁.automaton)
    (haccepted : ∀ x kind (r r' : Run Lexer Pushdown) tree, P r.automaton →
      receive x kind r = (.accepted tree, r') → Q tree r'.automaton)
    (hgives : Gives flags r tree r') (h : P r.automaton) : Q tree r'.automaton := by
  induction hgives with
  | @accepted r r' tree hstep =>
    rcases step_eq_receive flags r with ⟨f, r₁, hfailed⟩ | ⟨x, kind, r₀, hreceive, hautomaton⟩
    · rw [hfailed] at hstep
      cases hstep
    · rw [hreceive] at hstep
      exact haccepted x kind r₀ r' tree (hautomaton ▸ h) hstep
  | @more r r₁ r' tree hstep _ ih =>
    rcases step_eq_receive flags r with ⟨f, r₂, hfailed⟩ | ⟨x, kind, r₀, hreceive, hautomaton⟩
    · rw [hfailed] at hstep
      cases hstep
    · rw [hreceive] at hstep
      exact ih (hmore x kind r₀ r₁ (hautomaton ▸ h) hstep)

/-- The tree that a run gives is one of the grammar. -/
theorem sound_of_gives (hg : g.Lawful) (hgives : Gives flags r tree r')
    (h : Reading g root ts r.automaton) : ∃ ts', Sound g root ts' tree := by
  refine hgives.induction (P := fun p => ∃ ts, Reading g root ts p)
    (Q := fun tree _ => ∃ ts, Sound g root ts tree) ?_ ?_ ⟨ts, h⟩
  · rintro x kind r r₁ ⟨ts, h⟩ hmore
    exact reading_of_receive hg hmore h
  · rintro x kind r r' tree ⟨ts, h⟩ haccepted
    have hreceived := received hg h x kind
    rw [haccepted] at hreceived
    cases hreceived with
    | accepted hsound => exact ⟨_, hsound⟩

theorem closeBlocks_of_open (hflags : flags.dontImplyDedent = false)
    (h : 0 < lx.indents.depth) : closeBlocks flags lx = lx.queueDedents lx.indents.depth :=
  if_pos ⟨h, hflags⟩

theorem closeBlocks_of_kept (h : ¬(0 < lx.indents.depth ∧ flags.dontImplyDedent = false)) :
    closeBlocks flags lx = lx :=
  if_neg h

/-- How much is left to do: no step but the last is without progress. -/
def weight (r : Run Lexer Pushdown) : Nat := 2 * r.source.weight + if r.started then 2 else 1

theorem weight_closeBlocks (flags : Flags) (lx : Lexer) :
    (closeBlocks flags lx).weight ≤ lx.weight := by
  unfold closeBlocks
  split
  · show (lx.queueDedents lx.indents.depth).weight ≤ lx.weight
    simp only [Lexer.weight, Lexer.queueDedents, Indents.depth, Indents.empty, List.length_nil,
      Bool.toNat_false]
    omega
  · exact Nat.le_refl _

/-- A step that asks for more has lowered the weight. -/
theorem step_spec (hg : g.Lawful) (he : g.EndMarked root) (h : Reading g root ts r.automaton)
    (hstep : r.step flags = (.more, r₁)) :
    r₁.weight < r.weight ∧ ∃ ts', Reading g root ts' r₁.automaton := by
  cases hnext : r.source.next with
  | mk result lx =>
    cases result with
    | error e =>
      rw [step_of_error hnext] at hstep
      cases hstep
    | ok x =>
      by_cases hx : x.kind = .endMarker
      · have hle := Lexer.next_weight_le hnext
        cases hstarted : r.started with
        | false =>
          rw [step_of_fresh flags hnext hx hstarted,
            receive_eq_more_iff (by decide) (by decide)] at hstep
          obtain ⟨automaton, hfeed, _⟩ := hstep
          exact absurd (congrArg Prod.fst hfeed) (feed_endMarker_ne_more hg he h rfl)
        | true =>
          rw [step_of_end flags hnext hx hstarted] at hstep
          obtain ⟨hsource, hflag⟩ := source_receive x .newline
            { r with source := closeBlocks flags lx, started := false }
          have hclose := weight_closeBlocks flags lx
          rw [hstep] at hsource hflag
          refine ⟨?_, reading_of_receive hg hstep h⟩
          rw [weight, weight, hsource, hflag, hstarted]
          dsimp only
          rw [if_neg Bool.false_ne_true, if_pos rfl]
          omega
      · have hlt := Lexer.next_weight_lt hnext hx
        rw [step_of_token flags hnext hx] at hstep
        obtain ⟨hsource, hflag⟩ := source_receive x x.kind
          { r with source := lx, started := true }
        rw [hstep] at hsource hflag
        refine ⟨?_, reading_of_receive hg hstep h⟩
        rw [weight, weight, hsource, hflag]
        dsimp only
        rw [if_pos rfl]
        split <;> omega

/-- Enough fuel gives the tree. -/
theorem loop_of_gives (hg : g.Lawful) (he : g.EndMarked root) (hgives : Gives flags r tree r')
    (h : Reading g root ts r.automaton) {fuel : Nat} (hfuel : r.weight ≤ fuel) :
    loop flags fuel r = some (.ok tree, r') := by
  induction hgives generalizing ts fuel with
  | @accepted r r' tree hstep =>
    cases fuel with
    | zero =>
      unfold weight at hfuel
      split at hfuel <;> omega
    | succ fuel => rw [loop, hstep]
  | @more r r₁ r' tree hstep _ ih =>
    obtain ⟨hlt, ts', hreading⟩ := step_spec hg he h hstep
    cases fuel with
    | zero => omega
    | succ fuel =>
      rw [loop, hstep]
      exact ih hreading (by omega)

end Offside.Run
