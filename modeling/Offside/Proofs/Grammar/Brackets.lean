import Offside.Proofs.Grammar.Blocks
import Offside.Proofs.Lexer.Margins

/-!
Grammars of brackets. A lexer counts brackets whatever their kinds, and a closing bracket that
closes nothing does not count. If the states of each rule can be given levels, such that an arc
goes up with an opening bracket, down with a closing one, and stays with all else, and a rule starts
and ends at level zero, then no bracket of a tree is left open and none closes nothing.
-/

namespace Offside

/-- Brackets that are open behind some tokens, if `depth` are open before them. -/
def bracketsAfter (depth : Nat) (ts : List Token) : Nat :=
  ts.foldl (fun depth t => t.kind.nest depth) depth

@[simp] theorem bracketsAfter_nil (depth : Nat) : bracketsAfter depth [] = depth := rfl

@[simp] theorem bracketsAfter_cons (depth : Nat) (t : Token) (ts : List Token) :
    bracketsAfter depth (t :: ts) = bracketsAfter (t.kind.nest depth) ts := rfl

theorem bracketsAfter_append (depth : Nat) (ts us : List Token) :
    bracketsAfter depth (ts ++ us) = bracketsAfter (bracketsAfter depth ts) us :=
  List.foldl_append

/-- A token that is no bracket changes no depth. -/
theorem Kind.nest_eq {k : Kind} (hopens : Plain.opens k = false) (hcloses : Plain.closes k = false)
    (depth : Nat) : k.nest depth = depth := by
  simp [nest, hopens, hcloses]

/-- Where there is a bracket to close, brackets further out do not matter. -/
theorem Kind.nest_add {k : Kind} {level : Nat} (h : Plain.closes k = true → 0 < level)
    (depth : Nat) : k.nest (depth + level) = depth + k.nest level := by
  unfold nest
  split
  · rfl
  · split
    · next hcloses =>
      have := h hcloses
      omega
    · rfl

/-- Tokens without brackets change no depth. -/
theorem bracketsAfter_of_flat {ts : List Token} (depth : Nat)
    (h : ∀ t ∈ ts, Plain.opens t.kind = false ∧ Plain.closes t.kind = false) :
    bracketsAfter depth ts = depth := by
  induction ts with
  | nil => rfl
  | cons t ts ih =>
    obtain ⟨⟨hopens, hcloses⟩, hts⟩ := List.forall_mem_cons.1 h
    rw [bracketsAfter_cons, Kind.nest_eq hopens hcloses, ih hts]

namespace Grammar

/-- An arc with this label leads from one level to another. -/
def Nests (g : Grammar) (a level level' : Nat) : Prop :=
  match g.labels[a]? with
  | some (.token k) => level' = k.nest level ∧ (Plain.closes k = true → 0 < level)
  | _ => level' = level

instance (g : Grammar) (a level level' : Nat) : Decidable (g.Nests a level level') := by
  unfold Nests
  split <;> infer_instance

/-- Whether the states of the rules are inside so many brackets. -/
structure Bracketed (g : Grammar) (level : Symbol → Nat → Nat) : Prop where
  start : ∀ t ∈ g.rules, level t.symbol 0 = 0
  arc : ∀ t ∈ g.rules, ∀ q < t.states.length, ∀ s ∈ t.states[q]?, ∀ arc ∈ s.arcs,
    g.Nests arc.1 (level t.symbol q) (level t.symbol arc.2)
  accepting : ∀ t ∈ g.rules, ∀ q < t.states.length, ∀ s ∈ t.states[q]?, s.accepting = true →
    level t.symbol q = 0

instance (g : Grammar) (level : Symbol → Nat → Nat) : Decidable (g.Bracketed level) :=
  decidable_of_iff
    ((∀ t ∈ g.rules, level t.symbol 0 = 0) ∧
      (∀ t ∈ g.rules, ∀ q < t.states.length, ∀ s ∈ t.states[q]?, ∀ arc ∈ s.arcs,
        g.Nests arc.1 (level t.symbol q) (level t.symbol arc.2)) ∧
      ∀ t ∈ g.rules, ∀ q < t.states.length, ∀ s ∈ t.states[q]?, s.accepting = true →
        level t.symbol q = 0)
    ⟨fun ⟨h₁, h₂, h₃⟩ => ⟨h₁, h₂, h₃⟩, fun ⟨h₁, h₂, h₃⟩ => ⟨h₁, h₂, h₃⟩⟩

variable {g : Grammar} {level : Symbol → Nat → Nat}

/-- A whole node leaves no bracket open. -/
def Whole (n : Node) : Prop :=
  ∀ s, n.kind = .symbol s → ∀ depth, bracketsAfter depth n.tokens = depth

/-- Reading a node goes from level to level as its arc does. -/
theorem Nests.node {a l l' : Nat} (h : g.Nests a l l') {n : Node} (hn : g.Derivation n)
    (ha : g.labelOf? n = some a) (hwhole : Whole n) (depth : Nat) :
    bracketsAfter (depth + l) n.tokens = depth + l' := by
  have hlabel := getElem?_of_labelOf? ha
  unfold Nests at h
  rw [hlabel] at h
  cases hn with
  | @leaf t _ =>
    rw [inForm_leaf, terminal] at h
    rw [Node.tokens_leaf, bracketsAfter_cons, bracketsAfter_nil]
    by_cases hword : t.kind = .word ∧ .keyword t.text ∈ g.labels
    · rw [if_pos hword] at h
      dsimp only at h
      rw [hword.1, h, Kind.nest_eq rfl rfl]
    · rw [if_neg hword] at h
      dsimp only at h
      rw [Kind.nest_add h.2, h.1]
  | branch =>
    rw [inForm_branch] at h
    dsimp only at h
    rw [hwhole _ rfl, h]

theorem Bracketed.run (h : g.Bracketed level) {t : RuleTable} (ht : t ∈ g.rules) {ns : List Node}
    (hns : ∀ n ∈ ns, g.Derivation n ∧ Whole n) (depth : Nat) :
    ∀ {labels : List Nat} {q r : Nat}, g.Labelled ns labels →
      Dfa.run t.dfa q labels = some r →
        bracketsAfter (depth + level t.symbol q) (ns.flatMap Node.tokens) =
          depth + level t.symbol r := by
  induction ns with
  | nil =>
    intro labels q r hlabels hrun
    obtain rfl : labels = [] := by simpa [Labelled] using hlabels.symm
    obtain rfl := Option.some.inj hrun
    rfl
  | cons n ns ih =>
    intro labels q r hlabels hrun
    obtain ⟨⟨hn, hwhole⟩, hns⟩ := List.forall_mem_cons.1 hns
    cases labels with
    | nil => simp [Labelled] at hlabels
    | cons a labels =>
      obtain ⟨ha, hlabels⟩ := List.cons.inj hlabels
      rw [Dfa.run_cons] at hrun
      obtain ⟨next, hnext, hrun⟩ := Option.bind_eq_some_iff.1 hrun
      obtain ⟨s, hs, harc⟩ := Pushdown.arc_of_next? hnext
      have hnests : g.Nests a (level t.symbol q) (level t.symbol next) :=
        h.arc t ht q (List.getElem?_eq_some_iff.1 hs).1 s hs _ harc
      rw [List.flatMap_cons, bracketsAfter_append, hnests.node hn ha hwhole, ih hns hlabels hrun]

/-- In what a rule derives every bracket is closed, and closes one. -/
theorem Bracketed.whole (h : g.Bracketed level) {n : Node} (hn : g.Derivation n) : Whole n := by
  induction hn with
  | leaf =>
    intro s hs
    cases hs
  | @branch s line column? children table labels hrule hlabels haccepts hchildren ih =>
    obtain ⟨q, hrun, hq⟩ := Dfa.acceptsFrom_iff.1 haccepts
    obtain ⟨s', hs', haccepting⟩ := Pushdown.accepting_of_isAccepting hq
    obtain ⟨htable, rfl⟩ := mem_of_rule? hrule
    have hlt : q < table.states.length := (List.getElem?_eq_some_iff.1 hs').1
    intro s _ depth
    have hlevels := h.run htable (fun n hn => ⟨hchildren n hn, ih n hn⟩) depth hlabels hrun
    rw [h.start table htable, h.accepting table htable q hlt s' hs' haccepting] at hlevels
    rw [Node.tokens_branch]
    exact hlevels

end Grammar
end Offside
