import Offside.Proofs.Grammar.Over
import Offside.Proofs.Pushdown.LineEnds
import Offside.Proofs.Tree.Closings

/-!
Features and the inequalities that they change. An automaton turns a feature on when the rule that
imports it is completed, and so it holds those that the nodes which have ended tell of. A token
is offered before the rules that it completes have ended; but behind an import no inequality can
be read, and so none is missed.
-/

namespace Offside

/-- A node that imports the feature `angleInequality`, under its name or another one. -/
def ImportsAngleInequality (n : Node) : Prop :=
  n.kind = .symbol .importFrom ∧
    (∃ m ∈ n.child? 1, m.kind = .symbol .dottedName ∧
      m.children.map Node.text? = [some "__future__"]) ∧
    ∃ names ∈ n.children, names.kind = .symbol .importAsNames ∧
      ∃ m ∈ names.children, m.kind = .symbol .importAsName ∧
        ∃ w ∈ m.child? 0, w.kind = .token .word ∧ w.text? = some "barry_as_FLUFL"

instance (n : Node) : Decidable (ImportsAngleInequality n) :=
  inferInstanceAs (Decidable (_ ∧ _ ∧ _))

theorem importsFeatures_iff (n : Node) : importsFeatures n = true ↔
    ∃ m ∈ n.child? 1, m.kind = .symbol .dottedName ∧
      m.children.map Node.text? = [some "__future__"] := by
  unfold importsFeatures
  cases n.child? 1 with
  | none => simp
  | some m =>
    have hnames : (m.children.length = 1 ∧ (m.child? 0).bind Node.text? = some "__future__") ↔
        m.children.map Node.text? = [some "__future__"] := by
      rw [Node.child?]
      cases m.children with
      | nil => simp
      | cons w ws => cases ws <;> simp
    simp [Node.isSymbol, and_assoc, hnames]

theorem namesAngleInequality_iff (names : Node) : namesAngleInequality names = true ↔
    ∃ m ∈ names.children, m.kind = .symbol .importAsName ∧
      ∃ w ∈ m.child? 0, w.kind = .token .word ∧ w.text? = some "barry_as_FLUFL" := by
  unfold namesAngleInequality
  rw [List.any_eq_true]
  refine exists_congr fun m => and_congr_right fun _ => ?_
  rw [Bool.and_eq_true, Node.isSymbol_iff, Node.symbol?_eq_some_iff]
  refine and_congr_right fun _ => ?_
  cases m.child? 0 with
  | none => simp
  | some w => simp [Node.isToken]

/-- The last of the members of a kind is any of them, if there is one at most. -/
theorem find?_reverse_eq_some_iff {α : Type} {p : α → Bool} {as : List α} {a : α}
    (h : (as.filter p).length ≤ 1) : as.reverse.find? p = some a ↔ a ∈ as ∧ p a = true := by
  constructor
  · intro hfind
    exact ⟨List.mem_reverse.1 (List.mem_of_find?_eq_some hfind), List.find?_some hfind⟩
  · rintro ⟨hmem, ha⟩
    obtain ⟨b, hfind⟩ := Option.isSome_iff_exists.1
      (List.find?_isSome.2 ⟨a, List.mem_reverse.2 hmem, ha⟩)
    have hb := List.mem_filter.2
      ⟨List.mem_reverse.1 (List.mem_of_find?_eq_some hfind), List.find?_some hfind⟩
    have ha := List.mem_filter.2 ⟨hmem, ha⟩
    obtain ⟨c, hc⟩ := List.length_eq_one_iff.1 (Nat.le_antisymm h (List.length_pos_of_mem ha))
    rw [hc, List.mem_singleton] at ha hb
    rw [hfind, ha, hb]

/-- An import of names holds them in one place, and then the feature is turned on if it is named. -/
theorem futureAfter_eq {n : Node}
    (h : n.kind = .symbol .importFrom →
      (n.children.filter (Node.isSymbol .importAsNames)).length ≤ 1) (bits : Future) :
    futureAfter n bits = if ImportsAngleInequality n then bits ||| angleInequality else bits := by
  have hiff : (n.isSymbol .importFrom && turnsOnAngleInequality n) = true ↔
      ImportsAngleInequality n := by
    rw [Bool.and_eq_true, Node.isSymbol_iff, Node.symbol?_eq_some_iff, turnsOnAngleInequality,
      Bool.and_eq_true, importsFeatures_iff]
    refine and_congr_right fun hkind => and_congr_right fun _ => ?_
    have hfind := fun names => find?_reverse_eq_some_iff (a := names) (h hkind)
    constructor
    · intro hnames
      split at hnames
      · next names hlast =>
        obtain ⟨hmem, hsymbol⟩ := (hfind names).1 hlast
        exact ⟨names, hmem, beq_iff_eq.1 hsymbol, (namesAngleInequality_iff names).1 hnames⟩
      · cases hnames
    · rintro ⟨names, hmem, hsymbol, hnames⟩
      rw [(hfind names).2 ⟨hmem, beq_iff_eq.2 hsymbol⟩]
      exact (namesAngleInequality_iff names).2 hnames
  unfold futureAfter
  by_cases himports : ImportsAngleInequality n
  · rw [if_pos himports, if_pos (hiff.2 himports)]
  · rw [if_neg himports, if_neg fun hturns => himports (hiff.1 hturns)]

theorem futureAfter_of_ne {n : Node} (h : n.kind ≠ .symbol .importFrom) (bits : Future) :
    futureAfter n bits = bits := by
  have hsymbol : n.isSymbol .importFrom = false := beq_eq_false_iff_ne.2 h
  rw [futureAfter, hsymbol, Bool.false_and, if_neg Bool.false_ne_true]

/-- The features that are turned on when these nodes have ended, first one first. -/
def featuresAfter (bits : Future) (log : List Node) : Future :=
  log.foldl (fun bits n => futureAfter n bits) bits

@[simp] theorem featuresAfter_nil (bits : Future) : featuresAfter bits [] = bits := rfl

@[simp] theorem featuresAfter_cons (bits : Future) (n : Node) (log : List Node) :
    featuresAfter bits (n :: log) = featuresAfter (futureAfter n bits) log := rfl

theorem featuresAfter_append (bits : Future) (log more : List Node) :
    featuresAfter bits (log ++ more) = featuresAfter (featuresAfter bits log) more :=
  List.foldl_append

/-- An inequality, if the node is one, has the spelling that some features ask for. -/
def Node.SpelledUnder (bits : Future) (n : Node) : Prop :=
  n.kind = .token .notEqual →
    n.text? = some (if Future.has angleInequality bits then "<>" else "!=")

/-- Each inequality among nodes that end one after the other is spelled under the features that
are turned on before it. -/
def SpelledAlong : Future → List Node → Prop
  | _, [] => True
  | bits, n :: log => n.SpelledUnder bits ∧ SpelledAlong (futureAfter n bits) log

theorem spelledAlong_append {bits : Future} {log more : List Node} :
    SpelledAlong bits (log ++ more) ↔
      SpelledAlong bits log ∧ SpelledAlong (featuresAfter bits log) more := by
  induction log generalizing bits with
  | nil => exact ⟨fun h => ⟨trivial, h⟩, fun h => h.2⟩
  | cons n log ih =>
    rw [List.cons_append, SpelledAlong, SpelledAlong, ih, featuresAfter_cons, and_assoc]

theorem spelledAlong_concat {bits : Future} {log : List Node} {n : Node}
    (h : SpelledAlong bits log) (hn : n.SpelledUnder (featuresAfter bits log)) :
    SpelledAlong bits (log ++ [n]) :=
  spelledAlong_append.2 ⟨h, hn, trivial⟩

theorem SpelledAlong.of_split {bits : Future} {before after : List Node} {n : Node}
    (h : SpelledAlong bits (before ++ n :: after)) :
    n.SpelledUnder (featuresAfter bits before) :=
  (spelledAlong_append.1 h).2.1

/-- Inequalities, and imports that may change their spelling. -/
def Node.bearsOnFeatures (n : Node) : Bool := n.isToken .notEqual || n.isSymbol .importFrom

/-- All other nodes leave the features alone. -/
theorem featuresAfter_filter (bits : Future) (log : List Node) :
    featuresAfter bits (log.filter Node.bearsOnFeatures) = featuresAfter bits log := by
  induction log generalizing bits with
  | nil => rfl
  | cons n log ih =>
    cases hn : n.bearsOnFeatures with
    | true => rw [List.filter_cons_of_pos hn, featuresAfter_cons, featuresAfter_cons, ih]
    | false =>
      rw [Node.bearsOnFeatures, Bool.or_eq_false_iff] at hn
      have hkind : n.kind ≠ .symbol .importFrom := beq_eq_false_iff_ne.1 hn.2
      rw [List.filter_cons_of_neg (by simp [Node.bearsOnFeatures, hn]), featuresAfter_cons,
        futureAfter_of_ne hkind, ih]

theorem spelledAlong_filter {bits : Future} {log : List Node} :
    SpelledAlong bits (log.filter Node.bearsOnFeatures) ↔ SpelledAlong bits log := by
  induction log generalizing bits with
  | nil => exact Iff.rfl
  | cons n log ih =>
    cases hn : n.bearsOnFeatures with
    | true => rw [List.filter_cons_of_pos hn, SpelledAlong, SpelledAlong, ih]
    | false =>
      rw [Node.bearsOnFeatures, Bool.or_eq_false_iff] at hn
      have hsymbol : n.kind ≠ .symbol .importFrom := beq_eq_false_iff_ne.1 hn.2
      have htoken : n.kind ≠ .token .notEqual := beq_eq_false_iff_ne.1 hn.1
      rw [List.filter_cons_of_neg (by simp [Node.bearsOnFeatures, hn]), SpelledAlong,
        futureAfter_of_ne hsymbol, ih]
      exact ⟨fun h => ⟨fun hkind => absurd hkind htoken, h⟩, fun h => h.2⟩

theorem has_or_angleInequality (bits : Future) :
    Future.has angleInequality (bits ||| angleInequality) = true := by
  rw [Future.has, beq_iff_eq, ← UInt32.toBitVec_inj, UInt32.toBitVec_and, UInt32.toBitVec_or]
  ext i hi
  simp only [BitVec.getElem_and, BitVec.getElem_or]
  cases (UInt32.toBitVec bits)[i] <;> cases (UInt32.toBitVec angleInequality)[i] <;> rfl

/-- The features behind nodes of which each import of names holds them in one place. -/
theorem featuresAfter_eq {bits : Future} {log : List Node}
    (h : ∀ n ∈ log, n.kind = .symbol .importFrom →
      (n.children.filter (Node.isSymbol .importAsNames)).length ≤ 1) :
    featuresAfter bits log =
      if ∃ n ∈ log, ImportsAngleInequality n then bits ||| angleInequality else bits := by
  induction log generalizing bits with
  | nil =>
    rw [if_neg (by simp)]
    rfl
  | cons n log ih =>
    obtain ⟨hn, hlog⟩ := List.forall_mem_cons.1 h
    rw [featuresAfter_cons, ih hlog, futureAfter_eq hn]
    by_cases himports : ImportsAngleInequality n
    · have hmem : ∃ m ∈ n :: log, ImportsAngleInequality m := ⟨n, List.mem_cons_self, himports⟩
      rw [if_pos himports, if_pos hmem, UInt32.or_assoc, UInt32.or_self, ite_self]
    · have hiff : (∃ m ∈ n :: log, ImportsAngleInequality m) ↔
          ∃ m ∈ log, ImportsAngleInequality m := by
        simp [himports]
      rw [if_neg himports]
      simp only [hiff]

namespace Frame

/-- The nodes that have ended in a rule in progress. -/
def closings (f : Frame) : List Node := f.children.reverse.flatMap Node.closings

theorem closings_adopt (f : Frame) (n : Node) :
    (f.adopt n).closings = f.closings ++ n.closings := by
  simp only [closings, adopt, List.reverse_cons, List.flatMap_append, List.flatMap_singleton]

theorem closings_node (f : Frame) : f.node.closings = f.closings ++ [f.node] := by
  rw [node, Node.closings_branch]
  rfl

end Frame

namespace Pushdown

open Grammar

/-- The nodes that have ended in all rules in progress. -/
def closingsOf : List Frame → List Node
  | [] => []
  | f :: below => closingsOf below ++ f.closings

theorem closingsOf_cons (f : Frame) (below : List Frame) :
    closingsOf (f :: below) = closingsOf below ++ f.closings := rfl

/-- To complete a rule is to end its node. -/
theorem closingsOf_pop (f outer : Frame) (below : List Frame) :
    closingsOf (outer.adopt f.node :: below) = closingsOf (f :: outer :: below) ++ [f.node] := by
  simp only [closingsOf_cons, Frame.closings_adopt, Frame.closings_node, List.append_assoc]

/-- An automaton that began with some features tells of those that have been turned on since, and
has let inequalities pass as these ask for. -/
structure Tracks (bits : Future) (p : Pushdown) : Prop where
  future : p.future = featuresAfter bits (closingsOf p.stack)
  spelled : SpelledAlong bits (closingsOf p.stack)

/-- Only the nodes that have ended and the features matter. -/
theorem Tracks.of_eq {bits : Future} {p q : Pushdown} (h : Tracks bits p)
    (hfuture : q.future = p.future) (hclosings : closingsOf q.stack = closingsOf p.stack) :
    Tracks bits q :=
  ⟨by rw [hfuture, hclosings, h.future], hclosings ▸ h.spelled⟩

/-- What is known of the features after an answer. -/
inductive Tracked (bits : Future) : Verdict × Pushdown → Prop
  | more {p : Pushdown} (h : Tracks bits p) : Tracked bits (.more, p)
  | accept {tree : Node} {p : Pushdown} (hfuture : p.future = featuresAfter bits tree.closings)
      (hspelled : SpelledAlong bits tree.closings) : Tracked bits (.accept tree, p)
  | reject {expected? : Option Kind} {p : Pushdown} : Tracked bits (.reject expected?, p)
  | outOfMemory {p : Pushdown} : Tracked bits (.outOfMemory, p)

variable {g : Grammar} {root : Symbol} {ts : List Token} {symbols : List Symbol} {bits : Future}
  {p : Pushdown} {f outer : Frame} {below : List Frame} {t : Token} {l : Nat}

/-- A rule is no inequality. -/
theorem spelledUnder_node (f : Frame) (bits : Future) : f.node.SpelledUnder bits :=
  fun h => NodeKind.noConfusion h

theorem Tracks.pop_inner (h : Tracks bits p) (hstack : p.stack = f :: outer :: below) :
    Tracks bits { p with
      future := futureAfter f.node p.future, stack := outer.adopt f.node :: below } := by
  obtain ⟨hfuture, hspelled⟩ := h
  rw [hstack] at hfuture hspelled
  refine ⟨?_, ?_⟩
  · dsimp only
    rw [closingsOf_pop, featuresAfter_append, ← hfuture]
    rfl
  · dsimp only
    rw [closingsOf_pop]
    exact spelledAlong_concat hspelled (spelledUnder_node f _)

theorem Tracks.pop_outermost (h : Tracks bits p) (hstack : p.stack = [f]) :
    Tracked bits (.accept f.node,
      { p with future := futureAfter f.node p.future, stack := [] }) := by
  obtain ⟨hfuture, hspelled⟩ := h
  rw [hstack, closingsOf_cons, closingsOf, List.nil_append] at hfuture hspelled
  refine .accept ?_ ?_
  · dsimp only
    rw [Frame.closings_node, featuresAfter_append, ← hfuture]
    rfl
  · rw [Frame.closings_node]
    exact spelledAlong_concat hspelled (spelledUnder_node f _)

theorem Tracks.shift (h : Tracks bits p) (ht : (Node.leaf t).SpelledUnder p.future) (next : Nat) :
    Tracks bits (p.shift t next) := by
  unfold Pushdown.shift
  split
  · exact h
  · next f below hstack =>
    obtain ⟨hfuture, hspelled⟩ := h
    rw [hstack] at hfuture hspelled
    have hclosings : closingsOf ((f.goto next).adopt (.leaf t) :: below) =
        closingsOf (f :: below) ++ [.leaf t] := by
      rw [closingsOf_cons, closingsOf_cons, Frame.closings_adopt, Node.closings_leaf,
        List.append_assoc]
      rfl
    refine ⟨?_, ?_⟩
    · dsimp only
      have hleaf : (Node.leaf t).kind ≠ .symbol .importFrom := fun h => NodeKind.noConfusion h
      rw [hclosings, featuresAfter_append, ← hfuture, featuresAfter_cons, futureAfter_of_ne hleaf,
        featuresAfter_nil]
    · dsimp only
      rw [hclosings]
      exact spelledAlong_concat hspelled (hfuture ▸ ht)

/-- Nothing has ended in a rule that has just been begun. -/
theorem Tracks.push (h : Tracks bits p) (hstack : p.stack = f :: below) (table : RuleTable)
    (line : Nat) (column? : Option Nat) (next : Nat) :
    Tracks bits { p with stack := Frame.enter table line column? :: f.goto next :: below } := by
  refine h.of_eq rfl ?_
  rw [hstack]
  exact List.append_nil _

theorem Tracks.unwind (h : Tracks bits p) : Tracked bits p.unwind :=
  unwind_induction (fun _ h => .more h) (fun _ _ h hstack _ => h.pop_outermost hstack)
    (fun _ _ _ _ h hstack _ => h.pop_inner hstack) p h

/-- A rule that cannot read a token, and when it is over leaves those around it no better off. -/
def Barred (symbols : List Symbol) (l : Nat) (f : Frame) : Prop :=
  ∀ s ∈ f.tableState?, s.action? l = none ∧ (s.accepting = true → f.table.symbol ∈ symbols)

/-- Where one of the rules behind which the token is refused is over, the rule around it is
barred. -/
theorem barred_outer {k : Kind} (hover : g.Refuses k symbols)
    (hl : g.labels.idxOf? (.token k) = some l)
    (h : Stacked g root [] (f :: outer :: below)) (hf : f.table.symbol ∈ symbols) :
    Barred symbols l (outer.adopt f.node) := by
  cases h with
  | @inner _ _ _ _ a _ ha hbelow =>
    have houter := hbelow.top
    obtain ⟨labels, _, hrun⟩ := houter.state
    obtain ⟨r, hr, harc⟩ := exists_arc_of_run hrun
    intro s hs
    obtain ⟨haction, hsymbol⟩ := hover outer.table (mem_of_rule? houter.rule).1 r hr _ harc
      f.table.symbol hf ha s hs
    exact ⟨haction l hl, hsymbol⟩

/-- What is known of the spelling of a token that is at work: it is right for the features that are
turned on, or the token is refused. -/
def Settled (symbols : List Symbol) (t : Token) (l : Nat) (p : Pushdown) : Prop :=
  (Node.leaf t).SpelledUnder p.future ∨
    t.kind = .notEqual ∧ ∀ f ∈ p.stack.head?, Barred symbols l f

/-- Completing a rule changes nothing about the spelling of an inequality, unless inequalities are
refused behind the rule. -/
theorem spelledUnder_pop (himports : .importFrom ∈ symbols) (ht : (Node.leaf t).SpelledUnder bits)
    (hf : t.kind = .notEqual → f.table.symbol ∉ symbols) :
    (Node.leaf t).SpelledUnder (futureAfter f.node bits) := by
  intro hkind
  have hsymbol : f.node.kind ≠ .symbol .importFrom := by
    intro heq
    have hfrom : f.table.symbol = .importFrom := NodeKind.symbol.inj heq
    exact hf (NodeKind.token.inj hkind) (hfrom ▸ himports)
  rw [futureAfter_of_ne hsymbol]
  exact ht hkind

theorem Settled.spelled (h : Settled symbols t l p) (hstack : p.stack = f :: below)
    {s : TableState} (hs : f.tableState? = some s) (haction : s.action? l ≠ none) :
    (Node.leaf t).SpelledUnder p.future := by
  rcases h with ht | ⟨_, hbarred⟩
  · exact ht
  · exact absurd (hbarred f (by rw [hstack]; rfl) s hs).1 haction

theorem Settled.pop (h : Settled symbols t l p) (hover : g.Refuses .notEqual symbols)
    (himports : .importFrom ∈ symbols) (hl : g.classify t.kind t.text = some l)
    (hstacked : Stacked g root [] (f :: outer :: below)) (hstack : p.stack = f :: outer :: below)
    {s : TableState} (hs : f.tableState? = some s) (haccepting : s.accepting = true) :
    Settled symbols t l { p with
      future := futureAfter f.node p.future, stack := outer.adopt f.node :: below } := by
  by_cases hrefused : t.kind = .notEqual ∧ f.table.symbol ∈ symbols
  · have hlabel : g.labels.idxOf? (.token .notEqual) = some l := by
      rw [← hrefused.1]
      exact idxOf?_of_classify (by rw [hrefused.1]; decide) hl
    refine Or.inr ⟨hrefused.1, fun f' hf' => ?_⟩
    obtain rfl := Option.some.inj hf'
    exact barred_outer hover hlabel hstacked hrefused.2
  · rcases h with ht | ⟨hkind, hbarred⟩
    · exact Or.inl (spelledUnder_pop himports ht fun hkind hmem => hrefused ⟨hkind, hmem⟩)
    · have hmem := (hbarred f (by rw [hstack]; rfl) s hs).2 haccepting
      exact absurd ⟨hkind, hmem⟩ hrefused

theorem run_tracked (hg : g.Lawful) (hover : g.Refuses .notEqual symbols)
    (himports : .importFrom ∈ symbols) (hl : g.classify t.kind t.text = some l) (fuel : Nat)
    (p : Pushdown) (hgrammar : p.grammar = g) (h : Working g root ts t l p.stack)
    (htracks : Tracks bits p) (ht : (Node.leaf t).SpelledUnder p.future) :
    Tracked bits (run l t fuel p) := by
  -- the spelling was checked under the features of before, and completing rules may add to them
  refine run_induction
    (P := fun p => p.grammar = g ∧ Working g root ts t l p.stack ∧ Tracks bits p ∧
      Settled symbols t l p)
    (fun _ _ => .reject) (fun _ => .outOfMemory) ?_ ?_ ?_ fuel p
    ⟨hgrammar, h, htracks, Or.inl ht⟩
  · rintro p f below s next ⟨_, _, htracks, hsettled⟩ hstack hs haction
    exact (htracks.shift (hsettled.spelled hstack hs (by simp [haction])) next).unwind
  · rintro p f outer below s ⟨hgrammar, h, htracks, hsettled⟩ hstack hs haction haccepting
    exact ⟨hgrammar, working_pop hg (hstack ▸ h) hs haction haccepting, htracks.pop_inner hstack,
      hsettled.pop hover himports hl (hstack ▸ h.stacked) hstack hs haccepting⟩
  · rintro p f below s x next table ⟨hgrammar, h, htracks, hsettled⟩ hstack hs haction htable
    rw [hgrammar] at htable
    exact ⟨hgrammar, working_push hg (hstack ▸ h) hs haction htable,
      htracks.push hstack table _ _ next,
      Or.inl (hsettled.spelled hstack hs (by simp [haction]))⟩

theorem closingsOf_locate (p : Pushdown) (t : Token) :
    closingsOf (p.locate t).stack = closingsOf p.stack := by
  have hmap : ∀ stack : List Frame,
      closingsOf (stack.map fun f => { f with line := t.line, column? := t.column? }) =
        closingsOf stack := by
    intro stack
    induction stack with
    | nil => rfl
    | cons f below ih =>
      rw [List.map_cons, closingsOf_cons, closingsOf_cons, ih]
      rfl
  unfold locate
  split
  · rfl
  · exact hmap p.stack

theorem future_locate (p : Pushdown) (t : Token) : (p.locate t).future = p.future := by
  unfold locate
  split <;> rfl

/-- A token that is spelled under the features that are turned on may be fed. -/
theorem feed_tracked (hg : g.Lawful) (hover : g.Refuses .notEqual symbols)
    (himports : .importFrom ∈ symbols) (h : Reading g root ts p) (htracks : Tracks bits p)
    (ht : (Node.leaf t).SpelledUnder p.future) : Tracked bits (feed t p) := by
  unfold feed
  rw [h.grammar]
  split
  · exact .reject
  · next l hl =>
    obtain ⟨hgrammar, _, hworking⟩ := working_locate h t l
    have hlocated := htracks.of_eq (future_locate p t) (closingsOf_locate p t)
    exact run_tracked hg hover himports hl _ _ hgrammar hworking hlocated
      (by rwa [future_locate])

end Pushdown
end Offside
