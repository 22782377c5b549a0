import Offside.Automaton
import Offside.Grammar

/-!
Pushdown automata over the tables of a grammar. The stack holds the rules that are in progress,
each with its state and the nodes read for it so far. A token makes the automaton complete rules,
then begin rules, then consume the token, and then complete the rules that cannot go on.
-/

namespace Offside

/-- A rule in progress. Its children are listed last child first. -/
structure Frame where
  table : RuleTable
  state : Nat
  line : Nat
  column? : Option Nat
  children : List Node
  deriving DecidableEq, Inhabited

namespace Frame

def enter (t : RuleTable) (line : Nat) (column? : Option Nat) : Frame := ⟨t, 0, line, column?, []⟩

def tableState? (f : Frame) : Option TableState := f.table.states[f.state]?

def goto (next : Nat) (f : Frame) : Frame := { f with state := next }

def adopt (n : Node) (f : Frame) : Frame := { f with children := n :: f.children }

def node (f : Frame) : Node := Node.branch f.table.symbol f.line f.column? f.children.reverse

/-- Whether the rule is complete and cannot go on. -/
def isFinal (f : Frame) : Bool := (f.tableState?.map TableState.isFinal).getD false

end Frame

/-- Whether a node imports from the module of features. -/
def importsFeatures (n : Node) : Bool :=
  match n.child? 1 with
  | some m =>
    m.isSymbol .dottedName && m.children.length == 1 &&
      (m.child? 0).bind Node.text? == some "__future__"
  | none => false

def namesAngleInequality (n : Node) : Bool :=
  n.children.any fun m =>
    m.isSymbol .importAsName &&
      match m.child? 0 with
      | some w => w.isToken .word && w.text? == some "barry_as_FLUFL"
      | none => false

/-- Whether an import turns on the feature `angleInequality`. -/
def turnsOnAngleInequality (n : Node) : Bool :=
  importsFeatures n &&
    match n.children.reverse.find? (Node.isSymbol .importAsNames) with
    | some names => namesAngleInequality names
    | none => false

/-- The features that a completed rule leaves turned on. -/
def futureAfter (n : Node) (bits : Future) : Future :=
  if n.isSymbol .importFrom && turnsOnAngleInequality n then bits ||| angleInequality else bits

/-- The stack is listed innermost rule first. -/
structure Pushdown where
  grammar : Grammar
  stack : List Frame
  future : Future
  maxDepth : Nat
  /-- whether the outermost rule knows where it begins -/
  started : Bool
  deriving Inhabited

namespace Pushdown

/-- How many rules may be in progress unless another limit is set. -/
def defaultMaxDepth : Nat := 1500

/-- Ready to read a symbol, if the grammar has a rule for it. -/
def start? (g : Grammar) (s : Symbol) (maxDepth : Nat) : Option Pushdown :=
  (g.rule? s).map fun t => ⟨g, [Frame.enter t 0 none], 0, maxDepth, false⟩

def depth (p : Pushdown) : Nat := p.stack.length

/-- Tells the outermost rule, which is the only one at first, where it begins. -/
def locate (t : Token) (p : Pushdown) : Pushdown :=
  if p.started then p
  else
    { p with
      started := true
      stack := p.stack.map fun f => { f with line := t.line, column? := t.column? } }

/-- What the innermost rule calls for. -/
inductive Move
  | pop
  | push (symbol : Symbol) (next : Nat)
  | shift (next : Nat)
  | refuse (expected? : Option Kind)
  deriving DecidableEq, Inhabited

def moveOf (g : Grammar) (label : Nat) (f : Frame) : Move :=
  match f.tableState? with
  | none => .refuse none
  | some s =>
    match s.action? label with
    | some (.shift next) => .shift next
    | some (.push symbol next) => .push symbol next
    | none => if s.accepting then .pop else .refuse (g.expected? s)

/-- Completes the innermost rule, and gives the tree if it was the outermost one as well. -/
def pop (p : Pushdown) : Option Node × Pushdown :=
  match p.stack with
  | [] => (none, p)
  | f :: below =>
    let p := { p with future := futureAfter f.node p.future }
    match below with
    | [] => (some f.node, { p with stack := [] })
    | outer :: below => (none, { p with stack := outer.adopt f.node :: below })

theorem length_stack_pop {p p' : Pushdown} {f : Frame} {below : List Frame} {n? : Option Node}
    (hs : p.stack = f :: below) (h : p.pop = (n?, p')) : p'.stack.length = below.length := by
  unfold pop at h
  rw [hs] at h
  dsimp only at h
  split at h <;> (obtain ⟨_, rfl⟩ := Prod.mk.inj h; rfl)

/-- Completes the rules that cannot go on. -/
def unwind (p : Pushdown) : Verdict × Pushdown :=
  match hs : p.stack with
  | [] => (.more, p)
  | f :: _ =>
    if f.isFinal then
      match h : p.pop with
      | (some tree, p') => (.accept tree, p')
      | (none, p') =>
        have : p'.stack.length < p.stack.length := by
          rw [length_stack_pop hs h, hs]; exact Nat.lt_succ_self _
        unwind p'
    else (.more, p)
termination_by p.stack.length

/-- Begins a rule inside the innermost one, which goes on in state `next` after it. -/
def push (t : Token) (s : Symbol) (next : Nat) (p : Pushdown) : Verdict × Pushdown :=
  match p.stack with
  | [] => (.reject none, p)
  | f :: below =>
    let p := { p with stack := f.goto next :: below }
    if p.maxDepth ≤ p.depth then (.outOfMemory, p)
    else
      match p.grammar.rule? s with
      | none => (.reject none, p)
      | some table =>
        (.more, { p with stack := Frame.enter table t.line t.column? :: p.stack })

/-- Consumes a token in the innermost rule, which goes on in state `next`. -/
def shift (t : Token) (next : Nat) (p : Pushdown) : Pushdown :=
  match p.stack with
  | [] => p
  | f :: below => { p with stack := (f.goto next).adopt (.leaf t) :: below }

/-- Moves until the token is consumed or refused. -/
def run (label : Nat) (t : Token) : Nat → Pushdown → Verdict × Pushdown
  | 0, p => (.reject none, p)
  | fuel + 1, p =>
    match p.stack with
    | [] => (.reject none, p)
    | f :: _ =>
      match moveOf p.grammar label f with
      | .refuse expected? => (.reject expected?, p)
      | .shift next => (p.shift t next).unwind
      | .pop =>
        match p.pop with
        | (some _, p) => (.reject none, p)
        | (none, p) => run label t fuel p
      | .push s next =>
        match p.push t s next with
        | (.more, p) => run label t fuel p
        | (verdict, p) => (verdict, p)

/-- No token completes more rules than there are, or begins one rule twice. -/
def fuel (p : Pushdown) : Nat := p.stack.length + Symbol.all.length + 2

def feed (t : Token) (p : Pushdown) : Verdict × Pushdown :=
  match p.grammar.classify t.kind t.text with
  | none => (.reject none, p)
  | some label =>
    let p := p.locate t
    run label t p.fuel p

instance : Automaton Pushdown where
  feed := feed
  future p := p.future
  setFuture bits p := { p with future := bits }

end Pushdown
end Offside
