import Offside.Parse
import Offside.Proofs.Grammar.Brackets
import Offside.Proofs.Grammar.LineEnds
import Offside.Proofs.Grammar.Numbering
import Offside.Proofs.Grammar.Over

/-!
The reference grammar. Its text has tables, and what the theory of runs asks of tables is checked
of them here: they are tables of lines, of blocks and of brackets, and they tell where an import is
over. Some small parses with them are settled here too, since the tables would have to be evaluated
again for each.
-/

namespace Offside

namespace Reference

/-- The rules whose last token is a newline. -/
def lineSymbols : List Symbol :=
  [.decorator, .decorators, .decorated, .asyncFuncdef, .funcdef, .stmt, .simpleStmt,
   .compoundStmt, .asyncStmt, .ifStmt, .whileStmt, .forStmt, .withStmt, .suite, .classdef]

/-- Between its indent and its dedent a suite is one level up. -/
def blockLevel (s : Symbol) (state : Nat) : Int :=
  if s = .suite ∧ (state = 3 ∨ state = 4) then 1 else 0

/-- The states that lie between brackets, rule by rule. -/
def bracketStates : List (Symbol × List Nat) :=
  [(.decorator, [4, 5]), (.parameters, [1, 3]), (.importFrom, [5, 7]),
   (.atom, [1, 3, 4, 6, 7, 8]), (.trailer, [1, 3, 4, 6]), (.classdef, [3, 5])]

/-- Brackets are not nested within a rule. -/
def bracketLevel (s : Symbol) (state : Nat) : Nat :=
  if state ∈ (bracketStates.lookup s).getD [] then 1 else 0

/-- The rules that an import from a module can end. -/
def importSymbols : List Symbol := [.importFrom, .importStmt, .smallStmt]

/-- The states behind the names that are imported from a module. -/
def importedStates : List Nat := [6, 7]

/-- A parse without options, and what it leaves unread if it gives a tree. -/
structure Trial where
  start : StartRule
  text : List Char
  rest? : Option (List Char)
  deriving DecidableEq

def Trial.Agrees (g : Grammar) (t : Trial) : Prop :=
  (Parse.attempt? g t.start (Options.ofFlags Flags.unset) none ⟨t.text, none⟩).map
    (fun o => o.result.toOption.map fun _ => o.source.cursor.rest) = some t.rest?

instance (g : Grammar) (t : Trial) : Decidable (t.Agrees g) :=
  inferInstanceAs (Decidable (_ = _))

def trials : List Trial :=
  [⟨.file, ['i', 'f', ' ', 'x', ':', '\n', ' ', 'y', '\n'], some []⟩,
   ⟨.file, ['i', 'f', ' ', 'x', ':', '\n', ' ', 'y'], some []⟩,
   ⟨.file, ['x', '\\', '\n', '\n'], some []⟩,
   ⟨.file, ['x', '\\', '\n'], none⟩,
   ⟨.single, ['x', '\n', '#', '\n'], some ['#', '\n']⟩,
   ⟨.single, ['x', '\n', '#', '\r', 'y'], some ['#', '\r', 'y']⟩,
   ⟨.file, "#type:ignore\nx #type: ignore a\n".toList, some []⟩,
   ⟨.file, "from __future__ import barry_as_FLUFL\nx<>y\n".toList, some []⟩]

/-- A parse of a text without options is not over after so many steps. -/
def GoesOn (g : Grammar) (start : StartRule) (text : List Char) (steps : Nat) : Prop :=
  ∀ automaton ∈ Pushdown.start? g start.symbol Pushdown.defaultMaxDepth,
    (Parse.tokens steps start (Options.ofFlags Flags.unset) none (Lexer.ofSource false ⟨text, none⟩)
      automaton).isNone = true

instance (g : Grammar) (start : StartRule) (text : List Char) (steps : Nat) :
    Decidable (GoesOn g start text steps) :=
  inferInstanceAs (Decidable (∀ automaton ∈ _, _))

/-- What is checked of the tables. -/
structure Checked (g : Grammar) : Prop where
  lineEnds : g.LineEnds .fileInput lineSymbols
  balanced : g.Balanced blockLevel
  starts : ∀ s ∈ Symbol.all, s.isStart = true → (g.rule? s).isSome = true ∧ g.EndMarked s
  closedByMarker : g.ClosedByMarker .fileInput
  evalClosedByMarker : g.ClosedByMarker .evalInput
  bracketed : g.Bracketed bracketLevel
  importsOver : g.Refuses .notEqual importSymbols
  importsOnce : g.ReadsOnce .importFrom .importAsNames importedStates
  /-- no rule reads a pragma -/
  noPragmas : .token .typeIgnore ∉ g.labels

/-- Each start rule is a rule, and the end marker ends what it reads. -/
theorem Checked.start {g : Grammar} (h : Checked g) (start : StartRule) :
    (g.rule? start.symbol).isSome = true ∧ g.EndMarked start.symbol :=
  h.starts _ (Symbol.mem_all _) (Symbol.isStart_iff.2 ⟨start, rfl⟩)

/-- What comes of a few parses with the tables. -/
structure TriedOut (g : Grammar) : Prop where
  trials : ∀ t ∈ trials, t.Agrees g
  openBracket : GoesOn g .file ['('] 1

/-- What is checked of the tables as they are. -/
def tablesFit (g : Grammar) : Bool :=
  decide (g.LineEnds .fileInput lineSymbols ∧ g.Balanced blockLevel ∧
    (∀ s ∈ Symbol.all, s.isStart = true → (g.rule? s).isSome = true ∧ g.EndMarked s) ∧
    g.ClosedByMarker .fileInput ∧ g.ClosedByMarker .evalInput ∧ g.Bracketed bracketLevel ∧
    g.Refuses .notEqual importSymbols ∧
    g.ReadsOnce .importFrom .importAsNames importedStates ∧ .token .typeIgnore ∉ g.labels)

/-- What is checked of the parses with them. -/
def parsesFit (g : Grammar) : Bool :=
  decide ((∀ t ∈ Reference.trials, t.Agrees g) ∧ GoesOn g .file ['('] 1)

theorem checked_of_tablesFit {g : Grammar} (h : tablesFit g = true) : Checked g := by
  obtain ⟨h₁, h₂, h₃, h₄, h₅, h₆, h₇, h₈, h₉⟩ := of_decide_eq_true h
  exact ⟨h₁, h₂, h₃, h₄, h₅, h₆, h₇, h₈, h₉⟩

theorem triedOut_of_parsesFit {g : Grammar} (h : parsesFit g = true) : TriedOut g := by
  obtain ⟨htrials, hbracket⟩ := of_decide_eq_true h
  exact ⟨htrials, hbracket⟩

/-- Whether rules are read into these labels and patterns, behind those there are. -/
def readsInto (rules : List Rule) (labels labels' : List Label)
    (patterns patterns' : RulePatterns) : Bool :=
  match rules.foldlM Grammar.numberRule (labels, patterns) with
  | .ok read => read.1 == labels' && read.2.equal patterns'
  | .error _ => false

theorem foldlM_of_readsInto {rules : List Rule} {labels labels' : List Label}
    {patterns patterns' : RulePatterns}
    (h : readsInto rules labels labels' patterns patterns' = true) :
    rules.foldlM Grammar.numberRule (labels, patterns) = .ok (labels', patterns') := by
  unfold readsInto at h
  split at h
  · next read hread =>
    rw [Bool.and_eq_true, beq_iff_eq] at h
    have hpatterns := RulePatterns.eq_of_equal _ _ h.2
    rw [hread, ← h.1, ← hpatterns]
  · cases h

/-- Whether the first rules on these lines are read as they are written out. -/
def readsFront (rows : List (List Char)) : Bool :=
  match Rule.readAll (rows.flatMap (· ++ ['\n'])) with
  | .ok rules => readsInto (rules.take 34) [] (labels.take 69) [] (patterns.take 34)
  | .error _ => false

/-- Whether the other ones are. -/
def readsBack (rows : List (List Char)) : Bool :=
  match Rule.readAll (rows.flatMap (· ++ ['\n'])) with
  | .ok rules => readsInto (rules.drop 34) (labels.take 69) labels (patterns.take 34) patterns
  | .error _ => false

theorem number_of_reads {rows : List (List Char)} (hfront : readsFront rows = true)
    (hback : readsBack rows = true) :
    Grammar.number (rows.flatMap (· ++ ['\n'])) = .ok (labels, patterns) := by
  unfold readsFront at hfront
  unfold readsBack at hback
  cases hread : Rule.readAll (rows.flatMap (· ++ ['\n'])) with
  | error e =>
    rw [hread] at hfront
    cases hfront
  | ok rules =>
    rw [hread] at hfront hback
    rw [Grammar.number, hread]
    change rules.foldlM Grammar.numberRule ([], []) = _
    rw [← List.take_append_drop 34 rules, List.foldlM_append, foldlM_of_readsInto hfront]
    exact foldlM_of_readsInto hback

/-- Whether the patterns have tables that pass a check. -/
noncomputable def tablesPass (check : Grammar → Bool) : Bool :=
  match Grammar.ofPatterns labels patterns with
  | .ok g => check g
  | .error _ => false

theorem exists_of_tablesPass {check : Grammar → Bool} (h : tablesPass check = true) :
    ∃ g, Grammar.ofPatterns labels patterns = .ok g ∧ check g = true := by
  unfold tablesPass at h
  split at h
  · next g hg => exact ⟨g, hg, h⟩
  · cases h

theorem toList_text : text.toList = (lines.map String.toList).flatMap (· ++ ['\n']) := by
  rw [text, String.toList_join, List.flatMap_map, List.flatMap_map]
  exact List.flatMap_congr fun line _ => String.toList_append

theorem map_toList_cons {line : List Char} {strings : List String} {rows : List (List Char)}
    (h : strings.map String.toList = rows) :
    (String.ofList line :: strings).map String.toList = line :: rows := by
  rw [List.map_cons, String.toList_ofList, h]

/-- The kernel reads no characters from a string, and so it is given them one by one. -/
theorem reads_of_rows {rows : List (List Char)} (h : lines.map String.toList = rows)
    (hfront : readsFront rows = true) (hback : readsBack rows = true) :
    Grammar.number text.toList = .ok (labels, patterns) := by
  rw [toList_text, h]
  exact number_of_reads hfront hback

theorem number_text : Grammar.number text.toList = .ok (labels, patterns) := by
  apply reads_of_rows
  · unfold lines
    repeat apply map_toList_cons
    exact List.map_nil
  · decide +kernel
  · decide +kernel

theorem grammar_eq_ok {g : Grammar} (h : Grammar.ofPatterns labels patterns = .ok g) :
    grammar = .ok g := by
  rw [grammar, Grammar.ofText_of_number number_text, h]

/-- The reference grammar has tables, and they pass. -/
theorem exists_checked : ∃ g, grammar = .ok g ∧ Checked g := by
  have htables : tablesPass tablesFit = true := by decide +kernel
  obtain ⟨g, hg, hfit⟩ := exists_of_tablesPass htables
  exact ⟨g, grammar_eq_ok hg, checked_of_tablesFit hfit⟩

theorem exists_triedOut : ∃ g, grammar = .ok g ∧ TriedOut g := by
  have hparses : tablesPass parsesFit = true := by decide +kernel
  obtain ⟨g, hg, hfit⟩ := exists_of_tablesPass hparses
  exact ⟨g, grammar_eq_ok hg, triedOut_of_parsesFit hfit⟩

theorem lawful {g : Grammar} (h : grammar = .ok g) : g.Lawful := by
  unfold grammar at h
  exact Grammar.lawful_of_ofText h

end Reference
end Offside
