import Offside.Grammar.Reference
import Offside.Proofs.Dfa.Evaluation
import Offside.Proofs.Lookup
import Offside.Proofs.Outcome

/-!
Grammars in two steps. A rule text is first read into patterns of label numbers, and these then
have tables. The kernel keeps all that it evaluates until it is done with a declaration, and so the
patterns of the reference grammar are written out here: the text and the tables are evaluated apart.
-/

namespace Offside

namespace Pattern

mutual

def equal : Pattern Nat → Pattern Nat → Bool
  | leaf a, leaf b => a == b
  | alt ps, alt qs => equalAll ps qs
  | seq ps, seq qs => equalAll ps qs
  | opt p, opt q => equal p q
  | star p, star q => equal p q
  | plus p, plus q => equal p q
  | _, _ => false

def equalAll : List (Pattern Nat) → List (Pattern Nat) → Bool
  | [], [] => true
  | p :: ps, q :: qs => equal p q && equalAll ps qs
  | _, _ => false

end

mutual

theorem eq_of_equal : ∀ p q : Pattern Nat, equal p q = true → p = q
  | leaf a, q, h => by cases q <;> simp_all [equal]
  | alt ps, q, h => by
    cases q <;> simp only [equal, Bool.false_eq_true] at h
    rw [eq_of_equalAll _ _ h]
  | seq ps, q, h => by
    cases q <;> simp only [equal, Bool.false_eq_true] at h
    rw [eq_of_equalAll _ _ h]
  | opt p, q, h => by
    cases q <;> simp only [equal, Bool.false_eq_true] at h
    rw [eq_of_equal _ _ h]
  | star p, q, h => by
    cases q <;> simp only [equal, Bool.false_eq_true] at h
    rw [eq_of_equal _ _ h]
  | plus p, q, h => by
    cases q <;> simp only [equal, Bool.false_eq_true] at h
    rw [eq_of_equal _ _ h]

theorem eq_of_equalAll : ∀ ps qs : List (Pattern Nat), equalAll ps qs = true → ps = qs
  | [], qs, h => by cases qs <;> simp_all [equalAll]
  | p :: ps, qs, h => by
    cases qs <;> simp only [equalAll, Bool.false_eq_true, Bool.and_eq_true] at h
    rw [eq_of_equal _ _ h.1, eq_of_equalAll _ _ h.2]

end

end Pattern

/-- The patterns of the rules of a grammar, in the order of the rules. -/
abbrev RulePatterns := List (Symbol × Pattern Nat)

namespace RulePatterns

/-- The automata of the rules. -/
noncomputable def dfas (rules : RulePatterns) : RuleDfas :=
  rules.map fun rule => (rule.1, Evaluation.ofPattern rule.2)

def equal : RulePatterns → RulePatterns → Bool
  | [], [] => true
  | (s, p) :: rules, (t, q) :: rules' => s == t && p.equal q && equal rules rules'
  | _, _ => false

theorem eq_of_equal : ∀ rules rules' : RulePatterns, equal rules rules' = true → rules = rules'
  | [], [], _ => rfl
  | (s, p) :: rules, (t, q) :: rules', h => by
    simp only [equal, Bool.and_eq_true, beq_iff_eq] at h
    obtain ⟨⟨rfl, hp⟩, hrules⟩ := h
    rw [p.eq_of_equal q hp, eq_of_equal rules rules' hrules]

end RulePatterns

namespace Grammar

variable {text : List Char} {rule : Rule} {rules : List Rule} {labels labels' : List Label}
  {patterns patterns' : RulePatterns}

/-- Reads a rule into a pattern, as `addRule` reads it into an automaton. -/
def numberRule (acc : List Label × RulePatterns) (rule : Rule) :
    Except GrammarError (List Label × RulePatterns) :=
  match Symbol.ofName? rule.name with
  | none => .error (.unknownName rule.name)
  | some s =>
    if (acc.2.lookup s).isSome then .error (.duplicateRule rule.name)
    else do
      let (p, labels) ← Label.number acc.1 rule.body
      pure (labels, acc.2 ++ [(s, p)])

/-- Reads a text into labels and patterns. -/
def number (text : List Char) : Except GrammarError (List Label × RulePatterns) := do
  (← Rule.readAll text).foldlM numberRule ([], [])

/-- The grammar of labels and patterns. -/
noncomputable def ofPatterns (labels : List Label) (patterns : RulePatterns) :
    Except GrammarError Grammar := do
  checkRules patterns.dfas labels
  let firsts ← First.compute labels patterns.dfas
  let tables ← patterns.dfas.mapM (ruleTable labels firsts)
  pure ⟨labels, Symbol.all.filterMap fun s => tables.find? fun t => t.symbol == s⟩

theorem addRule_of_numberRule (h : numberRule (labels, patterns) rule = .ok (labels', patterns')) :
    addRule (labels, patterns.dfas) rule = .ok (labels', patterns'.dfas) := by
  unfold numberRule at h
  unfold addRule
  cases hname : Symbol.ofName? rule.name with
  | none =>
    rw [hname] at h
    cases h
  | some s =>
    rw [hname] at h
    dsimp only at h ⊢
    have hlookup : (patterns.dfas.lookup s).isSome = (patterns.lookup s).isSome := by
      rw [RulePatterns.dfas, lookup_map_snd, Option.isSome_map]
    rw [hlookup]
    split at h
    · cases h
    · next hnew =>
      rw [if_neg hnew]
      obtain ⟨⟨p, more⟩, hnumber, hmore⟩ := bind_eq_ok.1 h
      cases hmore
      rw [hnumber]
      simp only [RulePatterns.dfas, List.map_append, List.map_cons, List.map_nil,
        Evaluation.ofPattern_eq]
      rfl

theorem foldlM_addRule (h : rules.foldlM numberRule (labels, patterns) = .ok (labels', patterns')) :
    rules.foldlM addRule (labels, patterns.dfas) = .ok (labels', patterns'.dfas) := by
  induction rules generalizing labels patterns with
  | nil =>
    cases h
    rfl
  | cons rule rules ih =>
    rw [List.foldlM_cons] at h ⊢
    obtain ⟨⟨more, patterns₁⟩, hrule, hrules⟩ := bind_eq_ok.1 h
    rw [addRule_of_numberRule hrule]
    exact ih hrules

/-- The grammar of a text is that of its patterns. -/
theorem ofText_of_number (h : number text = .ok (labels, patterns)) :
    ofText text = ofPatterns labels patterns := by
  obtain ⟨rules, hread, hrules⟩ := bind_eq_ok.1 h
  have hfold : rules.foldlM addRule ([], []) = .ok (labels, patterns.dfas) := foldlM_addRule hrules
  rw [ofText, hread]
  change ofRules rules = _
  rw [ofRules, hfold]
  rfl

end Grammar

namespace Reference

/-- The labels of the reference grammar, as the rules come to them. -/
def labels : List Label :=
  [.token .newline, .rule .stmt, .token .endMarker, .rule .simpleStmt, .rule .compoundStmt,
   .rule .testlist, .token .atSign, .rule .dottedName, .token .lpar, .rule .arglist, .token .rpar,
   .rule .decorator, .rule .decorators, .rule .classdef, .rule .funcdef, .rule .asyncFuncdef,
   .token .async, .keyword "def", .token .word, .rule .parameters, .token .arrow, .rule .test,
   .token .colon, .rule .suite, .rule .varargslist, .rule .vfpdef, .token .assign, .token .comma,
   .rule .smallStmt, .token .semi, .rule .exprStmt, .rule .delStmt, .rule .passStmt,
   .rule .flowStmt, .rule .importStmt, .rule .globalStmt, .rule .nonlocalStmt, .rule .assertStmt,
   .rule .augassign, .token .plusEqual, .token .minusEqual, .token .starEqual, .token .slashEqual,
   .keyword "del", .rule .exprlist, .keyword "pass", .rule .breakStmt, .rule .continueStmt,
   .rule .returnStmt, .rule .raiseStmt, .keyword "break", .keyword "continue", .keyword "return",
   .keyword "raise", .keyword "from", .rule .importName, .rule .importFrom, .keyword "import",
   .rule .dottedAsNames, .token .dot, .token .ellipsis, .token .star, .rule .importAsNames,
   .keyword "as", .rule .importAsName, .rule .dottedAsName, .keyword "global", .keyword "nonlocal",
   .keyword "assert", .rule .ifStmt, .rule .whileStmt, .rule .forStmt, .rule .withStmt,
   .rule .decorated, .rule .asyncStmt, .keyword "if", .keyword "elif", .keyword "else",
   .keyword "while", .keyword "for", .keyword "in", .keyword "with", .rule .withItem, .rule .expr,
   .token .indent, .token .dedent, .rule .orTest, .rule .lambdef, .keyword "lambda",
   .rule .andTest, .keyword "or", .rule .notTest, .keyword "and", .keyword "not",
   .rule .comparison, .rule .compOp, .token .less, .token .greater, .token .eqEqual,
   .token .greaterEqual, .token .lessEqual, .token .notEqual, .keyword "is", .rule .xorExpr,
   .token .vbar, .rule .andExpr, .token .circumflex, .rule .shiftExpr, .token .amper,
   .rule .arithExpr, .token .leftShift, .token .rightShift, .rule .term, .token .plus,
   .token .minus, .rule .factor, .token .slash, .token .percent, .token .doubleSlash,
   .token .tilde, .rule .power, .rule .atomExpr, .token .doubleStar, .token .await, .rule .atom,
   .rule .trailer, .rule .testlistComp, .token .lsqb, .token .rsqb, .token .lbrace,
   .rule .dictorsetmaker, .token .rbrace, .token .numeral, .token .literal, .keyword "None",
   .keyword "True", .keyword "False", .rule .starExpr, .rule .compFor, .rule .subscriptlist,
   .rule .subscript, .keyword "class", .rule .argument, .rule .compIf, .rule .compIter,
   .rule .testNocond]

/-- Its rules as patterns of these labels, by number. -/
def patterns : RulePatterns :=
  [(.fileInput, .seq [.star (.alt [.leaf 0, .leaf 1]), .leaf 2]),
   (.singleInput, .alt [.leaf 0, .leaf 3, .seq [.leaf 4, .leaf 0]]),
   (.evalInput, .seq [.leaf 5, .star (.leaf 0), .leaf 2]),
   (.decorator, .seq [.leaf 6, .leaf 7, .opt (.seq [.leaf 8, .opt (.leaf 9), .leaf 10]), .leaf 0]),
   (.decorators, .plus (.leaf 11)),
   (.decorated, .seq [.leaf 12, .alt [.leaf 13, .leaf 14, .leaf 15]]),
   (.asyncFuncdef, .seq [.leaf 16, .leaf 14]),
   (.funcdef, .seq [.leaf 17, .leaf 18, .leaf 19, .opt (.seq [.leaf 20, .leaf 21]), .leaf 22, .leaf
     23]),
   (.parameters, .seq [.leaf 8, .opt (.leaf 24), .leaf 10]),
   (.varargslist, .seq [.leaf 25, .opt (.seq [.leaf 26, .leaf 21]), .star (.seq [.leaf 27, .leaf
     25, .opt (.seq [.leaf 26, .leaf 21])]), .opt (.leaf 27)]),
   (.vfpdef, .leaf 18),
   (.stmt, .alt [.leaf 3, .leaf 4]),
   (.simpleStmt, .seq [.leaf 28, .star (.seq [.leaf 29, .leaf 28]), .opt (.leaf 29), .leaf 0]),
   (.smallStmt, .alt [.leaf 30, .leaf 31, .leaf 32, .leaf 33, .leaf 34, .leaf 35, .leaf 36, .leaf
     37]),
   (.exprStmt, .seq [.leaf 5, .alt [.seq [.leaf 38, .leaf 5], .star (.seq [.leaf 26, .leaf 5])]]),
   (.augassign, .alt [.leaf 39, .leaf 40, .leaf 41, .leaf 42]),
   (.delStmt, .seq [.leaf 43, .leaf 44]),
   (.passStmt, .leaf 45),
   (.flowStmt, .alt [.leaf 46, .leaf 47, .leaf 48, .leaf 49]),
   (.breakStmt, .leaf 50),
   (.continueStmt, .leaf 51),
   (.returnStmt, .seq [.leaf 52, .opt (.leaf 5)]),
   (.raiseStmt, .seq [.leaf 53, .opt (.seq [.leaf 21, .opt (.seq [.leaf 54, .leaf 21])])]),
   (.importStmt, .alt [.leaf 55, .leaf 56]),
   (.importName, .seq [.leaf 57, .leaf 58]),
   (.importFrom, .seq [.leaf 54, .alt [.seq [.star (.alt [.leaf 59, .leaf 60]), .leaf 7], .plus
     (.alt [.leaf 59, .leaf 60])], .leaf 57, .alt [.leaf 61, .seq [.leaf 8, .leaf 62, .leaf 10],
     .leaf 62]]),
   (.importAsName, .seq [.leaf 18, .opt (.seq [.leaf 63, .leaf 18])]),
   (.dottedAsName, .seq [.leaf 7, .opt (.seq [.leaf 63, .leaf 18])]),
   (.importAsNames, .seq [.leaf 64, .star (.seq [.leaf 27, .leaf 64]), .opt (.leaf 27)]),
   (.dottedAsNames, .seq [.leaf 65, .star (.seq [.leaf 27, .leaf 65])]),
   (.dottedName, .seq [.leaf 18, .star (.seq [.leaf 59, .leaf 18])]),
   (.globalStmt, .seq [.leaf 66, .leaf 18, .star (.seq [.leaf 27, .leaf 18])]),
   (.nonlocalStmt, .seq [.leaf 67, .leaf 18, .star (.seq [.leaf 27, .leaf 18])]),
   (.assertStmt, .seq [.leaf 68, .leaf 21, .opt (.seq [.leaf 27, .leaf 21])]),
   (.compoundStmt, .alt [.leaf 69, .leaf 70, .leaf 71, .leaf 72, .leaf 14, .leaf 13, .leaf 73,
     .leaf 74]),
   (.asyncStmt, .seq [.leaf 16, .alt [.leaf 14, .leaf 72, .leaf 71]]),
   (.ifStmt, .seq [.leaf 75, .leaf 21, .leaf 22, .leaf 23, .star (.seq [.leaf 76, .leaf 21, .leaf
     22, .leaf 23]), .opt (.seq [.leaf 77, .leaf 22, .leaf 23])]),
   (.whileStmt, .seq [.leaf 78, .leaf 21, .leaf 22, .leaf 23, .opt (.seq [.leaf 77, .leaf 22, .leaf
     23])]),
   (.forStmt, .seq [.leaf 79, .leaf 44, .leaf 80, .leaf 5, .leaf 22, .leaf 23, .opt (.seq [.leaf
     77, .leaf 22, .leaf 23])]),
   (.withStmt, .seq [.leaf 81, .leaf 82, .star (.seq [.leaf 27, .leaf 82]), .leaf 22, .leaf 23]),
   (.withItem, .seq [.leaf 21, .opt (.seq [.leaf 63, .leaf 83])]),
   (.suite, .alt [.leaf 3, .seq [.leaf 0, .leaf 84, .plus (.leaf 1), .leaf 85]]),
   (.test, .alt [.seq [.leaf 86, .opt (.seq [.leaf 75, .leaf 86, .leaf 77, .leaf 21])], .leaf 87]),
   (.testNocond, .leaf 86),
   (.lambdef, .seq [.leaf 88, .opt (.leaf 24), .leaf 22, .leaf 21]),
   (.orTest, .seq [.leaf 89, .star (.seq [.leaf 90, .leaf 89])]),
   (.andTest, .seq [.leaf 91, .star (.seq [.leaf 92, .leaf 91])]),
   (.notTest, .alt [.seq [.leaf 93, .leaf 91], .leaf 94]),
   (.comparison, .seq [.leaf 83, .star (.seq [.leaf 95, .leaf 83])]),
   (.compOp, .alt [.leaf 96, .leaf 97, .leaf 98, .leaf 99, .leaf 100, .leaf 101, .leaf 101, .leaf
     80, .seq [.leaf 93, .leaf 80], .leaf 102, .seq [.leaf 102, .leaf 93]]),
   (.starExpr, .seq [.leaf 61, .leaf 83]),
   (.expr, .seq [.leaf 103, .star (.seq [.leaf 104, .leaf 103])]),
   (.xorExpr, .seq [.leaf 105, .star (.seq [.leaf 106, .leaf 105])]),
   (.andExpr, .seq [.leaf 107, .star (.seq [.leaf 108, .leaf 107])]),
   (.shiftExpr, .seq [.leaf 109, .star (.seq [.alt [.leaf 110, .leaf 111], .leaf 109])]),
   (.arithExpr, .seq [.leaf 112, .star (.seq [.alt [.leaf 113, .leaf 114], .leaf 112])]),
   (.term, .seq [.leaf 115, .star (.seq [.alt [.leaf 61, .leaf 6, .leaf 116, .leaf 117, .leaf 118],
     .leaf 115])]),
   (.factor, .alt [.seq [.alt [.leaf 113, .leaf 114, .leaf 119], .leaf 115], .leaf 120]),
   (.power, .seq [.leaf 121, .opt (.seq [.leaf 122, .leaf 115])]),
   (.atomExpr, .seq [.opt (.leaf 123), .leaf 124, .star (.leaf 125)]),
   (.atom, .alt [.seq [.leaf 8, .opt (.leaf 126), .leaf 10], .seq [.leaf 127, .opt (.leaf 126),
     .leaf 128], .seq [.leaf 129, .opt (.leaf 130), .leaf 131], .leaf 18, .leaf 132, .plus (.leaf
     133), .leaf 60, .leaf 134, .leaf 135, .leaf 136]),
   (.testlistComp, .seq [.alt [.leaf 21, .leaf 137], .alt [.leaf 138, .seq [.star (.seq [.leaf 27,
     .alt [.leaf 21, .leaf 137]]), .opt (.leaf 27)]]]),
   (.trailer, .alt [.seq [.leaf 8, .opt (.leaf 9), .leaf 10], .seq [.leaf 127, .leaf 139, .leaf
     128], .seq [.leaf 59, .leaf 18]]),
   (.subscriptlist, .seq [.leaf 140, .star (.seq [.leaf 27, .leaf 140]), .opt (.leaf 27)]),
   (.subscript, .alt [.leaf 21, .seq [.opt (.leaf 21), .leaf 22, .opt (.leaf 21)]]),
   (.exprlist, .seq [.alt [.leaf 83, .leaf 137], .star (.seq [.leaf 27, .alt [.leaf 83, .leaf
     137]]), .opt (.leaf 27)]),
   (.testlist, .seq [.leaf 21, .star (.seq [.leaf 27, .leaf 21]), .opt (.leaf 27)]),
   (.dictorsetmaker, .seq [.leaf 21, .alt [.seq [.leaf 22, .leaf 21, .star (.seq [.leaf 27, .leaf
     21, .leaf 22, .leaf 21])], .star (.seq [.leaf 27, .leaf 21])], .opt (.leaf 27)]),
   (.classdef, .seq [.leaf 141, .leaf 18, .opt (.seq [.leaf 8, .opt (.leaf 9), .leaf 10]), .leaf
     22, .leaf 23]),
   (.arglist, .seq [.leaf 142, .star (.seq [.leaf 27, .leaf 142]), .opt (.leaf 27)]),
   (.argument, .alt [.seq [.leaf 21, .opt (.leaf 138)], .seq [.leaf 21, .leaf 26, .leaf 21], .seq
     [.leaf 122, .leaf 21], .seq [.leaf 61, .leaf 21]]),
   (.compIter, .alt [.leaf 138, .leaf 143]),
   (.compFor, .seq [.opt (.leaf 16), .leaf 79, .leaf 44, .leaf 80, .leaf 86, .opt (.leaf 144)]),
   (.compIf, .seq [.leaf 75, .leaf 145, .opt (.leaf 144)]),
   (.encodingDecl, .leaf 18)]

end Reference
end Offside
