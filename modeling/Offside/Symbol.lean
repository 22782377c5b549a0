/-!
Nonterminals of the language: the rules a grammar text may define. They are numbered after
the token kinds, from `Symbol.firstNumber`, so that one number tells a tree node's kind.
-/

namespace Offside

inductive Symbol
  | fileInput | singleInput | evalInput | decorator | decorators | decorated | asyncFuncdef
  | funcdef | parameters | varargslist | vfpdef | stmt | simpleStmt | smallStmt | exprStmt
  | augassign | delStmt | passStmt | flowStmt | breakStmt | continueStmt | returnStmt
  | raiseStmt | importStmt | importName | importFrom | importAsName | dottedAsName
  | importAsNames | dottedAsNames | dottedName | globalStmt | nonlocalStmt | assertStmt
  | compoundStmt | asyncStmt | ifStmt | whileStmt | forStmt | withStmt | withItem | suite
  | test | testNocond | lambdef | orTest | andTest | notTest | comparison | compOp | starExpr
  | expr | xorExpr | andExpr | shiftExpr | arithExpr | term | factor | power | atomExpr | atom
  | testlistComp | trailer | subscriptlist | subscript | exprlist | testlist | dictorsetmaker
  | classdef | arglist | argument | compIter | compFor | compIf | encodingDecl
  deriving DecidableEq, Inhabited

namespace Symbol

/-- Every symbol, in numbering order. -/
def all : List Symbol :=
  [.fileInput, .singleInput, .evalInput, .decorator, .decorators, .decorated, .asyncFuncdef,
   .funcdef, .parameters, .varargslist, .vfpdef, .stmt, .simpleStmt, .smallStmt, .exprStmt,
   .augassign, .delStmt, .passStmt, .flowStmt, .breakStmt, .continueStmt, .returnStmt,
   .raiseStmt, .importStmt, .importName, .importFrom, .importAsName, .dottedAsName,
   .importAsNames, .dottedAsNames, .dottedName, .globalStmt, .nonlocalStmt, .assertStmt,
   .compoundStmt, .asyncStmt, .ifStmt, .whileStmt, .forStmt, .withStmt, .withItem, .suite,
   .test, .testNocond, .lambdef, .orTest, .andTest, .notTest, .comparison, .compOp, .starExpr,
   .expr, .xorExpr, .andExpr, .shiftExpr, .arithExpr, .term, .factor, .power, .atomExpr, .atom,
   .testlistComp, .trailer, .subscriptlist, .subscript, .exprlist, .testlist, .dictorsetmaker,
   .classdef, .arglist, .argument, .compIter, .compFor, .compIf, .encodingDecl]

/-- The number of the first symbol; token kinds have the numbers below it. -/
def firstNumber : Nat := 256

def number (s : Symbol) : Nat := firstNumber + s.ctorIdx

/-- The name of the rule. -/
def name : Symbol → String
  | .fileInput => "file_input"
  | .singleInput => "single_input"
  | .evalInput => "eval_input"
  | .decorator => "decorator"
  | .decorators => "decorators"
  | .decorated => "decorated"
  | .asyncFuncdef => "async_funcdef"
  | .funcdef => "funcdef"
  | .parameters => "parameters"
  | .varargslist => "varargslist"
  | .vfpdef => "vfpdef"
  | .stmt => "stmt"
  | .simpleStmt => "simple_stmt"
  | .smallStmt => "small_stmt"
  | .exprStmt => "expr_stmt"
  | .augassign => "augassign"
  | .delStmt => "del_stmt"
  | .passStmt => "pass_stmt"
  | .flowStmt => "flow_stmt"
  | .breakStmt => "break_stmt"
  | .continueStmt => "continue_stmt"
  | .returnStmt => "return_stmt"
  | .raiseStmt => "raise_stmt"
  | .importStmt => "import_stmt"
  | .importName => "import_name"
  | .importFrom => "import_from"
  | .importAsName => "import_as_name"
  | .dottedAsName => "dotted_as_name"
  | .importAsNames => "import_as_names"
  | .dottedAsNames => "dotted_as_names"
  | .dottedName => "dotted_name"
  | .globalStmt => "global_stmt"
  | .nonlocalStmt => "nonlocal_stmt"
  | .assertStmt => "assert_stmt"
  | .compoundStmt => "compound_stmt"
  | .asyncStmt => "async_stmt"
  | .ifStmt => "if_stmt"
  | .whileStmt => "while_stmt"
  | .forStmt => "for_stmt"
  | .withStmt => "with_stmt"
  | .withItem => "with_item"
  | .suite => "suite"
  | .test => "test"
  | .testNocond => "test_nocond"
  | .lambdef => "lambdef"
  | .orTest => "or_test"
  | .andTest => "and_test"
  | .notTest => "not_test"
  | .comparison => "comparison"
  | .compOp => "comp_op"
  | .starExpr => "star_expr"
  | .expr => "expr"
  | .xorExpr => "xor_expr"
  | .andExpr => "and_expr"
  | .shiftExpr => "shift_expr"
  | .arithExpr => "arith_expr"
  | .term => "term"
  | .factor => "factor"
  | .power => "power"
  | .atomExpr => "atom_expr"
  | .atom => "atom"
  | .testlistComp => "testlist_comp"
  | .trailer => "trailer"
  | .subscriptlist => "subscriptlist"
  | .subscript => "subscript"
  | .exprlist => "exprlist"
  | .testlist => "testlist"
  | .dictorsetmaker => "dictorsetmaker"
  | .classdef => "classdef"
  | .arglist => "arglist"
  | .argument => "argument"
  | .compIter => "comp_iter"
  | .compFor => "comp_for"
  | .compIf => "comp_if"
  | .encodingDecl => "encoding_decl"

def ofName? (s : String) : Option Symbol := all.find? fun x => x.name == s

/-- A whole input is one of these three. -/
def isStart : Symbol → Bool
  | .fileInput | .singleInput | .evalInput => true
  | _ => false

theorem mem_all (s : Symbol) : s ∈ all := by cases s <;> decide

end Symbol
end Offside
