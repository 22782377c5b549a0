import Offside.Grammar

/-!
The reference grammar: statements and expressions of a language whose blocks are marked by
indentation.
-/

namespace Offside.Reference

def lines : List String :=
  ["# Start symbols",
   "file_input: (NEWLINE | stmt)* ENDMARKER",
   "single_input: NEWLINE | simple_stmt | compound_stmt NEWLINE",
   "eval_input: testlist NEWLINE* ENDMARKER",
   "",
   "decorator: '@' dotted_name ['(' [arglist] ')'] NEWLINE",
   "decorators: decorator+",
   "decorated: decorators (classdef | funcdef | async_funcdef)",
   "",
   "async_funcdef: ASYNC funcdef",
   "funcdef: 'def' NAME parameters ['->' test] ':' suite",
   "",
   "parameters: '(' [varargslist] ')'",
   "varargslist: vfpdef ['=' test] (',' vfpdef ['=' test])* [',']",
   "vfpdef: NAME",
   "",
   "stmt: simple_stmt | compound_stmt",
   "simple_stmt: small_stmt (';' small_stmt)* [';'] NEWLINE",
   "small_stmt: (expr_stmt | del_stmt | pass_stmt | flow_stmt |",
   "             import_stmt | global_stmt | nonlocal_stmt | assert_stmt)",
   "expr_stmt: testlist (augassign testlist | ('=' testlist)*)",
   "augassign: ('+=' | '-=' | '*=' | '/=')",
   "",
   "del_stmt: 'del' exprlist",
   "pass_stmt: 'pass'",
   "flow_stmt: break_stmt | continue_stmt | return_stmt | raise_stmt",
   "break_stmt: 'break'",
   "continue_stmt: 'continue'",
   "return_stmt: 'return' [testlist]",
   "raise_stmt: 'raise' [test ['from' test]]",
   "",
   "import_stmt: import_name | import_from",
   "import_name: 'import' dotted_as_names",
   "import_from: ('from' (('.' | '...')* dotted_name | ('.' | '...')+)",
   "              'import' ('*' | '(' import_as_names ')' | import_as_names))",
   "import_as_name: NAME ['as' NAME]",
   "dotted_as_name: dotted_name ['as' NAME]",
   "import_as_names: import_as_name (',' import_as_name)* [',']",
   "dotted_as_names: dotted_as_name (',' dotted_as_name)*",
   "dotted_name: NAME ('.' NAME)*",
   "global_stmt: 'global' NAME (',' NAME)*",
   "nonlocal_stmt: 'nonlocal' NAME (',' NAME)*",
   "assert_stmt: 'assert' test [',' test]",
   "",
   "compound_stmt: (if_stmt | while_stmt | for_stmt | with_stmt | funcdef |",
   "                classdef | decorated | async_stmt)",
   "async_stmt: ASYNC (funcdef | with_stmt | for_stmt)",
   "if_stmt: 'if' test ':' suite ('elif' test ':' suite)* ['else' ':' suite]",
   "while_stmt: 'while' test ':' suite ['else' ':' suite]",
   "for_stmt: 'for' exprlist 'in' testlist ':' suite ['else' ':' suite]",
   "with_stmt: 'with' with_item (',' with_item)* ':' suite",
   "with_item: test ['as' expr]",
   "suite: simple_stmt | NEWLINE INDENT stmt+ DEDENT",
   "",
   "test: or_test ['if' or_test 'else' test] | lambdef",
   "test_nocond: or_test",
   "lambdef: 'lambda' [varargslist] ':' test",
   "or_test: and_test ('or' and_test)*",
   "and_test: not_test ('and' not_test)*",
   "not_test: 'not' not_test | comparison",
   "comparison: expr (comp_op expr)*",
   "comp_op: '<' | '>' | '==' | '>=' | '<=' | '<>' | '!=' | 'in' | 'not' 'in' | 'is' | 'is' 'not'",
   "star_expr: '*' expr",
   "expr: xor_expr ('|' xor_expr)*",
   "xor_expr: and_expr ('^' and_expr)*",
   "and_expr: shift_expr ('&' shift_expr)*",
   "shift_expr: arith_expr (('<<' | '>>') arith_expr)*",
   "arith_expr: term (('+' | '-') term)*",
   "term: factor (('*' | '@' | '/' | '%' | '//') factor)*",
   "factor: ('+' | '-' | '~') factor | power",
   "power: atom_expr ['**' factor]",
   "atom_expr: [AWAIT] atom trailer*",
   "atom: ('(' [testlist_comp] ')' |",
   "       '[' [testlist_comp] ']' |",
   "       '\x7b' [dictorsetmaker] '\x7d' |",
   "       NAME | NUMBER | STRING+ | '...' | 'None' | 'True' | 'False')",
   "testlist_comp: (test | star_expr) (comp_for | (',' (test | star_expr))* [','])",
   "trailer: '(' [arglist] ')' | '[' subscriptlist ']' | '.' NAME",
   "subscriptlist: subscript (',' subscript)* [',']",
   "subscript: test | [test] ':' [test]",
   "exprlist: (expr | star_expr) (',' (expr | star_expr))* [',']",
   "testlist: test (',' test)* [',']",
   "dictorsetmaker: test (':' test (',' test ':' test)* | (',' test)*) [',']",
   "",
   "classdef: 'class' NAME ['(' [arglist] ')'] ':' suite",
   "",
   "arglist: argument (',' argument)* [',']",
   "argument: test [comp_for] | test '=' test | '**' test | '*' test",
   "",
   "comp_iter: comp_for | comp_if",
   "comp_for: [ASYNC] 'for' exprlist 'in' or_test [comp_iter]",
   "comp_if: 'if' test_nocond [comp_iter]",
   "",
   "# Never reduced by a parse; names the node that records a",
   "# source encoding.",
   "encoding_decl: NAME"]

def text : String := String.join (lines.map (· ++ "\n"))

/-- The tables of the reference grammar. -/
def grammar : Except GrammarError Grammar := Grammar.ofText text.toList

end Offside.Reference
