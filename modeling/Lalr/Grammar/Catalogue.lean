import Lalr.Grammar.Definition

/-!
# Ready-made grammars

The grammars here are known by name.  The first family shows what the generator can do and is what
the command line offers; the second is a wider catalogue for exercising the generator.
-/

namespace Lalr.Catalogue

def terminals (names : List String) : List Call := names.map .terminal

def nonterminals (names : List String) : List Call := names.map .nonterminal

/-- Add one rule for each alternative. -/
def rules (left : String) (alternatives : List (List String)) : List Call :=
  alternatives.map fun right => .rule left right none

/-- Unambiguous expressions, layered by binding strength. -/
def arithmetic : List Call :=
  terminals ["(", ")", "+", "-", "*", "/", "NUM"] ++
  nonterminals ["expr", "term", "factor", "atom"] ++
  rules "expr" [["expr", "+", "term"], ["expr", "-", "term"], ["term"]] ++
  rules "term" [["term", "*", "factor"], ["term", "/", "factor"], ["factor"]] ++
  rules "factor" [["-", "factor"], ["atom"]] ++
  rules "atom" [["NUM"], ["(", "expr", ")"]]

/-- Ambiguous expressions, made unambiguous by precedence levels. -/
def arithmeticWithPrecedence : List Call :=
  terminals ["(", ")", "+", "-", "*", "/", "NUM", "UMINUS"] ++
  nonterminals ["expr"] ++
  [.valueType "NUM" "i64", .valueType "expr" "i64",
    .precedence .left ["+", "-"], .precedence .left ["*", "/"], .precedence .right ["UMINUS"]] ++
  rules "expr" [["expr", "+", "expr"], ["expr", "-", "expr"], ["expr", "*", "expr"],
    ["expr", "/", "expr"]] ++
  [.rule "expr" ["-", "expr"] (some "UMINUS")] ++
  rules "expr" [["NUM"], ["(", "expr", ")"]]

/-- A grammar with a nonterminal that derives the empty string. -/
def withNullable : List Call :=
  terminals ["(", ")", "+", "a", "NUM"] ++
  nonterminals ["expr", "term", "nullable"] ++
  rules "expr" [["expr", "+", "term", "nullable"], ["term"]] ++
  rules "term" [["a"], ["(", "expr", "nullable", ")"], ["nullable", "a"]] ++
  rules "nullable" [[], ["NUM"]]

/-- Assignments through pointers, a grammar that needs the lookaheads of single states. -/
def pointer : List Call :=
  terminals ["=", "*", "id"] ++
  nonterminals ["S", "L", "R"] ++
  rules "S" [["L", "=", "R"], ["R"]] ++
  rules "L" [["*", "R"], ["id"]] ++
  rules "R" [["L"]]

/-- Conditionals whose `else` may belong to more than one `if`. -/
def danglingElse : List Call :=
  terminals ["if", "then", "else", "cond", "other"] ++
  nonterminals ["stmt", "expr"] ++
  rules "stmt" [["if", "expr", "then", "stmt"], ["if", "expr", "then", "stmt", "else", "stmt"],
    ["other"]] ++
  rules "expr" [["cond"]]

/-- Two nonterminals that derive the same word. -/
def reduceReduce : List Call :=
  terminals ["x"] ++
  nonterminals ["S", "A", "B"] ++
  rules "S" [["A"], ["B"]] ++
  rules "A" [["x"]] ++
  rules "B" [["x"]]

/-- The grammars on offer, by name. -/
def samples : List (String × List Call) := [
  ("arithmetic", arithmetic),
  ("arithmetic_prec", arithmeticWithPrecedence),
  ("with_nullable", withNullable),
  ("pointer", pointer),
  ("dangling_else", danglingElse),
  ("reduce_reduce", reduceReduce)]

def sample? (name : String) : Option (List Call) := samples.lookup name

def equations : List Call :=
  terminals ["EQUAL", "PLUS", "ID", "NUM"] ++
  nonterminals ["A", "E", "T"] ++
  rules "A" [["E", "EQUAL", "E"], ["ID"]] ++
  rules "E" [["E", "PLUS", "T"], ["T"]] ++
  rules "T" [["NUM"], ["ID"]]

/-- Expressions in four operations with parentheses. -/
def fourOperations : List Call :=
  terminals ["LPAREN", "RPAREN", "PLUS", "MINUS", "STAR", "SLASH", "NUM"] ++
  nonterminals ["EXPR", "FACTOR", "TERM"] ++
  rules "EXPR" [["EXPR", "PLUS", "FACTOR"], ["EXPR", "MINUS", "FACTOR"], ["FACTOR"]] ++
  rules "FACTOR" [["FACTOR", "STAR", "TERM"], ["FACTOR", "SLASH", "TERM"], ["TERM"]] ++
  rules "TERM" [["NUM"], ["LPAREN", "EXPR", "RPAREN"]]

def sumsOfProducts : List Call :=
  terminals ["PLUS", "STAR", "A"] ++
  nonterminals ["E", "T"] ++
  rules "E" [["E", "PLUS", "T"], ["T"]] ++
  rules "T" [["T", "STAR", "A"], ["A"]]

def declarations : List Call :=
  terminals ["COMMA", "COLON", "ID"] ++
  nonterminals ["DEF", "PARAM_SPEC", "RETURN_SPEC", "TYPE", "NAME", "NAME_LIST"] ++
  rules "DEF" [["PARAM_SPEC", "RETURN_SPEC", "COMMA"]] ++
  rules "PARAM_SPEC" [["TYPE"], ["NAME_LIST", "COLON", "TYPE"]] ++
  rules "RETURN_SPEC" [["TYPE"], ["NAME", "COLON", "TYPE"]] ++
  rules "TYPE" [["ID"]] ++
  rules "NAME" [["ID"]] ++
  rules "NAME_LIST" [["NAME"], ["NAME", "COMMA", "NAME_LIST"]]

def sums : List Call :=
  terminals ["PLUS", "LPAREN", "RPAREN", "NUM"] ++
  nonterminals ["E", "T"] ++
  rules "E" [["E", "PLUS", "T"], ["T"]] ++
  rules "T" [["LPAREN", "E", "RPAREN"], ["NUM"]]

/-- Sums and products in one nonterminal, both left associative, with products binding tighter. -/
def ambiguousExpression : List Call :=
  terminals ["+", "*", "id"] ++
  nonterminals ["E"] ++
  [.precedence .left ["+"], .precedence .left ["*"]] ++
  rules "E" [["E", "+", "E"], ["E", "*", "E"], ["id"]]

/-- A grammar with a nonterminal that nothing refers to. -/
def unreachableRule : List Call :=
  terminals ["a", "b"] ++
  nonterminals ["S", "U"] ++
  rules "S" [["a"], ["S", "a"]] ++
  rules "U" [["b"], ["U", "b"]]

def functionalLanguage : List Call :=
  terminals [
    "LPAREN", "RPAREN", "TRUE", "FALSE", "INTEGER", "FLOAT", "IDENT", "NOT", "PLUS", "PLUS_DOT",
    "MINUS", "MINUS_DOT", "STAR_DOT", "SLASH_DOT", "EQUAL", "LESS_GREATER", "LESS", "GREATER",
    "LESS_EQUAL", "GREATER_EQUAL", "LESS_MINUS", "COMMA", "SEMICOLON", "IF", "THEN", "ELSE",
    "LET", "REC", "IN", "ARRAY_MAKE", "DOT"] ++
  nonterminals [
    "SIMPLE_EXP", "APP_EXP", "NEG_EXP", "MULT_EXP", "ADD_EXP", "REL_EXP", "TUPLE_EXP", "PUT_EXP",
    "IF_EXP", "LET_EXP", "EXPR", "FORMAL_ARGS", "ACTUAL_ARGS", "TUPLE_EXP_REST", "FUNDEF", "PAT"] ++
  [.start "EXPR"] ++
  rules "SIMPLE_EXP" [
    ["LPAREN", "EXPR", "RPAREN"], ["LPAREN", "RPAREN"], ["TRUE"], ["FALSE"], ["INTEGER"],
    ["FLOAT"], ["IDENT"], ["SIMPLE_EXP", "DOT", "LPAREN", "EXPR", "RPAREN"]] ++
  rules "APP_EXP" [
    ["SIMPLE_EXP"], ["SIMPLE_EXP", "ACTUAL_ARGS"], ["ARRAY_MAKE", "SIMPLE_EXP", "SIMPLE_EXP"],
    ["NOT", "APP_EXP"]] ++
  rules "NEG_EXP" [["APP_EXP"], ["MINUS", "NEG_EXP"], ["MINUS_DOT", "NEG_EXP"]] ++
  rules "MULT_EXP" [
    ["NEG_EXP"], ["MULT_EXP", "STAR_DOT", "NEG_EXP"], ["MULT_EXP", "SLASH_DOT", "NEG_EXP"]] ++
  rules "ADD_EXP" [
    ["MULT_EXP"], ["ADD_EXP", "PLUS", "MULT_EXP"], ["ADD_EXP", "MINUS", "MULT_EXP"],
    ["ADD_EXP", "PLUS_DOT", "MULT_EXP"], ["ADD_EXP", "MINUS_DOT", "MULT_EXP"]] ++
  rules "REL_EXP" [
    ["ADD_EXP"], ["REL_EXP", "EQUAL", "ADD_EXP"], ["REL_EXP", "LESS_GREATER", "ADD_EXP"],
    ["REL_EXP", "LESS", "ADD_EXP"], ["REL_EXP", "GREATER", "ADD_EXP"],
    ["REL_EXP", "LESS_EQUAL", "ADD_EXP"], ["REL_EXP", "GREATER_EQUAL", "ADD_EXP"]] ++
  rules "TUPLE_EXP" [["REL_EXP"], ["REL_EXP", "COMMA", "TUPLE_EXP_REST"]] ++
  rules "TUPLE_EXP_REST" [["REL_EXP"], ["REL_EXP", "COMMA", "TUPLE_EXP_REST"]] ++
  rules "PUT_EXP" [
    ["TUPLE_EXP"], ["SIMPLE_EXP", "DOT", "LPAREN", "EXPR", "RPAREN", "LESS_MINUS", "EXPR"]] ++
  rules "IF_EXP" [["PUT_EXP"], ["IF", "EXPR", "THEN", "EXPR", "ELSE", "EXPR"]] ++
  rules "LET_EXP" [
    ["LET", "IDENT", "EQUAL", "EXPR", "IN", "EXPR"], ["LET", "REC", "FUNDEF", "IN", "EXPR"],
    ["LET", "LPAREN", "PAT", "RPAREN", "EQUAL", "EXPR", "IN", "EXPR"]] ++
  rules "FUNDEF" [["IDENT", "FORMAL_ARGS", "EQUAL", "EXPR"]] ++
  rules "FORMAL_ARGS" [["IDENT", "FORMAL_ARGS"], ["IDENT"]] ++
  rules "ACTUAL_ARGS" [["ACTUAL_ARGS", "SIMPLE_EXP"], ["SIMPLE_EXP"]] ++
  rules "PAT" [["PAT", "COMMA", "IDENT"], ["IDENT", "COMMA", "IDENT"]] ++
  rules "EXPR" [["IF_EXP"], ["IF_EXP", "SEMICOLON", "EXPR"], ["LET_EXP"]]

/-- The wider catalogue, by name. -/
def catalogue : List (String × List Call) := [
  ("g_simple1", equations),
  ("g_simple2", fourOperations),
  ("g1", sumsOfProducts),
  ("g2", declarations),
  ("g4", sums),
  ("ambiguous_expr", ambiguousExpression),
  ("unreachable_rule", unreachableRule),
  ("reduce_reduce", reduceReduce),
  ("min_caml", functionalLanguage)]

def entry? (name : String) : Option (List Call) := catalogue.lookup name

end Lalr.Catalogue
