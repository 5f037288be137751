import Lalr.Grammar.Basic
import Lalr.IdSet

/-!
# Grammars as text

A production is written `LHS -> R1 R2 R3`, with `ε` for an empty right-hand side.  A grammar is
written in three sections, for its terminals, nonterminals and productions, in the order of their
numbers.
-/

namespace Lalr

def Precedence.remark (precedence : Precedence) : String :=
  s!" (level={precedence.level}, assoc={precedence.associativity.word})"

def valueTypeRemark : Option String → String
  | some tag => s!" <{tag}>"
  | none => ""

namespace Grammar

def renderProduction (g : Grammar) (production : Production) : String :=
  let left := g.nonterminalName production.left
  if production.right.isEmpty then
    s!"{left} -> ε"
  else
    s!"{left} -> " ++ Text.spaced (production.right.toList.map g.symbolName)

def renderProductionId (g : Grammar) (p : ProductionId) : String :=
  (g.productions[p]?.map g.renderProduction).getD ""

def renderTerminals (g : Grammar) (set : TerminalSet) : String :=
  "[" ++ Text.spaced (set.toList.map g.terminalName) ++ "]"

def terminalLine (terminal : Terminal) : String :=
  terminal.name ++ valueTypeRemark terminal.valueType ++
    (terminal.precedence.map (·.remark)).getD ""

def nonterminalLine (g : Grammar) (nonterminal : Nonterminal) (n : NonterminalId) : String :=
  nonterminal.name ++ valueTypeRemark nonterminal.valueType ++
    if n = g.start then " (start)" else ""

/-- The line of production `p`.  Only a borrowed precedence is shown. -/
def productionLine (g : Grammar) (production : Production) (p : ProductionId) : String :=
  Text.alignedRight 3 (toString p) ++ ": " ++ g.renderProduction production ++
    (production.borrowed.join.map (·.remark)).getD ""

def render (g : Grammar) : String :=
  Text.lines <|
    ["## terminals:"] ++ g.terminals.toList.map terminalLine ++
    ["", "## nonterminals:"] ++
      g.nonterminals.toList.zipIdx.map (fun (nonterminal, n) => g.nonterminalLine nonterminal n) ++
    ["", "## productions:"] ++
      g.productions.toList.zipIdx.map fun (production, p) => g.productionLine production p

end Grammar

end Lalr
