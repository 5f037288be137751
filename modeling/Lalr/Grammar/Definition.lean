import Std.Data.TreeMap
import Lalr.Grammar.Basic
import Lalr.Grammar.Error
import Lalr.Text

/-!
# Defining a grammar

A grammar is defined by a sequence of calls that declare symbols, precedence levels, value types,
rules and the start symbol.  Symbols are referred to by name, and names are resolved when the
definition ends, so the calls of different kinds may come in any order.

A call either answers with the number that it has assigned, if it assigns one, or fails.  A failed
call leaves the definition as it was, with one exception: a precedence call that meets a name for
the second time has used up its level and has assigned it to the names up to and including that one.
-/

namespace Lalr

inductive Call where
  | terminal (name : String)
  | nonterminal (name : String)
  | precedence (associativity : Associativity) (names : List String)
  | valueType (symbol tag : String)
  | rule (left : String) (right : List String) (borrowed : Option String)
  | start (name : String)
  deriving DecidableEq, Inhabited

/-- A rule as it was written, with names for symbols. -/
structure Rule where
  left : String
  right : List String
  borrowed : Option String
  deriving DecidableEq, Inhabited

/-- What the calls made so far have declared. -/
structure Definition where
  names : Std.TreeMap String Symbol
  terminals : Array String
  nonterminals : Array String
  precedences : List (String × Precedence)
  levels : Nat
  valueTypes : List (String × String)
  rules : Array Rule
  ruleNumbers : Std.TreeMap (List String) ProductionId
  start : Option String

/-- What a call answers: the number it has assigned, if it assigns one, or why it fails. -/
abbrev Answer := Except GrammarError (Option Nat)

namespace Definition

/-- The definition before any call: only the reserved symbols exist, and no name refers to them. -/
def empty : Definition where
  names := ∅
  terminals := #["$end"]
  nonterminals := #["$start"]
  precedences := []
  levels := 0
  valueTypes := []
  rules := #[]
  ruleNumbers := ∅
  start := none

/-- Why a name cannot be declared, if it cannot.  Names are not blank, not empty and not declared
yet, and a dollar sign at the beginning is reserved. -/
def nameFault (d : Definition) (name : String) : Option GrammarError :=
  if name.toList.any Text.isBlank then
    some (.invalidName name)
  else if name.toList.head?.all (· == '$') then
    some (.reservedName name)
  else if d.names.contains name then
    some (.duplicateSymbol name)
  else
    none

def declareTerminal (d : Definition) (name : String) : Answer × Definition :=
  match d.nameFault name with
  | some fault => (.error fault, d)
  | none =>
      let id := d.terminals.size
      if id > numberLimit then
        (.error (.tooManySymbols name), d)
      else
        (.ok (some id),
          { d with
            names := d.names.insert name (.terminal id)
            terminals := d.terminals.push name })

def declareNonterminal (d : Definition) (name : String) : Answer × Definition :=
  match d.nameFault name with
  | some fault => (.error fault, d)
  | none =>
      let id := d.nonterminals.size
      if id > numberLimit then
        (.error (.tooManySymbols name), d)
      else
        (.ok (some id),
          { d with
            names := d.names.insert name (.nonterminal id)
            nonterminals := d.nonterminals.push name })

/-- Give each name the precedence.  A name that has one already takes the new one, and is the last
to do so. -/
def assignPrecedence (precedence : Precedence) :
    List String → List (String × Precedence) → Answer × List (String × Precedence)
  | [], assigned => (.ok none, assigned)
  | name :: rest, assigned =>
      if assigned.any (·.1 == name) then
        (.error (.duplicatePrecedence name),
          assigned.map fun entry => if entry.1 == name then (name, precedence) else entry)
      else
        assignPrecedence precedence rest (assigned ++ [(name, precedence)])

def declarePrecedence (d : Definition) (associativity : Associativity) (names : List String) :
    Answer × Definition :=
  if d.levels > numberLimit then
    (.error .tooManyPrecedenceLevels, d)
  else
    let (answer, precedences) := assignPrecedence ⟨d.levels, associativity⟩ names d.precedences
    (answer, { d with precedences, levels := d.levels + 1 })

def declareValueType (d : Definition) (symbol tag : String) : Answer × Definition :=
  if d.valueTypes.any (·.1 == symbol) then
    (.error (.duplicateValueType symbol), d)
  else
    (.ok none, { d with valueTypes := d.valueTypes ++ [(symbol, tag)] })

def declareRule (d : Definition) (rule : Rule) : Answer × Definition :=
  let number := d.rules.size + 1
  if number > numberLimit then
    (.error .tooManyProductions, d)
  else if rule.right.length > numberLimit then
    (.error (.productionTooLong number), d)
  else
    match d.ruleNumbers[rule.left :: rule.right]? with
    | some previous => (.error (.duplicateProduction number previous), d)
    | none =>
        (.ok (some number),
          { d with
            rules := d.rules.push rule
            ruleNumbers := d.ruleNumbers.insert (rule.left :: rule.right) number })

def call (d : Definition) : Call → Answer × Definition
  | .terminal name => d.declareTerminal name
  | .nonterminal name => d.declareNonterminal name
  | .precedence associativity names => d.declarePrecedence associativity names
  | .valueType symbol tag => d.declareValueType symbol tag
  | .rule left right borrowed => d.declareRule ⟨left, right, borrowed⟩
  | .start name => (.ok none, { d with start := some name })

/-- Make calls up to the first that fails.  The answer is that of the last call made. -/
def run (d : Definition) : List Call → Answer × Definition
  | [] => (.ok none, d)
  | [last] => d.call last
  | next :: rest =>
      match d.call next with
      | (.ok _, d) => run d rest
      | (.error fault, d) => (.error fault, d)

/-- Make groups of calls, each up to its first failure.  A failure ends the definition, unless it is
lenient: then the next group follows.  The answers of the groups come with what is declared in the
end. -/
def perform (lenient : Bool) (d : Definition) :
    List (List Call) → List Answer × Except GrammarError Definition
  | [] => ([], .ok d)
  | group :: rest =>
      match d.run group with
      | (.ok number, d) =>
          let (answers, outcome) := perform lenient d rest
          (.ok number :: answers, outcome)
      | (.error fault, d) =>
          if lenient then
            let (answers, outcome) := perform lenient d rest
            (.error fault :: answers, outcome)
          else
            ([.error fault], .error fault)

/-- The start symbol: the one last named, or the first nonterminal that was declared. -/
def resolveStart (d : Definition) : Except GrammarError NonterminalId :=
  match d.start with
  | some name =>
      match d.names[name]? with
      | some (.nonterminal n) => .ok n
      | _ => .error (.undefinedStartSymbol name)
  | none => if 1 < d.nonterminals.size then .ok 1 else .error .missingStartSymbol

/-- Why the declared precedences cannot be used: the first name among them that is no terminal. -/
def precedenceFault (d : Definition) : Option GrammarError :=
  d.precedences.findSome? fun (name, _) =>
    match d.names[name]? with
    | some (.terminal _) => none
    | _ => some (.unknownPrecedenceSymbol name)

/-- Why the declared value types cannot be used: the first name among them that is no symbol. -/
def valueTypeFault (d : Definition) : Option GrammarError :=
  d.valueTypes.findSome? fun (name, _) =>
    if d.names.contains name then none else some (.unknownSymbol name)

def resolveLeft (d : Definition) (number : ProductionId) (name : String) :
    Except GrammarError NonterminalId :=
  match d.names[name]? with
  | some (.nonterminal n) => .ok n
  | some (.terminal _) => .error (.terminalOnLeft name number)
  | none => .error (.undeclaredLeft name number)

def resolveSymbol (d : Definition) (number : ProductionId) (name : String) :
    Except GrammarError Symbol :=
  match d.names[name]? with
  | some symbol => .ok symbol
  | none => .error (.undeclaredSymbol name number)

def resolveBorrowed (d : Definition) :
    Option String → Except GrammarError (Option (Option Precedence))
  | none => .ok none
  | some name =>
      match d.names[name]? with
      | some (.terminal _) => .ok (some (d.precedences.lookup name))
      | _ => .error (.unknownPrecedenceSymbol name)

/-- The production that rule `number` stands for. -/
def resolveRule (d : Definition) (number : ProductionId) (rule : Rule) :
    Except GrammarError Production := do
  let left ← d.resolveLeft number rule.left
  let right ← rule.right.mapM (d.resolveSymbol number)
  let borrowed ← d.resolveBorrowed rule.borrowed
  return { left, right := right.toArray, borrowed }

/-- The productions of all rules, in the order of their numbers. -/
def resolveRules (d : Definition) : Except GrammarError (List Production) :=
  (d.rules.toList.zipIdx 1).mapM fun (rule, number) => d.resolveRule number rule

/-- The numbers of the productions of each nonterminal, in ascending order. -/
def groupByLeft (nonterminals : Nat) (productions : Array Production) :
    Array (List ProductionId) :=
  productions.toList.zipIdx.foldr
    (fun (production, p) groups => groups.modify production.left (p :: ·))
    (Array.replicate nonterminals [])

def augmented (start : NonterminalId) : Production where
  left := startNonterminal
  right := #[.nonterminal start, .terminal endTerminal]

/-- The terminals with the precedences and value types declared for them. -/
def resolvedTerminals (d : Definition) : Array Terminal :=
  d.terminals.map fun name =>
    { name, precedence := d.precedences.lookup name, valueType := d.valueTypes.lookup name }

/-- The nonterminals with the value types declared for them. -/
def resolvedNonterminals (d : Definition) : Array Nonterminal :=
  d.nonterminals.map fun name => { name, valueType := d.valueTypes.lookup name }

/-- End the definition: resolve all names and check that every nonterminal has a production. -/
def finish (d : Definition) : Except GrammarError Grammar := do
  let start ← d.resolveStart
  if let some fault := d.precedenceFault then
    throw fault
  if let some fault := d.valueTypeFault then
    throw fault
  let rules ← d.resolveRules
  let productions := (augmented start :: rules).toArray
  let groups := groupByLeft d.nonterminals.size productions
  if let some n := groups.findIdx? (·.isEmpty) then
    throw (.noProductions (d.nonterminals[n]?.getD ""))
  return {
    terminals := d.resolvedTerminals
    nonterminals := d.resolvedNonterminals
    productions, start, groups }

end Definition

/-- The grammar that a sequence of calls defines.  The first call that fails ends the definition. -/
def Grammar.define (calls : List Call) : Except GrammarError Grammar :=
  match Definition.empty.run calls with
  | (.ok _, d) => d.finish
  | (.error fault, _) => .error fault

/-- The grammar that a sequence of calls defines when failed calls are passed over, with the answers
of the calls. -/
def Grammar.defineLeniently (calls : List Call) : List Answer × Except GrammarError Grammar :=
  let (answers, outcome) := Definition.empty.perform true (calls.map ([·]))
  (answers, outcome.bind Definition.finish)

end Lalr
