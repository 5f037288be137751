import Lalr.Listing
import Lalr.Proofs.Strict.Grammar

/-!
# Strict lookups: texts

Texts show symbols by their names and productions in full, so they ask for whatever is behind the
numbers in them.  A text can be written if all these numbers are known to the grammar.
-/

namespace Lalr

/-! ## Known numbers -/

def Action.Known (g : Grammar) : Action → Prop
  | .reduce p => p < g.productions.size
  | .shift _ | .accept | .error => True

structure Conflict.Known (g : Grammar) (conflict : Conflict) : Prop where
  lookahead : conflict.lookahead < g.terminals.size
  actions : ∀ action ∈ conflict.actions, action.Known g
  resolution : conflict.resolution.Known g

structure Row.Known (g : Grammar) (row : Row) : Prop where
  terminals : ∀ entry ∈ row.actions, entry.1 < g.terminals.size
  actions : ∀ entry ∈ row.actions, entry.2.Known g
  nonterminals : ∀ entry ∈ row.gotos, entry.1 < g.nonterminals.size
  default : ∀ p ∈ row.defaultReduction, p < g.productions.size

def Diagnostic.Known (g : Grammar) : Diagnostic → Prop
  | .conflict record => record.Known g
  | .deadProduction p => p < g.productions.size
  | .unusedTerminal t => t < g.terminals.size

namespace Strict

variable (g : Grammar)

/-! ## Texts -/

def terminalName (t : TerminalId) : Option String := do
  return (← g.terminals[t]?).name

def nonterminalName (n : NonterminalId) : Option String := do
  return (← g.nonterminals[n]?).name

def symbolName : Symbol → Option String
  | .terminal t => terminalName g t
  | .nonterminal n => nonterminalName g n

def renderTerminals (set : TerminalSet) : Option String := do
  return "[" ++ Text.spaced (← set.toList.mapM (terminalName g)) ++ "]"

def renderProduction (production : Production) : Option String := do
  let left ← nonterminalName g production.left
  if production.right.isEmpty then
    return s!"{left} -> ε"
  else
    return s!"{left} -> " ++ Text.spaced (← production.right.toList.mapM (symbolName g))

def renderProductionId (p : ProductionId) : Option String := do
  renderProduction g (← g.productions[p]?)

def productionLine (production : Production) (p : ProductionId) : Option String := do
  return Text.alignedRight 3 (toString p) ++ ": " ++ (← renderProduction g production) ++
    (production.borrowed.join.map (·.remark)).getD ""

def renderGrammar : Option String := do
  let productions ← g.productions.toList.zipIdx.mapM fun (production, p) =>
    productionLine g production p
  return Text.lines <|
    ["## terminals:"] ++ g.terminals.toList.map Grammar.terminalLine ++
    ["", "## nonterminals:"] ++
      g.nonterminals.toList.zipIdx.map (fun (nonterminal, n) => g.nonterminalLine nonterminal n) ++
    ["", "## productions:"] ++ productions

def renderCore (core : Core) : Option String := do
  let production ← g.productions[core.production]?
  let left ← nonterminalName g production.left
  let names ← production.right.toList.mapM (symbolName g)
  return left ++ " ->" ++
    String.join (names.zipIdx.map fun (name, place) =>
      (if place = core.dot then " ." else "") ++ " " ++ name) ++
    if core.dot = production.right.size then " ." else ""

def renderAction : Action → Option String
  | .shift target => some s!"shift({target})"
  | .reduce p => do
      let production ← renderProductionId g p
      return s!"reduce({production})"
  | .accept => some "accept"
  | .error => some "error"

def renderConflict (conflict : Conflict) : Option String := do
  let lookahead ← terminalName g conflict.lookahead
  let place := s!"state {conflict.state} on {lookahead}"
  let actions := " vs ".intercalate (← conflict.actions.mapM (renderAction g))
  let resolution ← renderAction g conflict.resolution
  let choice := s!"{resolution} ({conflict.justification.words})"
  return s!"{conflict.kind.words} conflict in {place}: {actions}; chose {choice}"

def actionLine (entry : TerminalId × Action) : Option String := do
  let name ← terminalName g entry.1
  let action ← renderAction g entry.2
  return s!"- {name} => {action}"

def defaultLine (p : ProductionId) : Option String := do
  let production ← renderProductionId g p
  return s!"- reduce({production})"

def gotoLine (entry : NonterminalId × StateId) : Option String := do
  let name ← nonterminalName g entry.1
  return s!"- {name} => goto({entry.2})"

def renderRow (row : Row) : Option (List String) := do
  let actions ← row.actions.mapM (actionLine g)
  let default ← row.defaultReduction.toList.mapM (defaultLine g)
  let gotos ← row.gotos.mapM (gotoLine g)
  return headed "## actions" actions ++ headed "## default" default ++ headed "## gotos" gotos

def message : Diagnostic → Option String
  | .conflict record => renderConflict g record
  | .deadProduction p => do
      let production ← renderProductionId g p
      return s!"production #{p} is never reduced: {production}"
  | .unusedTerminal t => do
      let name ← terminalName g t
      return s!"terminal `{name}' is never used"

def renderDiagnostic (diagnostic : Diagnostic) : Option String := do
  let text ← message g diagnostic
  return s!"{diagnostic.severity.word}: {text}"

variable {g}

/-! ## Nothing fails -/

theorem terminalName_eq {t : TerminalId} (inside : t < g.terminals.size) :
    terminalName g t = some (g.terminalName t) := by
  have found := Array.getElem?_eq_getElem inside
  rw [terminalName, Grammar.terminalName, found]
  rfl

theorem nonterminalName_eq {n : NonterminalId} (inside : n < g.nonterminals.size) :
    nonterminalName g n = some (g.nonterminalName n) := by
  have found := Array.getElem?_eq_getElem inside
  rw [nonterminalName, Grammar.nonterminalName, found]
  rfl

theorem symbolName_eq {symbol : Symbol} (numbered : g.Numbers symbol) :
    symbolName g symbol = some (g.symbolName symbol) := by
  cases symbol with
  | terminal t => exact terminalName_eq numbered
  | nonterminal n => exact nonterminalName_eq numbered

theorem renderTerminals_eq {set : TerminalSet}
    (inside : ∀ t, set.contains t = true → t < g.terminals.size) :
    renderTerminals g set = some (g.renderTerminals set) := by
  have names := mapM_eq_some fun t (member : t ∈ set.toList) =>
    terminalName_eq (inside t (IdSet.mem_toList.1 member))
  rw [renderTerminals, names]
  rfl

section WellFormed

variable (wellFormed : g.WellFormed)

include wellFormed

theorem renderProduction_eq {p : ProductionId} {production : Production}
    (listed : g.productions[p]? = some production) :
    renderProduction g production = some (g.renderProduction production) := by
  have names := mapM_eq_some fun symbol (member : symbol ∈ production.right.toList) =>
    symbolName_eq (wellFormed.numbers listed member)
  rw [renderProduction, nonterminalName_eq (wellFormed.left_lt listed), names,
    Grammar.renderProduction, Option.bind_eq_bind, Option.bind_some]
  split <;> rfl

theorem renderProductionId_eq {p : ProductionId} (inside : p < g.productions.size) :
    renderProductionId g p = some (g.renderProductionId p) := by
  have found := Array.getElem?_eq_getElem inside
  rw [renderProductionId, Grammar.renderProductionId, found]
  exact renderProduction_eq wellFormed found

theorem renderGrammar_eq : renderGrammar g = some g.render := by
  have each : ∀ entry ∈ g.productions.toList.zipIdx,
      productionLine g entry.1 entry.2 = some (g.productionLine entry.1 entry.2) := by
    rintro ⟨production, p⟩ listed
    rw [List.mem_zipIdx_iff_getElem?, Array.getElem?_toList] at listed
    rw [productionLine, renderProduction_eq wellFormed listed]
    rfl
  rw [renderGrammar, mapM_eq_some each]
  rfl

theorem renderCore_eq {core : Core} (isOf : core.IsOf g) :
    renderCore g core = some (core.render g) := by
  obtain ⟨production, listed, _⟩ := isOf
  have names := mapM_eq_some fun symbol (member : symbol ∈ production.right.toList) =>
    symbolName_eq (wellFormed.numbers listed member)
  rw [renderCore, Core.render, Core.right_of_listed listed, listed, Option.bind_eq_bind,
    Option.bind_some, nonterminalName_eq (wellFormed.left_lt listed)]
  simp only [Option.bind_eq_bind, Option.bind_some, names, List.zipIdx_map, List.map_map]
  rfl

theorem renderAction_eq {action : Action} (known : action.Known g) :
    renderAction g action = some (action.render g) := by
  cases action with
  | reduce p =>
      rw [renderAction, renderProductionId_eq wellFormed known]
      rfl
  | shift target => rfl
  | accept => rfl
  | error => rfl

theorem renderConflict_eq {conflict : Conflict} (known : conflict.Known g) :
    renderConflict g conflict = some (conflict.render g) := by
  have actions := mapM_eq_some fun action member =>
    renderAction_eq wellFormed (known.actions action member)
  rw [renderConflict, terminalName_eq known.lookahead, actions,
    renderAction_eq wellFormed known.resolution]
  rfl

theorem renderRow_eq {row : Row} (known : row.Known g) : renderRow g row = some (row.render g) := by
  have actions : ∀ entry ∈ row.actions, actionLine g entry =
      some s!"- {g.terminalName entry.1} => {entry.2.render g}" := by
    intro entry member
    rw [actionLine, terminalName_eq (known.terminals entry member),
      renderAction_eq wellFormed (known.actions entry member)]
    rfl
  have default : ∀ p ∈ row.defaultReduction.toList, defaultLine g p =
      some s!"- reduce({g.renderProductionId p})" := by
    intro p member
    rw [defaultLine, renderProductionId_eq wellFormed (known.default p (Option.mem_toList.1 member))]
    rfl
  have gotos : ∀ entry ∈ row.gotos, gotoLine g entry =
      some s!"- {g.nonterminalName entry.1} => goto({entry.2})" := by
    intro entry member
    rw [gotoLine, nonterminalName_eq (known.nonterminals entry member)]
    rfl
  rw [renderRow, mapM_eq_some actions, mapM_eq_some default, mapM_eq_some gotos, Row.render]
  cases row.defaultReduction <;> rfl

theorem renderDiagnostic_eq {diagnostic : Diagnostic} (known : diagnostic.Known g) :
    renderDiagnostic g diagnostic = some (diagnostic.render g) := by
  have text : message g diagnostic = some (diagnostic.message g) := by
    cases diagnostic with
    | conflict record => exact renderConflict_eq wellFormed known
    | deadProduction p =>
        rw [message, renderProductionId_eq wellFormed known]
        rfl
    | unusedTerminal t =>
        rw [message, terminalName_eq known]
        rfl
  rw [renderDiagnostic, text]
  rfl

end WellFormed

end Strict

end Lalr
