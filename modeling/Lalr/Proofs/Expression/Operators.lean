import Lalr.Proofs.Expression.Parse
import Lalr.Proofs.Grammar.Declared
import Lalr.Proofs.Grammar.Lawful
import Mathlib.Data.List.ProdSigma

/-!
# Declared operators

Operators are declared in precedence groups that bind tighter and tighter, together with an operand and
a rule for every operator.  Whenever calls with these declarations define a grammar, it is that of the
expressions with these operators, and the order of the declarations makes no difference to the trees
that a parser builds.
-/

namespace Lalr

open Lalr.Parser (Tree)

/-- Binary operators in precedence groups, with the names of an operand and of expressions. -/
structure Operators where
  groups : List (Associativity × List String)
  operand : String
  phrase : String
  deriving DecidableEq

/-- The names of the operator that could be reduced and of the one that could be shifted. -/
def Conflict.operators? (g : Grammar) (conflict : Conflict) : Option (String × String) :=
  (conflict.reducedOperator? g).map fun t => (g.terminalName t, g.terminalName conflict.lookahead)

namespace Operators

/-- The names of the operators. -/
def names (operators : Operators) : List String := operators.groups.flatMap (·.2)

/-- The place of an operator's group is its level. -/
def precedence? (operators : Operators) (name : String) : Option Precedence :=
  operators.groups.zipIdx.findSome? fun ((associativity, names), level) =>
    if name ∈ names then some ⟨level, associativity⟩ else none

def unitRule (operators : Operators) : Rule := ⟨operators.phrase, [operators.operand], none⟩

def binaryRule (operators : Operators) (name : String) : Rule :=
  ⟨operators.phrase, [operators.phrase, name, operators.phrase], none⟩

/-- The calls that declare the symbols and the rules. -/
def declarations (operators : Operators) : List Call :=
  .nonterminal operators.phrase :: (operators.operand :: operators.names).map .terminal ++
    (operators.unitRule :: operators.names.map operators.binaryRule).map fun rule =>
      .rule rule.left rule.right rule.borrowed

/-- The calls declare the groups in their order, symbols and rules in any order, and no other start
symbol than that of expressions. -/
structure Declares (operators : Operators) (calls : List Call) : Prop where
  groups : calls.filterMap Call.precedence? = operators.groups
  others : (calls.filter fun call => call.precedence?.isNone && call.start?.isNone).Perm
    operators.declarations
  start : ∀ name ∈ calls.filterMap Call.start?, name = operators.phrase

/-- The words of an operand with operators and further operands behind it. -/
def sentence (operators : Operators) (names : List String) : List String :=
  operators.operand :: names.flatMap fun name => [name, operators.operand]

/-- The declared precedence of a symbol. -/
def rank (operators : Operators) (g : Grammar) : Symbol → Option Precedence
  | .terminal t => operators.precedence? (g.terminalName t)
  | .nonterminal _ => none

/-- The tokens are terminals with the given names. -/
def Spells (g : Grammar) (names : List String) (tokens : List (Parser.Token Symbol)) : Prop :=
  tokens.map (some ·.symbol) = names.map fun name => (g.terminalNamed? name).map .terminal

instance (g : Grammar) (names : List String) (tokens : List (Parser.Token Symbol)) :
    Decidable (Spells g names tokens) :=
  inferInstanceAs (Decidable (_ = _))

variable {operators : Operators}

theorem lookup_leveled (operators : Operators) (name : String) :
    (Definition.leveled operators.groups).lookup name = operators.precedence? name := by
  have group : ∀ (names : List String) (precedence : Precedence),
      (names.map (·, precedence)).lookup name = if name ∈ names then some precedence else none := by
    intro names precedence
    induction names with
    | nil => rfl
    | cons first rest ih =>
        rw [List.map_cons, List.lookup_cons, ih]
        by_cases same : name = first
        · simp [same]
        · simp [same, beq_false_of_ne same]
  have all : ∀ groups : List ((Associativity × List String) × Nat),
      (groups.flatMap fun ((associativity, names), level) =>
        names.map (·, (⟨level, associativity⟩ : Precedence))).lookup name =
      groups.findSome? fun ((associativity, names), level) =>
        if name ∈ names then some ⟨level, associativity⟩ else none := by
    intro groups
    induction groups with
    | nil => rfl
    | cons first rest ih =>
        rw [List.flatMap_cons, List.lookup_append, ih, List.findSome?_cons, group]
        by_cases member : name ∈ first.1.2 <;> simp [member]
  exact all _

theorem precedence?_eq_none {name : String} :
    operators.precedence? name = none ↔ name ∉ operators.names := by
  have places : (∀ entry ∈ operators.groups.zipIdx, name ∉ entry.1.2) ↔
      ∀ group ∈ operators.groups, name ∉ group.2 := by
    constructor
    · intro all group member
      obtain ⟨place, here⟩ := List.mem_iff_getElem?.1 member
      exact all (group, place) (List.mk_mem_zipIdx_iff_getElem?.2 here)
    · rintro all ⟨group, place⟩ member
      exact all group (List.mem_of_getElem? (List.mk_mem_zipIdx_iff_getElem?.1 member))
  rw [precedence?, List.findSome?_eq_none_iff, names, List.mem_flatMap]
  simpa using places

/-! ## What the calls declare -/

namespace Declares

variable {calls : List Call} (declares : operators.Declares calls)

include declares

/-- What is neither a precedence group nor the start symbol is declared in any order. -/
theorem perm {α : Type} (kind : Call → Option α)
    (quiet : ∀ call : Call, kind call ≠ none → call.precedence? = none ∧ call.start? = none) :
    (calls.filterMap kind).Perm (operators.declarations.filterMap kind) := by
  have skipped : (calls.filter fun call => call.precedence?.isNone && call.start?.isNone).filterMap
      kind = calls.filterMap kind := by
    rw [List.filterMap_filter]
    apply List.filterMap_congr
    intro call _
    by_cases other : kind call = none
    · simp [other]
    · simp [quiet call other]
  rw [← skipped]
  exact declares.others.filterMap kind

theorem terminals :
    (calls.filterMap Call.terminal?).Perm (operators.operand :: operators.names) := by
  have declared := declares.perm Call.terminal? fun call => by
    cases call <;> simp [Call.precedence?, Call.terminal?, Call.start?]
  simpa [declarations, List.filterMap_cons, List.filterMap_map, Function.comp_def, Call.terminal?]
    using declared

theorem nonterminals : calls.filterMap Call.nonterminal? = [operators.phrase] := by
  have declared := declares.perm Call.nonterminal? fun call => by
    cases call <;> simp [Call.precedence?, Call.nonterminal?, Call.start?]
  simpa [declarations, List.filterMap_cons, List.filterMap_map, Function.comp_def,
    Call.nonterminal?] using declared

theorem rules : (calls.filterMap Call.rule?).Perm
    (operators.unitRule :: operators.names.map operators.binaryRule) := by
  have declared := declares.perm Call.rule? fun call => by
    cases call <;> simp [Call.precedence?, Call.rule?, Call.start?]
  simpa [declarations, List.filterMap_cons, List.filterMap_map, Function.comp_def, Call.rule?]
    using declared

end Declares

/-- The declarations are recorded in a definition that ends in the grammar. -/
structure Recorded (operators : Operators) (d : Definition) (g : Grammar) : Prop where
  consistent : d.Consistent
  finished : d.finish = .ok g
  wellFormed : g.WellFormed
  lawful : g.Lawful
  terminals : ∃ names, d.terminals.toList = "$end" :: names ∧
    names.Perm (operators.operand :: operators.names)
  nonterminals : d.nonterminals.toList = ["$start", operators.phrase]
  rules : d.rules.toList.Perm (operators.unitRule :: operators.names.map operators.binaryRule)
  precedences : d.precedences = Definition.leveled operators.groups
  start : ∀ name ∈ d.start, name = operators.phrase

theorem Declares.exists_recorded {calls : List Call} (declares : operators.Declares calls)
    {g : Grammar} (defined : Grammar.define calls = .ok g) : ∃ d, operators.Recorded d g := by
  have isDefined := Grammar.isDefined_of_define defined
  obtain ⟨d, records, whole, finished⟩ := Grammar.exists_records defined
  refine ⟨d, ?_, finished, isDefined.wellFormed, isDefined.lawful,
    ⟨_, records.terminals, declares.terminals⟩, ?_, ?_, ?_, ?_⟩
  · rw [whole]
    exact Definition.consistent_empty.after calls
  · rw [records.nonterminals, declares.nonterminals]
  · rw [records.rules]
    exact declares.rules
  · rw [records.precedences, declares.groups]
  · rw [records.start]
    intro name last
    exact declares.start name (List.mem_of_getLast? last)

namespace Recorded

variable {d : Definition} {g : Grammar} {name : String} {t : TerminalId}
  (recorded : operators.Recorded d g)

include recorded

theorem nodup : (operators.operand :: operators.names).Nodup := by
  obtain ⟨names, terminals, permuted⟩ := recorded.terminals
  have once := (List.nodup_append.1 recorded.consistent.names_nodup).1
  rw [terminals, List.nodup_cons] at once
  exact permuted.nodup_iff.1 once.2

theorem exists_terminal (member : name ∈ operators.operand :: operators.names) :
    ∃ t, d.names[name]? = some (.terminal t) := by
  obtain ⟨names, terminals, permuted⟩ := recorded.terminals
  obtain ⟨place, here⟩ := List.mem_iff_getElem?.1 (permuted.mem_iff.2 member)
  refine ⟨place + 1, recorded.consistent.terminals.listed.2 ⟨Nat.succ_ne_zero _, ?_⟩⟩
  rw [← Array.getElem?_toList, terminals]
  exact here

theorem phrase_named : d.names[operators.phrase]? = some (.nonterminal 1) := by
  apply recorded.consistent.nonterminals.listed.2
  refine ⟨by decide, ?_⟩
  rw [← Array.getElem?_toList, recorded.nonterminals]
  rfl

theorem start_eq : g.start = 1 := by
  obtain ⟨_, resolved, _⟩ := Definition.finish_ok recorded.finished
  unfold Definition.resolveStart at resolved
  split at resolved
  · next name declared =>
      rw [recorded.start name declared, recorded.phrase_named] at resolved
      exact (Except.ok.inj resolved).symm
  · split at resolved
    · exact (Except.ok.inj resolved).symm
    · cases resolved

theorem resolve_unit (found : d.names[operators.operand]? = some (.terminal t))
    (number : ProductionId) : d.resolveRule number operators.unitRule = .ok (g.unit t) := by
  simp [Definition.resolveRule, Definition.resolveLeft, Definition.resolveSymbol,
    Definition.resolveBorrowed, unitRule, recorded.phrase_named, found, Grammar.unit,
    recorded.start_eq, bind, Except.bind, pure, Except.pure]

theorem resolve_binary (found : d.names[name]? = some (.terminal t)) (number : ProductionId) :
    d.resolveRule number (operators.binaryRule name) = .ok (g.binary t) := by
  simp [Definition.resolveRule, Definition.resolveLeft, Definition.resolveSymbol,
    Definition.resolveBorrowed, binaryRule, recorded.phrase_named, found, Grammar.binary,
    recorded.start_eq, bind, Except.bind, pure, Except.pure]

theorem exists_production {rule : Rule} {production : Production}
    (member : rule ∈ operators.unitRule :: operators.names.map operators.binaryRule)
    (resolved : ∀ number, d.resolveRule number rule = .ok production) :
    ∃ p : ProductionId, g.productions[p]? = some production := by
  obtain ⟨place, here⟩ := List.mem_iff_getElem?.1 (recorded.rules.mem_iff.2 member)
  rw [Array.getElem?_toList] at here
  exact ⟨place + 1,
    (Definition.getElem?_productions recorded.finished).2 ⟨rule, here, resolved _⟩⟩

/-- Every production but the augmented one comes from a declared rule. -/
theorem of_production {p : ProductionId} {production : Production}
    (listed : g.productions[p]? = some production) (other : p ≠ acceptProduction) :
    (∃ t, d.names[operators.operand]? = some (.terminal t) ∧ production = g.unit t) ∨
      ∃ name ∈ operators.names, ∃ t, d.names[name]? = some (.terminal t) ∧
        production = g.binary t := by
  obtain ⟨place, rfl⟩ := Nat.exists_eq_succ_of_ne_zero other
  obtain ⟨rule, here, resolved⟩ :=
    (Definition.getElem?_productions recorded.finished).1 listed
  rw [← Array.getElem?_toList] at here
  have declared := recorded.rules.mem_iff.1 (List.mem_of_getElem? here)
  rcases List.mem_cons.1 declared with rfl | binary
  · obtain ⟨t, found⟩ := recorded.exists_terminal (List.mem_cons_self ..)
    rw [recorded.resolve_unit found] at resolved
    exact .inl ⟨t, found, (Except.ok.inj resolved).symm⟩
  · obtain ⟨name, member, rfl⟩ := List.mem_map.1 binary
    obtain ⟨t, found⟩ := recorded.exists_terminal (List.mem_cons_of_mem _ member)
    rw [recorded.resolve_binary found] at resolved
    exact .inr ⟨name, member, t, found, (Except.ok.inj resolved).symm⟩

theorem isOperator_iff :
    g.IsOperator t ↔ ∃ name ∈ operators.names, d.names[name]? = some (.terminal t) := by
  constructor
  · rintro ⟨p, listed⟩
    have other : p ≠ acceptProduction := by
      rintro rfl
      rw [recorded.wellFormed.augmented] at listed
      have left := congrArg Production.left (Option.some.inj listed)
      exact recorded.wellFormed.start.1 left.symm
    rcases recorded.of_production listed other with ⟨u, _, same⟩ | ⟨name, member, u, found, same⟩
    · simp [Grammar.binary, Grammar.unit] at same
    · have equal : t = u := by simpa [Grammar.binary] using same
      exact ⟨name, member, equal ▸ found⟩
  · rintro ⟨name, member, found⟩
    exact recorded.exists_production (List.mem_cons_of_mem _ (List.mem_map_of_mem member))
      (recorded.resolve_binary found)

/-- A terminal has the precedence that is declared for its name. -/
theorem terminalPrecedence_eq (found : d.names[name]? = some (.terminal t)) :
    g.terminalPrecedence t = operators.precedence? name := by
  have here := (recorded.consistent.terminals.listed.1 found).2
  rw [Grammar.terminalPrecedence, Definition.getElem?_terminals recorded.finished, here,
    recorded.precedences]
  exact lookup_leveled operators name

theorem terminalName_eq (found : d.names[name]? = some (.terminal t)) : g.terminalName t = name := by
  have here := (recorded.consistent.terminals.listed.1 found).2
  rw [Grammar.terminalName, Definition.getElem?_terminals recorded.finished, here]
  rfl

theorem terminalNamed?_eq (found : d.names[name]? = some (.terminal t)) :
    g.terminalNamed? name = some t := by
  have here := (recorded.consistent.terminals.listed.1 found).2
  have listed := Definition.getElem?_terminals recorded.finished t
  rw [here] at listed
  exact recorded.lawful.terminalNamed listed

/-- The grammar is that of the expressions with the declared operators. -/
theorem expressions (found : d.names[operators.operand]? = some (.terminal t)) :
    g.Expressions t where
  wellFormed := recorded.wellFormed
  production := by
    intro p production listed other
    rcases recorded.of_production listed other with ⟨u, found', rfl⟩ | ⟨_, _, u, _, rfl⟩
    · rw [found] at found'
      cases found'
      exact .inl rfl
    · exact .inr ⟨u, rfl⟩
  unit := recorded.exists_production (List.mem_cons_self ..) (recorded.resolve_unit found)
  distinct listed listed' := recorded.lawful.distinct listed listed' rfl rfl
  apart := by
    rw [recorded.isOperator_iff]
    rintro ⟨name, member, found'⟩
    rw [recorded.consistent.name_unique found' found] at member
    exact (List.nodup_cons.1 recorded.nodup).1 member
  ranked := by
    intro u operator
    obtain ⟨name, member, found'⟩ := recorded.isOperator_iff.1 operator
    rw [recorded.terminalPrecedence_eq found', ← Option.ne_none_iff_exists', Ne,
      precedence?_eq_none, not_not]
    exact member
  unranked := by
    rw [recorded.terminalPrecedence_eq found, precedence?_eq_none]
    exact (List.nodup_cons.1 recorded.nodup).1
  associativity := by
    rintro u v ⟨level, associativity⟩ ⟨level', associativity'⟩ ranked ranked' same
    have groups := recorded.lawful.associativity ranked ranked' same
    dsimp only at same groups
    rw [same, groups]

/-- What the grammar says about precedences is what is declared. -/
theorem rank_eq : g.rank = operators.rank g := by
  funext symbol
  cases symbol with
  | nonterminal n => rfl
  | terminal t =>
      change g.terminalPrecedence t = operators.precedence? (g.terminalName t)
      rw [Grammar.terminalPrecedence, Grammar.terminalName,
        Definition.getElem?_terminals recorded.finished, recorded.precedences]
      cases d.terminals[t]? with
      | some name => exact lookup_leveled operators name
      | none =>
          -- no operator has the empty name that stands for a missing terminal
          symm
          apply precedence?_eq_none.2
          intro member
          obtain ⟨t, found⟩ := recorded.exists_terminal (List.mem_cons_of_mem _ member)
          exact (recorded.consistent.user found).nonempty rfl

/-! ## Sentences -/

/-- The tokens of a sentence are an operand with operators and operands behind it. -/
theorem alternating (found : d.names[operators.operand]? = some (.terminal t)) {names : List String}
    (operates : ∀ name ∈ names, name ∈ operators.names) {tokens : List (Parser.Token Symbol)}
    (spelled : Spells g (operators.sentence names) tokens) :
    ∃ token rest, tokens = token :: rest ∧ token.symbol = .terminal t ∧
      g.Alternating t rest := by
  induction names generalizing tokens with
  | nil =>
      obtain ⟨token, rest, rfl, symbol, none⟩ := List.map_eq_cons_iff.1 spelled
      simp only [recorded.terminalNamed?_eq found, Option.map_some, Option.some.injEq] at symbol
      rw [List.flatMap_nil, List.map_nil, List.map_eq_nil_iff] at none
      subst none
      exact ⟨token, [], rfl, symbol, .nil⟩
  | cons name names ih =>
      obtain ⟨token, rest, rfl, symbol, further⟩ := List.map_eq_cons_iff.1 spelled
      obtain ⟨operator, rest, rfl, symbol', last⟩ := List.map_eq_cons_iff.1 further
      obtain ⟨following, rest, rfl, symbol'', alternating⟩ :=
        ih (fun name member => operates name (List.mem_cons_of_mem _ member)) last
      have member := operates name (List.mem_cons_self ..)
      obtain ⟨u, named⟩ := recorded.exists_terminal (List.mem_cons_of_mem _ member)
      simp only [recorded.terminalNamed?_eq found, Option.map_some, Option.some.injEq] at symbol
      simp only [recorded.terminalNamed?_eq named, Option.map_some, Option.some.injEq] at symbol'
      exact ⟨token, _, rfl, symbol,
        .cons symbol' (recorded.isOperator_iff.2 ⟨name, member, named⟩) symbol'' alternating⟩

/-! ## Pairs of operators -/

variable {defaultReductions : Bool} {conflict : Conflict} {first second : String}

theorem operators?_eq {u : TerminalId} (found : d.names[first]? = some (.terminal t))
    (found' : d.names[second]? = some (.terminal u)) (reduced : conflict.reducedOperator? g = some t)
    (look : conflict.lookahead = u) : conflict.operators? g = some (first, second) := by
  rw [Conflict.operators?, reduced, look, Option.map_some, recorded.terminalName_eq found,
    recorded.terminalName_eq found']

/-- What a conflict decides between, by the names of the operators. -/
theorem of_conflict (member : conflict ∈ (g.generate defaultReductions).table.conflicts) :
    conflict.kind = .shiftReduce ∧ ∃ first ∈ operators.names, ∃ second ∈ operators.names,
      conflict.operators? g = some (first, second) ∧
      d.names[first]? = (conflict.reducedOperator? g).map .terminal ∧
      d.names[second]? = some (.terminal conflict.lookahead) ∧
      (conflict.isUnresolved = true ↔ ∃ level,
        operators.precedence? first = some ⟨level, .nonassoc⟩ ∧
          operators.precedence? second = some ⟨level, .nonassoc⟩) := by
  obtain ⟨operand, named⟩ := recorded.exists_terminal (List.mem_cons_self ..)
  obtain ⟨kind, t, below, above, operator, further, reduced, ranked, ranked', unresolved⟩ :=
    (recorded.expressions named).isUnresolved_iff member
  obtain ⟨first, member, found⟩ := recorded.isOperator_iff.1 operator
  obtain ⟨second, member', found'⟩ := recorded.isOperator_iff.1 further
  refine ⟨kind, first, member, second, member', recorded.operators?_eq found found' reduced rfl,
    by rw [reduced, found, Option.map_some], found', ?_⟩
  rw [unresolved, ← recorded.terminalPrecedence_eq found, ← recorded.terminalPrecedence_eq found',
    ranked, ranked']
  constructor
  · rintro ⟨rfl, free⟩
    exact ⟨above.level, by rw [← free], by rw [← free]⟩
  · rintro ⟨level, same, same'⟩
    cases same
    cases same'
    exact ⟨rfl, rfl⟩

/-- Every two operators have one conflict. -/
theorem conflicts_perm (defaultReductions : Bool) :
    ((g.generate defaultReductions).table.conflicts.map (·.operators? g)).Perm
      ((operators.names ×ˢ operators.names).map some) := by
  obtain ⟨operand, named⟩ := recorded.exists_terminal (List.mem_cons_self ..)
  have expressions := recorded.expressions named
  have once := (List.nodup_cons.1 recorded.nodup).2
  have apart : ((g.generate defaultReductions).table.conflicts.map (·.operators? g)).Nodup := by
    have pairs := List.pairwise_map.1 (@expressions.nodup_conflicts _ _ defaultReductions)
    refine List.pairwise_map.2 (pairs.imp_of_mem ?_)
    intro conflict conflict' member member' different same
    obtain ⟨-, first, -, second, -, decided, found, look, -⟩ := recorded.of_conflict member
    obtain ⟨-, first', -, second', -, decided', found', look', -⟩ := recorded.of_conflict member'
    rw [decided, decided', Option.some.injEq, Prod.mk.injEq] at same
    rw [same.1, found'] at found
    rw [same.2, look', Option.some.injEq, Symbol.terminal.injEq] at look
    have reduced := Option.map_injective (fun _ _ => Symbol.terminal.inj) found
    exact different (Prod.ext reduced.symm look.symm)
  refine (List.perm_ext_iff_of_nodup apart
    ((once.product once).map (Option.some_injective _))).2 fun pair => ?_
  constructor
  · intro listed
    obtain ⟨conflict, member, rfl⟩ := List.mem_map.1 listed
    obtain ⟨-, first, member', second, member'', decided, -⟩ := recorded.of_conflict member
    rw [decided]
    exact List.mem_map_of_mem (List.mem_product.2 ⟨member', member''⟩)
  · intro listed
    obtain ⟨⟨first, second⟩, member, rfl⟩ := List.mem_map.1 listed
    obtain ⟨member', member''⟩ := List.mem_product.1 member
    obtain ⟨t, found⟩ := recorded.exists_terminal (List.mem_cons_of_mem _ member')
    obtain ⟨u, found'⟩ := recorded.exists_terminal (List.mem_cons_of_mem _ member'')
    obtain ⟨conflict, listed, reduced, look⟩ := expressions.exists_conflict defaultReductions
      (recorded.isOperator_iff.2 ⟨first, member', found⟩)
      (recorded.isOperator_iff.2 ⟨second, member'', found'⟩)
    exact List.mem_map.2 ⟨conflict, listed, recorded.operators?_eq found found' reduced look⟩

end Recorded

end Operators

/-- Whenever operators in precedence groups define a grammar, in whichever order their rules come, a
parser reads every sentence and builds one tree of it, in which the operator to the left below
another one has a higher level or the same level grouping to the left, and the one to the right a
higher level or the same level not grouping to the left.  Every two operators have one conflict; it is
left open if they are of one level without associativity. -/
theorem precedence_shapes_trees {operators : Operators} {calls : List Call}
    (declares : operators.Declares calls) {g : Grammar} (defined : Grammar.define calls = .ok g)
    (defaultReductions : Bool) :
    (∀ name ∈ operators.operand :: operators.names, ∃ t, g.terminalNamed? name = some t) ∧
    (∀ names, (∀ name ∈ names, name ∈ operators.names) →
      ∀ tokens, Operators.Spells g (operators.sentence names) tokens →
        ∃ count results argument machine input tree,
          g.parse defaultReductions tokens count =
            (results ++ [.ok (.accept argument)], machine, input) ∧
          (∀ result ∈ results, ∃ p arguments, result = .ok (.reduce p arguments)) ∧
          Tree.build results = [tree] ∧ tree.Grouped (operators.rank g) ∧ tree.leaves = tokens) ∧
    ((g.generate defaultReductions).table.conflicts.map (·.operators? g)).Perm
      ((operators.names ×ˢ operators.names).map some) ∧
    ∀ conflict ∈ (g.generate defaultReductions).table.conflicts, conflict.kind = .shiftReduce ∧
      ∀ first second, conflict.operators? g = some (first, second) →
        (conflict.isUnresolved = true ↔ ∃ level,
          operators.precedence? first = some ⟨level, .nonassoc⟩ ∧
            operators.precedence? second = some ⟨level, .nonassoc⟩) := by
  obtain ⟨d, recorded⟩ := declares.exists_recorded defined
  refine ⟨?_, ?_, recorded.conflicts_perm defaultReductions, ?_⟩
  · intro name member
    obtain ⟨t, found⟩ := recorded.exists_terminal member
    exact ⟨t, recorded.terminalNamed?_eq found⟩
  · intro names operates tokens spelled
    obtain ⟨operand, named⟩ := recorded.exists_terminal (List.mem_cons_self ..)
    obtain ⟨token, rest, rfl, symbol, alternating⟩ := recorded.alternating named operates spelled
    rw [← recorded.rank_eq]
    exact (recorded.expressions named).exists_tree symbol alternating
  · intro conflict member
    obtain ⟨kind, first, -, second, -, decided, -, -, unresolved⟩ := recorded.of_conflict member
    refine ⟨kind, fun first' second' same => ?_⟩
    rw [decided, Option.some.injEq, Prod.mk.injEq] at same
    obtain ⟨rfl, rfl⟩ := same
    exact unresolved

/-- Sums and their comparisons, which have no associativity. -/
def Operators.comparisons : Operators where
  groups := [(.nonassoc, ["="]), (.left, ["+"])]
  operand := "id"
  phrase := "E"

def Grammar.comparisons : Grammar where
  terminals := #[⟨"$end", none, none⟩, ⟨"id", none, none⟩, ⟨"+", some ⟨1, .left⟩, none⟩,
    ⟨"=", some ⟨0, .nonassoc⟩, none⟩]
  nonterminals := #[⟨"$start", none⟩, ⟨"E", none⟩]
  productions := #[
    ⟨startNonterminal, #[.nonterminal 1, .terminal endTerminal], none⟩,
    ⟨1, #[.nonterminal 1, .terminal 2, .nonterminal 1], none⟩,
    ⟨1, #[.terminal 1], none⟩,
    ⟨1, #[.nonterminal 1, .terminal 3, .nonterminal 1], none⟩]
  start := 1
  groups := #[[acceptProduction], [1, 2, 3]]

theorem precedence_shapes_trees_comparisons :
    ((Grammar.comparisons.generate true).table.conflicts.map (·.operators? .comparisons)).Perm
      [some ("=", "="), some ("=", "+"), some ("+", "="), some ("+", "+")] ∧
    ∃ count results argument machine input tree,
      Grammar.comparisons.parse true [⟨.terminal 1, "id"⟩, ⟨.terminal 3, "="⟩, ⟨.terminal 1, "id"⟩,
          ⟨.terminal 2, "+"⟩, ⟨.terminal 1, "id"⟩] count =
        (results ++ [.ok (.accept argument)], machine, input) ∧
      Tree.build results = [tree] ∧
      tree.Grouped (Operators.comparisons.rank .comparisons) := by
  have declares : Operators.comparisons.Declares
      [.precedence .nonassoc ["="], .terminal "id", .nonterminal "E", .terminal "+",
        .rule "E" ["E", "+", "E"] none, .terminal "=", .precedence .left ["+"],
        .rule "E" ["id"] none, .rule "E" ["E", "=", "E"] none] :=
    ⟨by decide, by decide, by decide⟩
  obtain ⟨-, trees, conflicts, -⟩ := @precedence_shapes_trees _ _ declares .comparisons
    (by decide +kernel) true
  obtain ⟨count, results, argument, machine, input, tree, ran, -, built, grouped, -⟩ :=
    trees ["=", "+"] (by decide) [⟨.terminal 1, "id"⟩, ⟨.terminal 3, "="⟩, ⟨.terminal 1, "id"⟩,
      ⟨.terminal 2, "+"⟩, ⟨.terminal 1, "id"⟩] (by decide +kernel)
  exact ⟨conflicts, count, results, argument, machine, input, tree, ran, built, grouped⟩

end Lalr
