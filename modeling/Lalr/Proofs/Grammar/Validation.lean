import Lalr.Proofs.Grammar.Faults
import Lalr.Proofs.Grammar.Numbers

/-!
# Definitions are checked, and kept

When all calls succeed, the definition ends in a grammar just if what the calls say is complete, and
otherwise in the first of its faults.

The grammar then has what the calls have declared, under the numbers with which they have answered.
A symbol is found by its name, with the precedence and the value type that were declared for it.  A
production reads like its rule.  It has the precedence of the terminal that the rule borrows from,
whether or not that one has any, and otherwise of the last terminal on its right-hand side.
-/

namespace Lalr

namespace Contents

/-- The name is in the group that makes up the level. -/
def Levels (c : Contents) (name : String) (precedence : Precedence) : Prop :=
  ∃ names, c.groups[precedence.level]? = some (precedence.associativity, names) ∧ name ∈ names

/-- The terminal whose precedence a rule has. -/
def decisive? (c : Contents) (rule : Rule) : Option String :=
  rule.borrowed.or (rule.right.filter (· ∈ c.terminals)).getLast?

/-- The name of the start symbol. -/
def startName? (c : Contents) : Option String := c.starts.getLast?.or c.nonterminals.head?

/-- What the call says stands at a place among what calls of its kind say. -/
def Lists (c : Contents) (place : Nat) : Call → Prop
  | .terminal name => c.terminals[place]? = some name
  | .nonterminal name => c.nonterminals[place]? = some name
  | .precedence associativity names => c.groups[place]? = some (associativity, names)
  | .valueType symbol tag => c.valueTypes[place]? = some (symbol, tag)
  | .rule left right borrowed => c.rules[place]? = some ⟨left, right, borrowed⟩
  | .start name => c.starts[place]? = some name

variable {c : Contents} {place : Nat} {call : Call}

theorem lists_add (next : Call) : (c.add next).Lists (c.count next.kind) next := by
  cases next <;> simp [Lists, add, count, Call.kind]

theorem getElem?_concat_of_getElem? {α : Type} {entries : List α} {entry : α}
    (here : entries[place]? = some entry) (last : α) : (entries ++ [last])[place]? = some entry := by
  rwa [List.getElem?_append_left (List.getElem?_eq_some_iff.1 here).1]

theorem Lists.add (lists : c.Lists place call) (next : Call) : (c.add next).Lists place call := by
  cases next <;> cases call <;>
    first
      | exact lists
      | exact getElem?_concat_of_getElem? lists _

end Contents

namespace Definition

theorem mem_leveled {groups : List (Associativity × List String)} {name : String}
    {precedence : Precedence} : (name, precedence) ∈ leveled groups ↔
      ∃ names, groups[precedence.level]? = some (precedence.associativity, names) ∧
        name ∈ names := by
  rw [leveled, List.mem_flatMap]
  constructor
  · rintro ⟨⟨⟨associativity, names⟩, level⟩, listed, member⟩
    obtain ⟨_, named, same⟩ := List.mem_map.1 member
    cases same
    exact ⟨names, List.mem_zipIdx_iff_getElem?.1 listed, named⟩
  · rintro ⟨names, listed, named⟩
    exact ⟨((precedence.associativity, names), precedence.level),
      List.mem_zipIdx_iff_getElem?.2 listed, List.mem_map.2 ⟨name, named, rfl⟩⟩

variable {d : Definition} {g : Grammar} {calls : List Call}

section Recorded

variable (records : d.Records calls)

include records

theorem lookup_precedences_eq_some (compatible : (Call.contents calls).Compatible) {name : String}
    {precedence : Precedence} : d.precedences.lookup name = some precedence ↔
      (Call.contents calls).Levels name precedence := by
  have once : (d.precedences.map (·.1)).Nodup := records.leveledNames ▸ compatible.leveled
  refine Iff.trans ⟨mem_of_lookup, lookup_of_mem once⟩ ?_
  rw [records.precedences]
  exact mem_leveled

theorem lookup_valueTypes_eq_some (compatible : (Call.contents calls).Compatible)
    {name tag : String} : d.valueTypes.lookup name = some tag ↔
      (name, tag) ∈ (Call.contents calls).valueTypes := by
  have once : (d.valueTypes.map (·.1)).Nodup := records.typedNames ▸ compatible.typed
  refine Iff.trans ⟨mem_of_lookup, lookup_of_mem once⟩ ?_
  rw [records.valueTypes]
  rfl

end Recorded

section Finished

variable (consistent : d.Consistent) (records : d.Records calls) (finished : d.finish = .ok g)

include consistent finished

theorem terminalPrecedence_eq_lookup {name : String} {t : TerminalId}
    (found : d.names[name]? = some (.terminal t)) :
    g.terminalPrecedence t = d.precedences.lookup name := by
  have here := (consistent.terminals.listed.1 found).2
  rw [Grammar.terminalPrecedence, getElem?_terminals finished, here]
  rfl

include records

/-- The first terminal among symbols has the precedence of the first name of a terminal. -/
theorem findSome?_terminal {names : List String} {symbols : List Symbol}
    (found : List.Forall₂ (fun name symbol => d.names[name]? = some symbol) names symbols) :
    (symbols.findSome? fun
        | .terminal t => some t
        | .nonterminal _ => none).bind g.terminalPrecedence =
      (names.find? (· ∈ (Call.contents calls).terminals)).bind
        fun name => d.precedences.lookup name := by
  induction found with
  | nil => rfl
  | @cons name symbol names symbols first _ ih =>
      have known := known consistent records name
      rw [first] at known
      rw [List.findSome?_cons, List.find?_cons]
      cases known with
      | terminal declared _ =>
          simp [declared, terminalPrecedence_eq_lookup consistent finished first]
      | nonterminal _ apart => simpa [apart] using ih

theorem precedenceOf_eq {number : ProductionId} {rule : Rule} {production : Production}
    (resolved : d.resolveRule number rule = .ok production) :
    g.precedenceOf production =
      ((Call.contents calls).decisive? rule).bind fun name => d.precedences.lookup name := by
  have borrowed := (resolveRule_eq_ok_iff.1 resolved).2.2
  rw [Grammar.precedenceOf, Contents.decisive?]
  cases named : rule.borrowed with
  | none =>
      rw [named, Definition.resolveBorrowed, Except.ok.injEq] at borrowed
      rw [← borrowed, Option.none_or, List.getLast?_filter]
      exact findSome?_terminal consistent records finished
        (List.forall₂_reverse_iff.2 (resolveRule_ok resolved).2)
  | some name =>
      rw [named, Definition.resolveBorrowed] at borrowed
      split at borrowed
      · rw [Except.ok.injEq] at borrowed
        rw [← borrowed]
        rfl
      · cases borrowed

theorem startName?_eq : (Call.contents calls).startName? = some (g.nonterminalName g.start) := by
  obtain ⟨_, started, _⟩ := finish_ok finished
  have named : ∀ {name : String} {n : NonterminalId}, d.names[name]? = some (.nonterminal n) →
      g.nonterminalName n = name := fun found => symbolName_eq consistent finished found
  unfold resolveStart at started
  rw [Contents.startName?]
  change ((calls.filterMap Call.start?).getLast?.or _) = _
  rw [← records.start]
  split at started
  · next name last =>
      split at started
      · next n found =>
          cases started
          rw [last, Option.some_or, named found]
      · cases started
  · next last =>
      split at started
      · next enough =>
          rw [← Except.ok.inj started, last, Option.none_or, List.head?_eq_getElem?,
            ← records.nonterminals_succ,
            Array.getElem?_eq_getElem enough, Grammar.nonterminalName,
            getElem?_nonterminals finished, Array.getElem?_eq_getElem enough]
          rfl
      · cases started

end Finished

end Definition

namespace Grammar

/-- What a call says is listed at the place by which its answer is numbered. -/
theorem exists_place_of_answered {calls : List Call}
    (compatible : (Call.contents calls).Compatible) {call : Call} {answer : Answer}
    (member : (call, answer) ∈ answered calls) :
    ∃ place, answer = .ok (call.kind.number? place) ∧ (Call.contents calls).Lists place call := by
  induction calls using List.reverseRecOn with
  | nil => cases member
  | append_singleton front last ih =>
      rw [Call.contents_concat, Contents.compatible_add] at compatible
      obtain ⟨earlier, admits⟩ := compatible
      rw [answered_concat] at member
      rw [Call.contents_concat]
      rcases List.mem_append.1 member with old | new
      · obtain ⟨place, numbered, lists⟩ := ih earlier old
        exact ⟨place, numbered, lists.add last⟩
      · cases List.mem_singleton.1 new
        exact ⟨_, ((Definition.consistent_empty.after front).call_ok_iff
          ((Definition.all_ok_iff front).2 earlier)).2 ⟨admits, rfl⟩, Contents.lists_add call⟩

/-- The grammar has what the calls declare under the numbers with which they have answered, and it has
nothing else. -/
structure Renders (g : Grammar) (calls : List Call) : Prop where
  terminal : ∀ {name : String} {answer : Answer}, (Call.terminal name, answer) ∈ answered calls →
    ∃ t terminal, answer = .ok (some t) ∧ t ≠ endTerminal ∧ g.terminals[t]? = some terminal ∧
      terminal.name = name ∧ g.terminalNamed? name = some t ∧
      (∀ precedence, terminal.precedence = some precedence ↔
        (Call.contents calls).Levels name precedence) ∧
      ∀ tag, terminal.valueType = some tag ↔ (name, tag) ∈ (Call.contents calls).valueTypes
  nonterminal : ∀ {name : String} {answer : Answer},
    (Call.nonterminal name, answer) ∈ answered calls →
    ∃ n nonterminal, answer = .ok (some n) ∧ n ≠ startNonterminal ∧
      g.nonterminals[n]? = some nonterminal ∧ nonterminal.name = name ∧
      g.nonterminalNamed? name = some n ∧
      ∀ tag, nonterminal.valueType = some tag ↔ (name, tag) ∈ (Call.contents calls).valueTypes
  production : ∀ {left : String} {right : List String} {borrowed : Option String} {answer : Answer},
    (Call.rule left right borrowed, answer) ∈ answered calls →
    ∃ p production, answer = .ok (some p) ∧ p ≠ acceptProduction ∧
      g.productions[p]? = some production ∧ g.nonterminalName production.left = left ∧
      production.right.toList.map g.symbolName = right ∧
      ∀ precedence, g.productionPrecedence p = some precedence ↔
        ∃ name, (Call.contents calls).decisive? ⟨left, right, borrowed⟩ = some name ∧
          (Call.contents calls).Levels name precedence
  start : (Call.contents calls).startName? = some (g.nonterminalName g.start)
  terminalCount : g.terminals.size = (Call.contents calls).terminals.length + 1
  nonterminalCount : g.nonterminals.size = (Call.contents calls).nonterminals.length + 1
  productionCount : g.productions.size = (Call.contents calls).rules.length + 1

theorem renders_of_finish {calls : List Call} {d : Definition} {g : Grammar}
    (compatible : (Call.contents calls).Compatible) (consistent : d.Consistent)
    (records : d.Records calls) (lawful : g.Lawful) (finished : d.finish = .ok g) :
    g.Renders calls where
  terminal member := by
    obtain ⟨place, numbered, lists⟩ := exists_place_of_answered compatible member
    have here := Definition.getElem?_terminals finished (place + 1)
    rw [records.terminals_succ, lists] at here
    exact ⟨place + 1, _, numbered, Nat.succ_ne_zero place, here, rfl, lawful.terminalNamed here,
      fun _ => Definition.lookup_precedences_eq_some records compatible,
      fun _ => Definition.lookup_valueTypes_eq_some records compatible⟩
  nonterminal member := by
    obtain ⟨place, numbered, lists⟩ := exists_place_of_answered compatible member
    have here := Definition.getElem?_nonterminals finished (place + 1)
    rw [records.nonterminals_succ, lists] at here
    exact ⟨place + 1, _, numbered, Nat.succ_ne_zero place, here, rfl, lawful.nonterminalNamed here,
      fun _ => Definition.lookup_valueTypes_eq_some records compatible⟩
  production member := by
    obtain ⟨place, numbered, lists⟩ := exists_place_of_answered compatible member
    have inside : place + 1 < g.productions.size := by
      rw [Definition.size_productions finished, records.size_rules]
      exact Nat.succ_lt_succ (List.getElem?_eq_some_iff.1 lists).1
    have here := Array.getElem?_eq_getElem inside
    obtain ⟨rule, ruled, resolved⟩ := (Definition.getElem?_productions finished).1 here
    rw [← Array.getElem?_toList, records.rules] at ruled
    cases ruled.symm.trans lists
    obtain ⟨left, right⟩ := Definition.resolveRule_ok resolved
    refine ⟨place + 1, _, numbered, Nat.succ_ne_zero place, here,
      Definition.symbolName_eq consistent finished left,
      Definition.symbolNames_eq consistent finished right, fun precedence => ?_⟩
    rw [productionPrecedence, here, Option.bind_some,
      Definition.precedenceOf_eq consistent records finished resolved, Option.bind_eq_some_iff]
    simp only [Definition.lookup_precedences_eq_some records compatible]
  start := Definition.startName?_eq consistent records finished
  terminalCount := by
    rw [← Array.length_toList, ← List.length_map, Definition.terminalNames finished,
      records.terminals]
    rfl
  nonterminalCount := by
    rw [← Array.length_toList, ← List.length_map, Definition.nonterminalNames finished,
      records.nonterminals]
    rfl
  productionCount := by
    rw [Definition.size_productions finished, records.size_rules]

end Grammar

/-- Calls that succeed define a grammar just if what they say is complete, and otherwise end in the
first fault.  The grammar has what they declare, under the numbers with which they have answered. -/
theorem definitions_are_checked_and_kept {calls : List Call}
    (succeeded : ∀ answer ∈ (Grammar.defineLeniently calls).1, ∃ number, answer = .ok number) :
    ((∃ g, Grammar.define calls = .ok g) ↔ (Call.contents calls).Complete) ∧
      (∀ fault, Grammar.define calls = .error fault ↔
        (Call.contents calls).faults.head? = some fault) ∧
      ∀ g, Grammar.define calls = .ok g → g.Renders calls := by
  have compatible := (Definition.all_ok_iff calls).1.1 succeeded
  have records := (Definition.all_ok_iff calls).2 compatible
  have consistent := Definition.consistent_empty.after calls
  have ended := Definition.faultOf_finish consistent records
  rw [← Grammar.define_of_compatible compatible] at ended
  refine ⟨?_, fun fault => ?_, fun g defined => ?_⟩
  · rw [← faultOf_eq_none, ended, List.head?_eq_none_iff, Contents.complete_iff]
  · rw [← faultOf_eq_some, ended]
  · have lawful := (Grammar.isDefined_of_define defined).lawful
    rw [Grammar.define_of_compatible compatible] at defined
    exact Grammar.renders_of_finish compatible consistent records lawful defined

/-- Differences and negations, which borrow the precedence of a terminal of their own. -/
def Grammar.negationCalls : List Call := [
  .terminal "-", .terminal "NUM", .terminal "NEG", .nonterminal "E", .precedence .left ["-"],
  .precedence .right ["NEG"], .valueType "NUM" "i64", .rule "E" ["E", "-", "E"] none,
  .rule "E" ["-", "E"] (some "NEG"), .rule "E" ["NUM"] none]

/-- The second rule takes the precedence that it borrows and not that of its last terminal.  A further
rule is refused for the first of three faults. -/
theorem definitions_are_checked_and_kept_negation :
    (∃ g, Grammar.define Grammar.negationCalls = .ok g ∧
      g.productionPrecedence 2 = some ⟨1, .right⟩) ∧
    Grammar.define (Grammar.negationCalls ++ [.rule "E" ["(", "E", ")"] (some "E")]) =
      .error (.undeclaredSymbol "(" 4) := by
  have answers : (Grammar.defineLeniently Grammar.negationCalls).1 = [.ok (some 1), .ok (some 2),
      .ok (some 3), .ok (some 1), .ok none, .ok none, .ok none, .ok (some 1), .ok (some 2),
      .ok (some 3)] := by
    decide +kernel
  have answers' : (Grammar.defineLeniently
      (Grammar.negationCalls ++ [.rule "E" ["(", "E", ")"] (some "E")])).1 = [.ok (some 1),
      .ok (some 2), .ok (some 3), .ok (some 1), .ok none, .ok none, .ok none, .ok (some 1),
      .ok (some 2), .ok (some 3), .ok (some 4)] := by
    decide +kernel
  obtain ⟨complete, _, renders⟩ :=
    @definitions_are_checked_and_kept Grammar.negationCalls (by simp [answers])
  constructor
  · obtain ⟨g, defined⟩ := complete.2 (Contents.complete_iff.2 (by decide +kernel))
    have member : (Call.rule "E" ["-", "E"] (some "NEG"), .ok (some 2)) ∈
        Grammar.answered Grammar.negationCalls := by
      rw [Grammar.answered, answers]
      decide
    obtain ⟨p, production, same, _, _, _, _, precedence⟩ := (renders g defined).production member
    cases same
    exact ⟨g, defined, (precedence ⟨1, .right⟩).2 ⟨"NEG", rfl, ["NEG"], rfl, by simp⟩⟩
  · exact ((definitions_are_checked_and_kept (by simp [answers'])).2.1 _).2 (by decide +kernel)

end Lalr
