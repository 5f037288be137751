import Lalr.Grammar.Definition
import Mathlib.Data.List.Forall2

/-!
# Well-formed grammars

Every later phase relies on the shape of the grammar that it is given: place zero of each array is
reserved, right-hand sides hold declared symbols only, and the productions are grouped by their
left-hand sides.  This file shows that whatever a sequence of calls defines has this shape.

The calls are followed by one invariant, which says that names refer to symbols that have been
declared.  All else is decided when the definition ends.
-/

namespace Lalr

theorem mem_of_lookup {α β : Type} [BEq α] [LawfulBEq α] {entries : List (α × β)} {key : α}
    {value : β} (found : entries.lookup key = some value) : (key, value) ∈ entries := by
  obtain ⟨before, after, rfl, _⟩ := List.lookup_eq_some_iff.1 found
  simp

theorem lookup_of_mem {α β : Type} [BEq α] [LawfulBEq α] {entries : List (α × β)} {key : α}
    {value : β} (once : (entries.map (·.1)).Nodup) (member : (key, value) ∈ entries) :
    entries.lookup key = some value := by
  induction entries with
  | nil => simp at member
  | cons head tail ih =>
      obtain ⟨first, found⟩ := head
      rw [List.map_cons, List.nodup_cons] at once
      rw [List.lookup_cons]
      rcases List.mem_cons.1 member with same | later
      · cases same
        simp
      · have different : key ≠ first := by
          rintro rfl
          exact once.1 (List.mem_map.2 ⟨_, later, rfl⟩)
        rw [beq_false_of_ne different]
        exact ih once.2 later

namespace Grammar

/-- Some sequence of calls defines the grammar, failed calls being passed over. -/
def IsDefined (g : Grammar) : Prop := ∃ calls, (defineLeniently calls).2 = .ok g

/-- The symbol is one that a definition has declared, and not a reserved one. -/
def Declares (g : Grammar) : Symbol → Prop
  | .terminal t => t ≠ endTerminal ∧ t < g.terminals.size
  | .nonterminal n => n ≠ startNonterminal ∧ n < g.nonterminals.size

/-- The shape of a grammar on which all later phases rely. -/
structure WellFormed (g : Grammar) : Prop where
  augmented : g.productions[acceptProduction]? = some (Definition.augmented g.start)
  ending : endTerminal < g.terminals.size
  start : g.Declares (.nonterminal g.start)
  left : ∀ {p production}, g.productions[p]? = some production → p ≠ acceptProduction →
    g.Declares (.nonterminal production.left)
  right : ∀ {p production}, g.productions[p]? = some production → p ≠ acceptProduction →
    ∀ symbol ∈ production.right.toList, g.Declares symbol
  alternatives : ∀ {n p}, p ∈ g.alternatives n ↔
    ∃ production, g.productions[p]? = some production ∧ production.left = n
  inhabited : ∀ n < g.nonterminals.size, g.alternatives n ≠ []

end Grammar

namespace Definition

/-- What is declared after further calls, failed ones being passed over. -/
def after (d : Definition) (calls : List Call) : Definition :=
  calls.foldl (fun d call => (d.call call).2) d

/-- Names refer to declared symbols, and the reserved symbols are there. -/
structure NamesDeclared (d : Definition) : Prop where
  terminals : 0 < d.terminals.size
  nonterminals : 0 < d.nonterminals.size
  terminal : ∀ {name : String} {t}, d.names[name]? = some (Symbol.terminal t) →
    t ≠ endTerminal ∧ t < d.terminals.size
  nonterminal : ∀ {name : String} {n}, d.names[name]? = some (Symbol.nonterminal n) →
    n ≠ startNonterminal ∧ n < d.nonterminals.size

theorem namesDeclared_empty : empty.NamesDeclared where
  terminals := by decide
  nonterminals := by decide
  terminal found := by simp [empty] at found
  nonterminal found := by simp [empty] at found

theorem namesDeclared_declareTerminal {d : Definition} (declared : d.NamesDeclared)
    (name : String) : (d.declareTerminal name).2.NamesDeclared := by
  unfold declareTerminal
  split
  · exact declared
  · dsimp only
    split
    · exact declared
    · refine ⟨by simp, declared.nonterminals, ?_, ?_⟩
      · intro other t found
        simp only [Std.TreeMap.getElem?_insert, Array.size_push] at found ⊢
        split at found
        · have same : d.terminals.size = t := by simpa using found
          rw [← same]
          exact ⟨Nat.ne_of_gt declared.terminals, Nat.lt_succ_self _⟩
        · exact ⟨(declared.terminal found).1, Nat.lt_succ_of_lt (declared.terminal found).2⟩
      · intro other n found
        simp only [Std.TreeMap.getElem?_insert] at found
        split at found
        · simp at found
        · exact declared.nonterminal found

theorem namesDeclared_declareNonterminal {d : Definition} (declared : d.NamesDeclared)
    (name : String) : (d.declareNonterminal name).2.NamesDeclared := by
  unfold declareNonterminal
  split
  · exact declared
  · dsimp only
    split
    · exact declared
    · refine ⟨declared.terminals, by simp, ?_, ?_⟩
      · intro other t found
        simp only [Std.TreeMap.getElem?_insert] at found
        split at found
        · simp at found
        · exact declared.terminal found
      · intro other n found
        simp only [Std.TreeMap.getElem?_insert, Array.size_push] at found ⊢
        split at found
        · have same : d.nonterminals.size = n := by simpa using found
          rw [← same]
          exact ⟨Nat.ne_of_gt declared.nonterminals, Nat.lt_succ_self _⟩
        · exact ⟨(declared.nonterminal found).1,
            Nat.lt_succ_of_lt (declared.nonterminal found).2⟩

theorem namesDeclared_call {d : Definition} (declared : d.NamesDeclared) (next : Call) :
    (d.call next).2.NamesDeclared := by
  cases next with
  | terminal name => exact namesDeclared_declareTerminal declared name
  | nonterminal name => exact namesDeclared_declareNonterminal declared name
  | precedence associativity names =>
      simp only [call, declarePrecedence]
      split
      · exact declared
      · exact ⟨declared.1, declared.2, declared.3, declared.4⟩
  | valueType symbol tag =>
      simp only [call, declareValueType]
      split
      · exact declared
      · exact ⟨declared.1, declared.2, declared.3, declared.4⟩
  | rule left right borrowed =>
      simp only [call, declareRule]
      split
      · exact declared
      · split
        · exact declared
        · split
          · exact declared
          · exact ⟨declared.1, declared.2, declared.3, declared.4⟩
  | start name => exact ⟨declared.1, declared.2, declared.3, declared.4⟩

theorem namesDeclared_after {d : Definition} (declared : d.NamesDeclared) (calls : List Call) :
    (d.after calls).NamesDeclared := by
  induction calls generalizing d with
  | nil => exact declared
  | cons next rest ih => exact ih (namesDeclared_call declared next)

theorem run_singleton (d : Definition) (next : Call) : d.run [next] = d.call next := rfl

theorem run_cons (d : Definition) (next : Call) (rest : List Call) (some_left : rest ≠ []) :
    d.run (next :: rest) = match d.call next with
      | (.ok _, d) => d.run rest
      | (.error fault, d) => (.error fault, d) := by
  cases rest with
  | nil => exact absurd rfl some_left
  | cons second others => rfl

theorem after_of_run_ok {d e : Definition} {calls : List Call} {number : Option Nat}
    (ran : d.run calls = (.ok number, e)) : e = d.after calls := by
  induction calls generalizing d with
  | nil =>
      cases ran
      rfl
  | cons next rest ih =>
      cases rest with
      | nil =>
          rw [run_singleton] at ran
          simp [after, ran]
      | cons second others =>
          rw [run_cons d next _ (by simp)] at ran
          cases called : d.call next with
          | mk answer f =>
              rw [called] at ran
              cases answer with
              | error fault => cases ran
              | ok number =>
                  have continued := ih ran
                  rw [continued]
                  simp [after, called]

theorem perform_singletons (d : Definition) (calls : List Call) :
    (perform true d (calls.map ([·]))).2 = .ok (d.after calls) := by
  induction calls generalizing d with
  | nil => rfl
  | cons next rest ih =>
      have continued : d.after (next :: rest) = (d.call next).2.after rest := rfl
      rw [continued, ← ih]
      simp only [List.map_cons, perform, run_singleton]
      cases d.call next with
      | mk answer e => cases answer <;> simp

theorem forall₂_of_mapM_ok {α β ε : Type} {resolve : α → Except ε β} {inputs : List α}
    {outputs : List β} (resolved : inputs.mapM resolve = .ok outputs) :
    List.Forall₂ (fun input output => resolve input = .ok output) inputs outputs := by
  induction inputs generalizing outputs with
  | nil =>
      cases resolved
      exact .nil
  | cons head tail ih =>
      rw [List.mapM_cons] at resolved
      cases first : resolve head with
      | error fault => simp [first, bind, Except.bind] at resolved
      | ok output =>
          cases others : tail.mapM resolve with
          | error fault => simp [first, others, bind, Except.bind] at resolved
          | ok rest =>
              simp only [first, others, bind, Except.bind, pure, Except.pure,
                Except.ok.injEq] at resolved
              rw [← resolved]
              exact .cons first (ih others)

theorem resolveRule_eq_ok_iff {d : Definition} {number : ProductionId} {rule : Rule} {production : Production} :
    d.resolveRule number rule = .ok production ↔
      d.resolveLeft number rule.left = .ok production.left ∧
        rule.right.mapM (d.resolveSymbol number) = .ok production.right.toList ∧
        d.resolveBorrowed rule.borrowed = .ok production.borrowed := by
  unfold resolveRule
  cases d.resolveLeft number rule.left with
  | error fault => simp [bind, Except.bind]
  | ok left =>
      cases rule.right.mapM (d.resolveSymbol number) with
      | error fault => simp [bind, Except.bind]
      | ok right =>
          cases d.resolveBorrowed rule.borrowed with
          | error fault => simp [bind, Except.bind]
          | ok borrowed =>
              cases production
              simp [bind, Except.bind, pure, Except.pure, ← Array.toList_inj]

theorem resolveRule_ok {d : Definition} {number : ProductionId} {rule : Rule}
    {production : Production} (resolved : d.resolveRule number rule = .ok production) :
    d.names[rule.left]? = some (.nonterminal production.left) ∧
      List.Forall₂ (fun name symbol => d.names[name]? = some symbol) rule.right
        production.right.toList := by
  obtain ⟨left, right, _⟩ := resolveRule_eq_ok_iff.1 resolved
  constructor
  · unfold resolveLeft at left
    split at left <;> simp_all
  · refine (forall₂_of_mapM_ok right).imp ?_
    intro name symbol found
    unfold resolveSymbol at found
    split at found <;> simp_all

private theorem grouped_fold (count : Nat) (entries : List (Production × ProductionId)) :
    let groups := entries.foldr (fun (production, p) groups => groups.modify production.left (p :: ·))
      (Array.replicate count [])
    groups.size = count ∧ ∀ n < count, groups[n]?.getD [] =
      (entries.filter fun (production, _) => production.left == n).map (·.2) := by
  induction entries with
  | nil =>
      refine ⟨by simp, ?_⟩
      intro n inside
      simp [inside]
  | cons entry rest ih =>
      obtain ⟨production, number⟩ := entry
      obtain ⟨size, members⟩ := ih
      refine ⟨by simpa using size, ?_⟩
      intro n inside
      have known := members n inside
      rw [← size] at inside
      rw [Array.getElem?_eq_getElem inside, Option.getD_some] at known
      rw [List.foldr_cons, Array.getElem?_modify, Array.getElem?_eq_getElem inside]
      by_cases here : production.left = n
      · simp [here, known]
      · simp [here, known]

/-- The numbers of a nonterminal's productions are grouped in the order of the productions. -/
theorem getD_groupByLeft {count : Nat} {productions : Array Production} {n : NonterminalId}
    (inside : n < count) : (groupByLeft count productions)[n]?.getD [] =
      (productions.toList.zipIdx.filter fun (production, _) => production.left == n).map (·.2) :=
  (grouped_fold count productions.toList.zipIdx).2 n inside

theorem size_groupByLeft (count : Nat) (productions : Array Production) :
    (groupByLeft count productions).size = count :=
  (grouped_fold count productions.toList.zipIdx).1

theorem mem_groupByLeft {count : Nat} {productions : Array Production} {n : NonterminalId}
    {p : ProductionId} :
    p ∈ (groupByLeft count productions)[n]?.getD [] ↔
      n < count ∧ ∃ production, productions[p]? = some production ∧ production.left = n := by
  by_cases inside : n < count
  · rw [getD_groupByLeft inside]
    simp [inside, List.mem_zipIdx_iff_getElem?, and_comm]
  · have outside : (groupByLeft count productions).size ≤ n := by
      rw [size_groupByLeft]
      exact Nat.le_of_not_lt inside
    simp [inside, Array.getElem?_eq_none outside]

theorem resolveStart_ok {d : Definition} (declared : d.NamesDeclared) {n : NonterminalId}
    (resolved : d.resolveStart = .ok n) : n ≠ startNonterminal ∧ n < d.nonterminals.size := by
  unfold resolveStart at resolved
  split at resolved
  · split at resolved
    · next found =>
        cases resolved
        exact declared.nonterminal found
    · cases resolved
  · split at resolved
    · next enough =>
        cases resolved
        exact ⟨by decide, enough⟩
    · cases resolved

/-- What a successful end of a definition has found out. -/
theorem finish_ok {d : Definition} {g : Grammar} (finished : d.finish = .ok g) :
    ∃ rules, d.resolveStart = .ok g.start ∧ d.resolveRules = .ok rules ∧
      g.terminals = d.resolvedTerminals ∧ g.nonterminals = d.resolvedNonterminals ∧
      g.productions = (augmented g.start :: rules).toArray ∧
      g.groups = groupByLeft d.nonterminals.size g.productions ∧
      g.groups.findIdx? (·.isEmpty) = none ∧
      d.precedenceFault = none ∧ d.valueTypeFault = none := by
  unfold finish at finished
  cases start : d.resolveStart with
  | error fault => simp [start, bind, Except.bind] at finished
  | ok n =>
      cases precedences : d.precedenceFault with
      | some fault =>
          simp [start, precedences, bind, Except.bind, throw, throwThe,
            MonadExceptOf.throw] at finished
      | none =>
          cases valueTypes : d.valueTypeFault with
          | some fault =>
              simp [start, precedences, valueTypes, bind, Except.bind, throw, throwThe,
                MonadExceptOf.throw] at finished
          | none =>
              cases rules : d.resolveRules with
              | error fault =>
                  simp [start, precedences, valueTypes, rules, bind, Except.bind] at finished
              | ok productions =>
                  simp only [start, precedences, valueTypes, rules, bind, Except.bind, pure,
                    Except.pure] at finished
                  split at finished
                  · simp [throw, throwThe, MonadExceptOf.throw] at finished
                  · next nonempty =>
                      cases finished
                      exact ⟨productions, rfl, rfl, rfl, rfl, rfl, rfl,
                        Option.eq_none_iff_forall_ne_some.mpr nonempty, rfl, rfl⟩

/-- What the rules resolve to stands in their order. -/
theorem getElem?_resolveRules {d : Definition} {rules : List Production}
    (resolved : d.resolveRules = .ok rules) {place : Nat} {production : Production} :
    rules[place]? = some production ↔ ∃ rule, d.rules[place]? = some rule ∧
      d.resolveRule (place + 1) rule = .ok production := by
  have matched := forall₂_of_mapM_ok resolved
  have size : rules.length = d.rules.size := by simpa using matched.length_eq.symm
  have resolvedAt : ∀ (inside : place < rules.length) {rule : Rule}, d.rules[place]? = some rule →
      d.resolveRule (place + 1) rule = .ok rules[place] := by
    intro inside rule ruled
    have within : place < (d.rules.toList.zipIdx 1).length := matched.length_eq ▸ inside
    have paired := matched.get within inside
    have entry : (d.rules.toList.zipIdx 1)[place] = (rule, place + 1) := by
      have here := (Array.getElem?_eq_some_iff.1 ruled).2
      simp [here, Nat.add_comm 1]
    rwa [List.get_eq_getElem, List.get_eq_getElem, entry] at paired
  constructor
  · intro found
    obtain ⟨inside, here⟩ := List.getElem?_eq_some_iff.1 found
    have ruled := Array.getElem?_eq_getElem (size ▸ inside)
    exact ⟨_, ruled, here ▸ resolvedAt inside ruled⟩
  · rintro ⟨rule, ruled, outcome⟩
    have inside : place < rules.length := size ▸ (Array.getElem?_eq_some_iff.1 ruled).1
    rw [List.getElem?_eq_getElem inside]
    exact congrArg some (Except.ok.inj ((resolvedAt inside ruled).symm.trans outcome))

/-- Production `place + 1` is what the rule at `place` resolves to. -/
theorem getElem?_productions {d : Definition} {g : Grammar} (finished : d.finish = .ok g)
    {place : Nat} {production : Production} :
    g.productions[place + 1]? = some production ↔ ∃ rule, d.rules[place]? = some rule ∧
      d.resolveRule (place + 1) rule = .ok production := by
  obtain ⟨rules, _, resolved, _, _, productions, _⟩ := finish_ok finished
  rw [← getElem?_resolveRules resolved]
  simp [productions]

end Definition

theorem Grammar.defineLeniently_snd (calls : List Call) :
    (Grammar.defineLeniently calls).2 = (Definition.empty.after calls).finish := by
  have performed := Definition.perform_singletons Definition.empty calls
  simp only [Grammar.defineLeniently, performed]
  rfl

theorem Grammar.finish_of_define {calls : List Call} {g : Grammar}
    (defined : Grammar.define calls = .ok g) : (Definition.empty.after calls).finish = .ok g := by
  unfold Grammar.define at defined
  split at defined
  · next number d ran => rwa [← Definition.after_of_run_ok ran]
  · cases defined

/-- A definition that ends with the first failure defines nothing that a lenient one does not. -/
theorem Grammar.isDefined_of_define {calls : List Call} {g : Grammar}
    (defined : Grammar.define calls = .ok g) : g.IsDefined :=
  ⟨calls, (Grammar.defineLeniently_snd calls).trans (Grammar.finish_of_define defined)⟩

/-! ## What a definition ends in -/

namespace Definition

section

variable {d : Definition} {g : Grammar} (finished : d.finish = .ok g)
include finished

theorem size_terminals_of_finish : g.terminals.size = d.terminals.size := by
  obtain ⟨_, _, _, terminals, _⟩ := finish_ok finished
  simp [terminals, resolvedTerminals]

theorem size_nonterminals_of_finish : g.nonterminals.size = d.nonterminals.size := by
  obtain ⟨_, _, _, _, nonterminals, _⟩ := finish_ok finished
  simp [nonterminals, resolvedNonterminals]

/-- Every production but the augmented one comes from a rule. -/
theorem exists_rule_of_production {p : ProductionId} {production : Production}
    (listed : g.productions[p]? = some production) (positive : p ≠ acceptProduction) :
    ∃ rule number, d.resolveRule number rule = .ok production := by
  obtain ⟨place, rfl⟩ := Nat.exists_eq_succ_of_ne_zero positive
  obtain ⟨rule, _, ruled⟩ := (getElem?_productions finished).1 listed
  exact ⟨rule, _, ruled⟩

namespace NamesDeclared

variable (declared : d.NamesDeclared)
include declared

theorem declares {name : String} {symbol : Symbol} (found : d.names[name]? = some symbol) :
    g.Declares symbol := by
  cases symbol with
  | terminal t =>
      obtain ⟨user, inside⟩ := declared.terminal found
      exact ⟨user, size_terminals_of_finish finished ▸ inside⟩
  | nonterminal n =>
      obtain ⟨user, inside⟩ := declared.nonterminal found
      exact ⟨user, size_nonterminals_of_finish finished ▸ inside⟩

theorem declares_start : g.Declares (.nonterminal g.start) := by
  obtain ⟨_, start, _⟩ := finish_ok finished
  obtain ⟨user, inside⟩ := resolveStart_ok declared start
  exact ⟨user, size_nonterminals_of_finish finished ▸ inside⟩

theorem declares_left {p : ProductionId} {production : Production}
    (listed : g.productions[p]? = some production) (positive : p ≠ acceptProduction) :
    g.Declares (.nonterminal production.left) := by
  obtain ⟨rule, number, ruled⟩ := exists_rule_of_production finished listed positive
  exact declared.declares finished (resolveRule_ok ruled).1

theorem declares_right {p : ProductionId} {production : Production}
    (listed : g.productions[p]? = some production) (positive : p ≠ acceptProduction) :
    ∀ symbol ∈ production.right.toList, g.Declares symbol := by
  intro symbol member
  obtain ⟨rule, number, ruled⟩ := exists_rule_of_production finished listed positive
  obtain ⟨place, inside, rfl⟩ := List.mem_iff_getElem.1 member
  have matched := (resolveRule_ok ruled).2
  have within : place < rule.right.length := by
    rw [matched.length_eq]
    exact inside
  have paired := matched.get within inside
  rw [List.get_eq_getElem, List.get_eq_getElem] at paired
  exact declared.declares finished paired

end NamesDeclared

end

/-- What a definition with declared names ends in is well formed. -/
theorem wellFormed_of_finish {d : Definition} {g : Grammar}
    (declared : d.NamesDeclared) (finished : d.finish = .ok g) : g.WellFormed := by
  obtain ⟨_, _, _, _, _, productions, groups, nonempty, _⟩ := finish_ok finished
  have nonterminals := size_nonterminals_of_finish finished
  constructor
  case augmented => simp [productions, acceptProduction]
  case ending => exact size_terminals_of_finish finished ▸ declared.terminals
  case start => exact declared.declares_start finished
  case left => exact fun listed positive => declared.declares_left finished listed positive
  case right => exact fun listed positive => declared.declares_right finished listed positive
  case alternatives =>
    intro n p
    rw [Grammar.alternatives, groups, mem_groupByLeft]
    constructor
    · rintro ⟨_, known⟩
      exact known
    · rintro ⟨production, listed, rfl⟩
      refine ⟨?_, production, listed, rfl⟩
      by_cases accept : p = acceptProduction
      · have same : production = augmented g.start := by
          simpa [productions, accept, acceptProduction] using listed.symm
        rw [same]
        exact declared.nonterminals
      · exact nonterminals ▸ (declared.declares_left finished listed accept).2
  case inhabited =>
    intro n inside vacant
    have bound : n < g.groups.size := by
      rw [groups, size_groupByLeft, ← nonterminals]
      exact inside
    have occupied := Array.findIdx?_eq_none_iff.1 nonempty g.groups[n] (Array.getElem_mem bound)
    have empty : g.groups[n] = [] := by simpa [Grammar.alternatives, bound] using vacant
    simp [empty] at occupied

end Definition

/-- The symbol has a number in the grammar, which may be that of a reserved symbol. -/
def Grammar.Numbers (g : Grammar) : Symbol → Prop
  | .terminal t => t < g.terminals.size
  | .nonterminal n => n < g.nonterminals.size

theorem Grammar.mem_of_lastTerminal? {symbols : List Symbol} {t : TerminalId}
    (last : lastTerminal? symbols = some t) : .terminal t ∈ symbols := by
  obtain ⟨symbol, member, chosen⟩ := List.exists_of_findSome?_eq_some last
  cases symbol with
  | terminal s =>
      cases chosen
      exact List.mem_reverse.1 member
  | nonterminal n => cases chosen

namespace Grammar.WellFormed

variable {g : Grammar}

theorem left_lt (wellFormed : g.WellFormed) {p : ProductionId} {production : Production}
    (listed : g.productions[p]? = some production) : production.left < g.nonterminals.size := by
  by_cases accept : p = acceptProduction
  · subst accept
    rw [wellFormed.augmented] at listed
    cases listed
    exact Nat.lt_of_le_of_lt (Nat.zero_le _) wellFormed.start.2
  · exact (wellFormed.left listed accept).2

theorem nonterminal_declared (wellFormed : g.WellFormed) {p : ProductionId}
    {production : Production} {n : NonterminalId} (listed : g.productions[p]? = some production)
    (member : Symbol.nonterminal n ∈ production.right.toList) : g.Declares (.nonterminal n) := by
  by_cases accept : p = acceptProduction
  · subst accept
    rw [wellFormed.augmented] at listed
    cases listed
    have same : n = g.start := by simpa [Definition.augmented] using member
    rw [same]
    exact wellFormed.start
  · exact wellFormed.right listed accept _ member

theorem terminal_lt (wellFormed : g.WellFormed) {p : ProductionId} {production : Production}
    {t : TerminalId} (listed : g.productions[p]? = some production)
    (member : Symbol.terminal t ∈ production.right.toList) : t < g.terminals.size := by
  by_cases accept : p = acceptProduction
  · subst accept
    rw [wellFormed.augmented] at listed
    cases listed
    have same : t = endTerminal := by simpa [Definition.augmented] using member
    rw [same]
    exact wellFormed.ending
  · exact (wellFormed.right listed accept _ member).2

theorem numbers (wellFormed : g.WellFormed) {p : ProductionId} {production : Production}
    (listed : g.productions[p]? = some production) {symbol : Symbol}
    (member : symbol ∈ production.right.toList) : g.Numbers symbol := by
  cases symbol with
  | terminal t => exact wellFormed.terminal_lt listed member
  | nonterminal n => exact (wellFormed.nonterminal_declared listed member).2

/-- Only the augmented production has the reserved nonterminal on its left. -/
theorem eq_acceptProduction (wellFormed : g.WellFormed) {p : ProductionId}
    {production : Production} (listed : g.productions[p]? = some production)
    (left : production.left = startNonterminal) : p = acceptProduction := by
  by_contra other
  exact (wellFormed.left listed other).1 left

theorem ne_acceptProduction (wellFormed : g.WellFormed) {n : NonterminalId} {p : ProductionId}
    (declared : g.Declares (.nonterminal n)) (alternative : p ∈ g.alternatives n) :
    p ≠ acceptProduction := by
  rintro rfl
  obtain ⟨production, listed, left⟩ := wellFormed.alternatives.1 alternative
  rw [wellFormed.augmented] at listed
  cases listed
  exact declared.1 left.symm

end Grammar.WellFormed

/-- Every grammar that calls define is well formed. -/
theorem Grammar.IsDefined.wellFormed {g : Grammar} (defined : g.IsDefined) : g.WellFormed := by
  obtain ⟨calls, finished⟩ := defined
  rw [Grammar.defineLeniently_snd] at finished
  exact Definition.wellFormed_of_finish
    (Definition.namesDeclared_after Definition.namesDeclared_empty calls) finished

/-- The grammar of nested brackets: `S -> ( S )` or nothing. -/
def Grammar.brackets : Grammar where
  terminals := #[⟨"$end", none, none⟩, ⟨"(", none, none⟩, ⟨")", none, none⟩]
  nonterminals := #[⟨"$start", none⟩, ⟨"S", none⟩]
  productions := #[
    ⟨startNonterminal, #[.nonterminal 1, .terminal endTerminal], none⟩,
    ⟨1, #[.terminal 1, .nonterminal 1, .terminal 2], none⟩,
    ⟨1, #[], none⟩]
  start := 1
  groups := #[[acceptProduction], [1, 2]]

theorem Grammar.isDefined_brackets : brackets.IsDefined :=
  ⟨[.terminal "(", .terminal ")", .nonterminal "S", .rule "S" ["(", "S", ")"] none,
    .rule "S" [] none], by decide +kernel⟩

end Lalr
