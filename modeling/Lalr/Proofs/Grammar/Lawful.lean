import Lalr.Proofs.Grammar.WellFormed
import Mathlib.Data.List.Induction

/-!
# What a definition guarantees

Whatever calls are made, and whether or not failed ones are passed over, the grammar in which a
definition ends is lawful: its symbols have names of their own, its productions differ, and whatever
was declared for terminals fits together.

While calls are made, one invariant carries this.  `Definition.Consistent` says that the map of names
and the arrays of symbols know the same names, that the map of rules and the array of rules know the
same rules, and that every precedence level was used by one call.
-/

namespace Lalr

/-- A name that calls can declare. -/
structure IsUserName (name : String) : Prop where
  nonempty : name ≠ ""
  solid : ∀ character ∈ name.toList, Text.isBlank character = false
  unreserved : name.toList.head? ≠ some '$'

namespace Definition

theorem nameFault_eq_none {d : Definition} {name : String} :
    d.nameFault name = none ↔ IsUserName name ∧ d.names[name]? = none := by
  have unknown : d.names.contains name = false ↔ d.names[name]? = none := by
    rw [Std.TreeMap.contains_eq_isSome_getElem?, Option.isSome_eq_false_iff, Option.isNone_iff_eq_none]
  have solid : name.toList.any Text.isBlank = false ↔
      ∀ character ∈ name.toList, Text.isBlank character = false := by simp
  have started : name.toList.head?.all (· == '$') = false ↔
      name ≠ "" ∧ name.toList.head? ≠ some '$' := by
    rw [← String.toList_inj.ne]
    cases name.toList <;> simp
  unfold nameFault
  constructor
  · intro faultless
    split at faultless
    · cases faultless
    · next blankless =>
        split at faultless
        · cases faultless
        · next free =>
            split at faultless
            · cases faultless
            · next new =>
                rw [Bool.not_eq_true] at blankless free new
                obtain ⟨nonempty, unreserved⟩ := started.1 free
                exact ⟨⟨nonempty, solid.1 blankless, unreserved⟩, unknown.1 new⟩
  · rintro ⟨user, new⟩
    rw [solid.2 user.solid, started.2 ⟨user.nonempty, user.unreserved⟩, unknown.2 new]
    rfl

/-! ## Registers of names -/

/-- The names of one kind of symbols stand at the places of an array.  The first place is that of a
reserved symbol, whose name is not looked up. -/
structure Registers (names : Std.TreeMap String Symbol) (kind : Nat → Symbol) (first : String)
    (entries : Array String) : Prop where
  reserved : entries[0]? = some first
  listed : ∀ {name : String} {id : Nat},
    names[name]? = some (kind id) ↔ id ≠ 0 ∧ entries[id]? = some name
  fits : entries.size ≤ numberLimit + 1

namespace Registers

variable {names : Std.TreeMap String Symbol} {kind : Nat → Symbol} {first name : String}
  {entries : Array String}

theorem size_pos (registers : Registers names kind first entries) : 0 < entries.size :=
  (Array.getElem?_eq_some_iff.1 registers.reserved).1

/-- A new name takes the next place of its kind. -/
theorem push (registers : Registers names kind first entries) (injective : Function.Injective kind)
    (unknown : names[name]? = none) (room : entries.size ≤ numberLimit) :
    Registers (names.insert name (kind entries.size)) kind first (entries.push name) := by
  have positive := registers.size_pos
  refine ⟨?_, ?_, by simpa using room⟩
  · rw [Array.getElem?_push_lt positive, ← registers.reserved, Array.getElem?_eq_getElem positive]
  · intro other id
    rw [Std.TreeMap.getElem?_insert, Array.getElem?_push]
    by_cases same : name = other
    · subst same
      rw [if_pos Std.ReflCmp.compare_self, Option.some.injEq, injective.eq_iff]
      by_cases last : id = entries.size
      · subst last
        exact ⟨fun _ => ⟨Nat.ne_of_gt positive, if_pos rfl⟩, fun _ => rfl⟩
      · rw [if_neg last, ← registers.listed, unknown]
        simp [Ne.symm last]
    · rw [if_neg (by simpa using same), registers.listed]
      by_cases last : id = entries.size
      · subst last
        simp [same]
      · rw [if_neg last]

/-- A new name of another kind changes nothing. -/
theorem skip (registers : Registers names kind first entries) {symbol : Symbol}
    (other : ∀ id, symbol ≠ kind id) (unknown : names[name]? = none) :
    Registers (names.insert name symbol) kind first entries := by
  refine ⟨registers.reserved, ?_, registers.fits⟩
  intro another id
  rw [Std.TreeMap.getElem?_insert]
  by_cases same : name = another
  · subst same
    rw [if_pos Std.ReflCmp.compare_self, ← registers.listed, unknown]
    simp [other id]
  · rw [if_neg (by simpa using same), registers.listed]

/-- A name stands at one place only. -/
theorem place_unique (registers : Registers names kind first entries)
    (injective : Function.Injective kind) (unlisted : names[first]? = none) {place other : Nat}
    (here : entries[place]? = some name) (there : entries[other]? = some name) :
    place = other := by
  have listed : ∀ {place : Nat}, entries[place]? = some name → place ≠ 0 →
      names[name]? = some (kind place) := fun found positive => registers.listed.2 ⟨positive, found⟩
  have firstOnly : entries[0]? = some name → ∀ {place : Nat}, entries[place]? = some name →
      place = 0 := by
    intro front place found
    rw [registers.reserved, Option.some.injEq] at front
    subst front
    by_contra positive
    rw [listed found positive] at unlisted
    cases unlisted
  by_cases front : place = 0
  · subst front
    exact (firstOnly here there).symm
  · by_cases front' : other = 0
    · subst front'
      exact firstOnly there here
    · have same := (listed here front).symm.trans (listed there front')
      exact injective (Option.some.inj same)

end Registers

/-! ## The invariant of calls -/

/-- What holds of a definition after any calls. -/
structure Consistent (d : Definition) : Prop where
  terminals : Registers d.names .terminal "$end" d.terminals
  nonterminals : Registers d.names .nonterminal "$start" d.nonterminals
  user : ∀ {name : String} {symbol : Symbol}, d.names[name]? = some symbol → IsUserName name
  ruleCount : d.rules.size ≤ numberLimit
  ruleLength : ∀ {place : Nat} {rule : Rule}, d.rules[place]? = some rule →
    rule.right.length ≤ numberLimit
  ruleNumbers : ∀ {key : List String} {number : ProductionId},
    d.ruleNumbers[key]? = some number ↔ ∃ place rule, d.rules[place]? = some rule ∧
      rule.left :: rule.right = key ∧ number = place + 1
  levels : ∀ entry ∈ d.precedences, entry.2.level < d.levels
  associativity : ∀ entry ∈ d.precedences, ∀ other ∈ d.precedences,
    entry.2.level = other.2.level → entry.2.associativity = other.2.associativity

theorem terminal_injective : Function.Injective Symbol.terminal := by
  intro first second same
  cases same
  rfl

theorem nonterminal_injective : Function.Injective Symbol.nonterminal := by
  intro first second same
  cases same
  rfl

theorem consistent_empty : empty.Consistent where
  terminals := ⟨rfl, by
    intro name id
    cases id <;> simp [empty], by decide⟩
  nonterminals := ⟨rfl, by
    intro name id
    cases id <;> simp [empty], by decide⟩
  user found := by simp [empty] at found
  ruleCount := by decide
  ruleLength found := by simp [empty] at found
  ruleNumbers := by simp [empty]
  levels := by simp [empty]
  associativity := by simp [empty]

theorem mem_assignPrecedence {precedence : Precedence} {names : List String}
    {assigned : List (String × Precedence)} {entry : String × Precedence}
    (member : entry ∈ (assignPrecedence precedence names assigned).2) :
    entry ∈ assigned ∨ entry.2 = precedence := by
  induction names generalizing assigned with
  | nil => exact .inl member
  | cons name rest ih =>
      simp only [assignPrecedence] at member
      split at member
      · obtain ⟨old, known, rfl⟩ := List.mem_map.1 member
        split
        · exact .inr rfl
        · exact .inl known
      · rcases ih member with known | new
        · rcases List.mem_append.1 known with old | last
          · exact .inl old
          · rw [List.mem_singleton.1 last]
            exact .inr rfl
        · exact .inr new

namespace Consistent

variable {d : Definition}

/-- A new name is declared for a symbol of its kind. -/
theorem declared (consistent : d.Consistent) {name : String} (faultless : d.nameFault name = none)
    {symbol : Symbol} {other : String} {found : Symbol}
    (looked : (d.names.insert name symbol)[other]? = some found) : IsUserName other := by
  rw [Std.TreeMap.getElem?_insert] at looked
  split at looked
  · next equal =>
      have same : name = other := Std.LawfulEqOrd.eq_of_compare equal
      exact same ▸ (nameFault_eq_none.1 faultless).1
  · exact consistent.user looked

theorem declareTerminal (consistent : d.Consistent) (name : String) :
    (d.declareTerminal name).2.Consistent := by
  unfold Definition.declareTerminal
  cases faultless : d.nameFault name with
  | some fault => exact consistent
  | none =>
      have unknown := (nameFault_eq_none.1 faultless).2
      dsimp only
      split
      · exact consistent
      · next room =>
          exact { consistent with
            terminals := consistent.terminals.push terminal_injective unknown (Nat.le_of_not_lt room)
            nonterminals := consistent.nonterminals.skip (by simp) unknown
            user := consistent.declared faultless }

theorem declareNonterminal (consistent : d.Consistent) (name : String) :
    (d.declareNonterminal name).2.Consistent := by
  unfold Definition.declareNonterminal
  cases faultless : d.nameFault name with
  | some fault => exact consistent
  | none =>
      have unknown := (nameFault_eq_none.1 faultless).2
      dsimp only
      split
      · exact consistent
      · next room =>
          exact { consistent with
            terminals := consistent.terminals.skip (by simp) unknown
            nonterminals :=
              consistent.nonterminals.push nonterminal_injective unknown (Nat.le_of_not_lt room)
            user := consistent.declared faultless }

/-- A precedence call uses a level that no entry has had before. -/
theorem declarePrecedence (consistent : d.Consistent) (associativity : Associativity)
    (names : List String) : (d.declarePrecedence associativity names).2.Consistent := by
  unfold Definition.declarePrecedence
  split
  · exact consistent
  · have fresh : ∀ entry ∈ (assignPrecedence ⟨d.levels, associativity⟩ names d.precedences).2,
        entry ∈ d.precedences ∧ entry.2.level < d.levels ∨ entry.2 = ⟨d.levels, associativity⟩ := by
      intro entry member
      rcases mem_assignPrecedence member with known | new
      · exact .inl ⟨known, consistent.levels entry known⟩
      · exact .inr new
    refine { consistent with levels := ?_, associativity := ?_ }
    · intro entry member
      rcases fresh entry member with ⟨_, old⟩ | new
      · exact Nat.lt_succ_of_lt old
      · rw [new]
        exact Nat.lt_succ_self _
    · intro entry member other member' same
      rcases fresh entry member with ⟨known, old⟩ | new
      · rcases fresh other member' with ⟨known', _⟩ | new'
        · exact consistent.associativity entry known other known' same
        · rw [same, new'] at old
          exact absurd old (Nat.lt_irrefl _)
      · rcases fresh other member' with ⟨_, old'⟩ | new'
        · rw [← same, new] at old'
          exact absurd old' (Nat.lt_irrefl _)
        · rw [new, new']

theorem declareRule (consistent : d.Consistent) (rule : Rule) :
    (d.declareRule rule).2.Consistent := by
  unfold Definition.declareRule
  dsimp only
  split
  · exact consistent
  · next room =>
      split
      · exact consistent
      · next short =>
          cases unknown : d.ruleNumbers[rule.left :: rule.right]? with
          | some previous => exact consistent
          | none =>
              have pushed : ∀ {place : Nat} {other : Rule}, (d.rules.push rule)[place]? = some other ↔
                  d.rules[place]? = some other ∨ place = d.rules.size ∧ other = rule := by
                intro place other
                rw [Array.getElem?_push]
                by_cases last : place = d.rules.size <;> simp [last, eq_comm]
              refine { consistent with ruleCount := ?_, ruleLength := ?_, ruleNumbers := ?_ }
              · simpa using Nat.le_of_not_lt room
              · intro place other found
                rcases pushed.1 found with old | ⟨_, rfl⟩
                · exact consistent.ruleLength old
                · exact Nat.le_of_not_lt short
              · intro key number
                rw [Std.TreeMap.getElem?_insert]
                by_cases same : rule.left :: rule.right = key
                · rw [if_pos (by rw [same]; exact Std.ReflCmp.compare_self)]
                  constructor
                  · intro found
                    exact ⟨_, rule, pushed.2 (.inr ⟨rfl, rfl⟩), same, (Option.some.inj found).symm⟩
                  · rintro ⟨place, other, found, keyed, rfl⟩
                    rcases pushed.1 found with old | ⟨last, _⟩
                    · rw [same, consistent.ruleNumbers.2 ⟨place, other, old, keyed, rfl⟩] at unknown
                      cases unknown
                    · rw [last]
                · rw [if_neg (by simpa using same), consistent.ruleNumbers]
                  constructor
                  · rintro ⟨place, other, found, keyed, number⟩
                    exact ⟨place, other, pushed.2 (.inl found), keyed, number⟩
                  · rintro ⟨place, other, found, keyed, number⟩
                    rcases pushed.1 found with old | ⟨_, rfl⟩
                    · exact ⟨place, other, old, keyed, number⟩
                    · exact absurd keyed same

/-- Every call keeps a definition consistent, whether or not it fails. -/
theorem call (consistent : d.Consistent) (next : Call) : (d.call next).2.Consistent := by
  cases next with
  | terminal name => exact consistent.declareTerminal name
  | nonterminal name => exact consistent.declareNonterminal name
  | precedence associativity names => exact consistent.declarePrecedence associativity names
  | valueType symbol tag =>
      simp only [Definition.call, declareValueType]
      split
      · exact consistent
      · exact { consistent with }
  | rule left right borrowed => exact consistent.declareRule ⟨left, right, borrowed⟩
  | start name => exact { consistent with }

theorem after (consistent : d.Consistent) (calls : List Call) : (d.after calls).Consistent := by
  induction calls generalizing d with
  | nil => exact consistent
  | cons next rest ih => exact ih (consistent.call next)

end Consistent

/-- A name stands for one symbol. -/
theorem Consistent.name_unique {d : Definition} (consistent : d.Consistent) {name other : String}
    {symbol : Symbol} (found : d.names[name]? = some symbol)
    (found' : d.names[other]? = some symbol) : name = other := by
  cases symbol with
  | terminal t =>
      have here := (consistent.terminals.listed.1 found).2
      rw [(consistent.terminals.listed.1 found').2] at here
      exact (Option.some.inj here).symm
  | nonterminal n =>
      have here := (consistent.nonterminals.listed.1 found).2
      rw [(consistent.nonterminals.listed.1 found').2] at here
      exact (Option.some.inj here).symm

/-- A reserved name is not looked up. -/
theorem Consistent.reserved_unlisted {d : Definition} (consistent : d.Consistent) {name : String}
    (reserved : name.toList.head? = some '$') : d.names[name]? = none := by
  cases looked : d.names[name]? with
  | none => rfl
  | some symbol => exact absurd reserved (consistent.user looked).unreserved

theorem unlisted_of_faultless {d : Definition} {name : String} (unknown : d.names[name]? = none)
    (precedences : d.precedenceFault = none) (valueTypes : d.valueTypeFault = none) :
    d.precedences.lookup name = none ∧ d.valueTypes.lookup name = none := by
  constructor
  · rw [List.lookup_eq_none_iff]
    intro entry member
    have declared := List.findSome?_eq_none_iff.1 precedences entry member
    rw [bne_iff_ne]
    rintro rfl
    simp [unknown] at declared
  · rw [List.lookup_eq_none_iff]
    intro entry member
    have declared := List.findSome?_eq_none_iff.1 valueTypes entry member
    rw [bne_iff_ne]
    rintro rfl
    simp [unknown, Std.TreeMap.contains_eq_isSome_getElem?] at declared

end Definition

/-! ## Lawful grammars -/

namespace Grammar

/-- The order that is found in every grammar that calls define. -/
structure Lawful (g : Grammar) : Prop where
  /-- Numbers do not exceed the limit. -/
  terminalCount : g.terminals.size ≤ numberLimit + 1
  nonterminalCount : g.nonterminals.size ≤ numberLimit + 1
  productionCount : g.productions.size ≤ numberLimit + 1
  /-- A symbol is found under its name by the number of its place. -/
  terminalNamed : ∀ {t : TerminalId} {terminal : Terminal}, g.terminals[t]? = some terminal →
    g.terminalNamed? terminal.name = some t
  nonterminalNamed : ∀ {n : NonterminalId} {nonterminal : Nonterminal},
    g.nonterminals[n]? = some nonterminal → g.nonterminalNamed? nonterminal.name = some n
  names : (g.terminals.toList.map (·.name) ++ g.nonterminals.toList.map (·.name)).Nodup
  ending : g.terminals[endTerminal]? = some { name := "$end" }
  starting : g.nonterminals[startNonterminal]? = some { name := "$start" }
  userTerminal : ∀ {t : TerminalId} {terminal : Terminal}, g.terminals[t]? = some terminal →
    t ≠ endTerminal → IsUserName terminal.name
  userNonterminal : ∀ {n : NonterminalId} {nonterminal : Nonterminal},
    g.nonterminals[n]? = some nonterminal → n ≠ startNonterminal → IsUserName nonterminal.name
  start : g.Declares (.nonterminal g.start)
  augmented : ∃ production, g.productions[acceptProduction]? = some production ∧
    production.left = startNonterminal ∧
    production.right = #[.nonterminal g.start, .terminal endTerminal]
  /-- The other productions are made of symbols that were declared. -/
  production : ∀ {p : ProductionId} {production : Production},
    g.productions[p]? = some production → p ≠ acceptProduction →
      g.Declares (.nonterminal production.left) ∧ production.right.size ≤ numberLimit ∧
      ∀ symbol ∈ production.right.toList, g.Declares symbol
  distinct : ∀ {p q : ProductionId} {production other : Production},
    g.productions[p]? = some production → g.productions[q]? = some other →
      production.left = other.left → production.right = other.right → p = q
  alternatives : ∀ n, g.alternatives n = (List.range g.productions.size).filter fun p =>
    g.productions[p]?.any (·.left == n)
  inhabited : ∀ n < g.nonterminals.size, g.alternatives n ≠ []
  /-- Terminals of one precedence level group alike. -/
  associativity : ∀ {t u : TerminalId} {first second : Precedence},
    g.terminalPrecedence t = some first → g.terminalPrecedence u = some second →
      first.level = second.level → first.associativity = second.associativity

end Grammar

theorem map_filter_zipIdx {α : Type} (test : α → Bool) (values : List α) :
    (values.zipIdx.filter fun (value, _) => test value).map (·.2) =
      (List.range values.length).filter fun place => values[place]?.any test := by
  induction values using List.reverseRecOn with
  | nil => rfl
  | append_singleton front last ih =>
      have earlier : (List.range front.length).filter (fun place => (front ++ [last])[place]?.any test) =
          (List.range front.length).filter fun place => front[place]?.any test := by
        apply List.filter_congr
        intro place inside
        rw [List.getElem?_append_left (List.mem_range.1 inside)]
      rw [List.zipIdx_append, List.filter_append, List.map_append, ih, List.length_append,
        List.length_singleton, List.range_succ, List.filter_append, earlier]
      cases tested : test last <;> simp [tested]

namespace Definition

section Finished

variable {d : Definition} {g : Grammar} (finished : d.finish = .ok g)

include finished

theorem getElem?_terminals (t : TerminalId) : g.terminals[t]? = d.terminals[t]?.map fun name =>
    { name, precedence := d.precedences.lookup name, valueType := d.valueTypes.lookup name } := by
  obtain ⟨_, _, _, terminals, _⟩ := finish_ok finished
  simp [terminals, resolvedTerminals]

theorem getElem?_nonterminals (n : NonterminalId) : g.nonterminals[n]? =
    d.nonterminals[n]?.map fun name => { name, valueType := d.valueTypes.lookup name } := by
  obtain ⟨_, _, _, _, nonterminals, _⟩ := finish_ok finished
  simp [nonterminals, resolvedNonterminals]

theorem terminalNames : g.terminals.toList.map (·.name) = d.terminals.toList := by
  obtain ⟨_, _, _, terminals, _⟩ := finish_ok finished
  simp [terminals, resolvedTerminals, Function.comp_def]

theorem nonterminalNames : g.nonterminals.toList.map (·.name) = d.nonterminals.toList := by
  obtain ⟨_, _, _, _, nonterminals, _⟩ := finish_ok finished
  simp [nonterminals, resolvedNonterminals, Function.comp_def]

theorem size_productions : g.productions.size = d.rules.size + 1 := by
  obtain ⟨rules, _, resolved, _, _, productions, _⟩ := finish_ok finished
  have matched := (forall₂_of_mapM_ok resolved).length_eq
  rw [List.length_zipIdx, Array.length_toList] at matched
  simp [productions, matched]

theorem alternatives_eq (wellFormed : g.WellFormed) (n : NonterminalId) :
    g.alternatives n = (List.range g.productions.size).filter fun p =>
      g.productions[p]?.any (·.left == n) := by
  obtain ⟨_, _, _, _, _, _, groups, _⟩ := finish_ok finished
  have count := (size_nonterminals_of_finish finished).symm
  by_cases inside : n < d.nonterminals.size
  · rw [Grammar.alternatives, groups, getD_groupByLeft inside,
      map_filter_zipIdx fun production : Production => production.left == n]
    simp
  · have vacant : g.alternatives n = [] := by
      rw [List.eq_nil_iff_forall_not_mem]
      intro p member
      obtain ⟨production, listed, rfl⟩ := wellFormed.alternatives.1 member
      exact inside (count ▸ wellFormed.left_lt listed)
    rw [vacant, eq_comm, List.filter_eq_nil_iff]
    intro p _ belongs
    obtain ⟨production, listed, left⟩ := (Option.any_eq_true _ _).1 belongs
    rw [beq_iff_eq] at left
    exact inside (count ▸ left ▸ wellFormed.left_lt listed)

end Finished

variable {d : Definition} {g : Grammar}

/-- Names of the same symbols are the same. -/
theorem Consistent.names_unique (consistent : d.Consistent) {names others : List String}
    {symbols : List Symbol}
    (found : List.Forall₂ (fun name symbol => d.names[name]? = some symbol) names symbols)
    (found' : List.Forall₂ (fun name symbol => d.names[name]? = some symbol) others symbols) :
    names = others := by
  induction found generalizing others with
  | nil =>
      cases found'
      rfl
  | cons first _ ih =>
      cases found' with
      | cons first' rest => rw [consistent.name_unique first first', ih rest]

/-- Rules with the same production are the same, but for what they borrow. -/
theorem Consistent.rule_unique (consistent : d.Consistent) {number number' : ProductionId}
    {rule rule' : Rule} {production production' : Production}
    (resolved : d.resolveRule number rule = .ok production)
    (resolved' : d.resolveRule number' rule' = .ok production')
    (left : production.left = production'.left) (right : production.right = production'.right) :
    rule.left :: rule.right = rule'.left :: rule'.right := by
  obtain ⟨leftFound, rightFound⟩ := resolveRule_ok resolved
  obtain ⟨leftFound', rightFound'⟩ := resolveRule_ok resolved'
  rw [← left] at leftFound'
  rw [← right] at rightFound'
  rw [consistent.name_unique leftFound leftFound', consistent.names_unique rightFound rightFound']

theorem Consistent.production_unique (consistent : d.Consistent) (wellFormed : g.WellFormed)
    (finished : d.finish = .ok g) {p q : ProductionId} {production other : Production}
    (listed : g.productions[p]? = some production) (listed' : g.productions[q]? = some other)
    (left : production.left = other.left) (right : production.right = other.right) : p = q := by
  have reserved : ∀ {p : ProductionId} {production : Production},
      g.productions[p]? = some production →
        (p = acceptProduction ↔ production.left = startNonterminal) := by
    intro p production listed
    constructor
    · rintro rfl
      rw [wellFormed.augmented] at listed
      cases listed
      rfl
    · exact wellFormed.eq_acceptProduction listed
  by_cases accept : p = acceptProduction
  · rw [accept, (reserved listed').2 (left ▸ (reserved listed).1 accept)]
  · have accept' : q ≠ acceptProduction := by
      intro same
      exact accept ((reserved listed).2 (left.trans ((reserved listed').1 same)))
    obtain ⟨place, rfl⟩ := Nat.exists_eq_succ_of_ne_zero accept
    obtain ⟨place', rfl⟩ := Nat.exists_eq_succ_of_ne_zero accept'
    obtain ⟨rule, ruled, resolved⟩ := (getElem?_productions finished).1 listed
    obtain ⟨rule', ruled', resolved'⟩ := (getElem?_productions finished).1 listed'
    have number := consistent.ruleNumbers.2 ⟨place, rule, ruled, rfl, rfl⟩
    have number' := consistent.ruleNumbers.2 ⟨place', rule', ruled', rfl, rfl⟩
    rw [consistent.rule_unique resolved resolved' left right, number'] at number
    exact (Option.some.inj number).symm

theorem Consistent.names_nodup (consistent : d.Consistent) :
    (d.terminals.toList ++ d.nonterminals.toList).Nodup := by
  have once : ∀ {kind : Nat → Symbol} {first : String} {entries : Array String},
      Function.Injective kind → d.names[first]? = none → Registers d.names kind first entries →
      entries.toList.Nodup := by
    intro kind first entries injective unlisted registers
    rw [List.Nodup, List.pairwise_iff_getElem]
    intro place other inside inside' less same
    have here := List.getElem?_eq_getElem inside
    have there := List.getElem?_eq_getElem inside'
    rw [Array.getElem?_toList] at here there
    rw [same] at here
    exact Nat.ne_of_lt less (registers.place_unique injective unlisted here there)
  have unlistedEnd : d.names["$end"]? = none := consistent.reserved_unlisted rfl
  have unlistedStart : d.names["$start"]? = none := consistent.reserved_unlisted rfl
  have placed : ∀ {kind : Nat → Symbol} {first name : String} {entries : Array String},
      Registers d.names kind first entries → name ∈ entries.toList →
        name = first ∨ ∃ id, d.names[name]? = some (kind id) := by
    intro kind first name entries registers member
    obtain ⟨id, here⟩ := List.mem_iff_getElem?.1 member
    rw [Array.getElem?_toList] at here
    by_cases front : id = 0
    · subst front
      rw [registers.reserved] at here
      exact .inl (Option.some.inj here).symm
    · exact .inr ⟨id, registers.listed.2 ⟨front, here⟩⟩
  rw [List.nodup_append]
  refine ⟨once terminal_injective unlistedEnd consistent.terminals,
    once nonterminal_injective unlistedStart consistent.nonterminals, ?_⟩
  intro name member other member' same
  subst same
  rcases placed consistent.terminals member with rfl | ⟨t, found⟩
  · rcases placed consistent.nonterminals member' with same | ⟨n, found⟩
    · exact absurd same (by decide)
    · rw [unlistedEnd] at found
      cases found
  · rcases placed consistent.nonterminals member' with rfl | ⟨n, found'⟩
    · rw [unlistedStart] at found
      cases found
    · rw [found] at found'
      cases found'

end Definition

theorem findIdx?_of_nodup {α : Type} {name : α → String} {entries : Array α}
    (once : (entries.toList.map name).Nodup) {place : Nat} {entry : α}
    (here : entries[place]? = some entry) :
    entries.findIdx? (name · == name entry) = some place := by
  obtain ⟨inside, same⟩ := Array.getElem?_eq_some_iff.1 here
  rw [Array.findIdx?_eq_some_iff_getElem]
  refine ⟨inside, by simp [same], ?_⟩
  intro earlier less again
  rw [beq_iff_eq] at again
  have within : earlier < entries.size := Nat.lt_trans less inside
  have equal : (entries.toList.map name)[earlier]? = (entries.toList.map name)[place]? := by
    simp [inside, within, same, again]
  exact Nat.ne_of_lt less ((List.getElem?_inj (by simpa using within) once).1 equal)

namespace Definition

section

variable {d : Definition} {g : Grammar} (finished : d.finish = .ok g)
include finished

/-- The precedence of a terminal was declared with its name. -/
theorem exists_name_of_terminalPrecedence {t : TerminalId} {precedence : Precedence}
    (has : g.terminalPrecedence t = some precedence) :
    ∃ name, (name, precedence) ∈ d.precedences := by
  obtain ⟨terminal, here, same⟩ := Option.bind_eq_some_iff.1 has
  rw [getElem?_terminals finished, Option.map_eq_some_iff] at here
  obtain ⟨name, _, rfl⟩ := here
  obtain ⟨before, after, whole, _⟩ := List.lookup_eq_some_iff.1 same
  exact ⟨name, whole ▸ by simp⟩

theorem Consistent.right_size_le (consistent : d.Consistent) {p : ProductionId}
    {production : Production} (listed : g.productions[p]? = some production)
    (positive : p ≠ acceptProduction) : production.right.size ≤ numberLimit := by
  obtain ⟨place, rfl⟩ := Nat.exists_eq_succ_of_ne_zero positive
  obtain ⟨rule, ruled, resolved⟩ := (getElem?_productions finished).1 listed
  rw [← Array.length_toList, ← (resolveRule_ok resolved).2.length_eq]
  exact consistent.ruleLength ruled

/-- The reserved names have no precedence and no value type. -/
theorem Consistent.reserved_bare (consistent : d.Consistent) {name : String}
    (reserved : name.toList.head? = some '$') :
    d.precedences.lookup name = none ∧ d.valueTypes.lookup name = none := by
  obtain ⟨_, _, _, _, _, _, _, _, precedences, valueTypes⟩ := finish_ok finished
  exact unlisted_of_faultless (consistent.reserved_unlisted reserved) precedences valueTypes

end

/-- What a consistent definition ends in is lawful. -/
theorem Consistent.lawful {d : Definition} {g : Grammar} (consistent : d.Consistent)
    (wellFormed : g.WellFormed) (finished : d.finish = .ok g) : g.Lawful := by
  have names : (g.terminals.toList.map (·.name) ++ g.nonterminals.toList.map (·.name)).Nodup := by
    rw [terminalNames finished, nonterminalNames finished]
    exact consistent.names_nodup
  have namesOnce := List.nodup_append.1 names
  refine {
    terminalCount := ?terminalCount
    nonterminalCount := ?nonterminalCount
    productionCount := ?productionCount
    terminalNamed := fun here => findIdx?_of_nodup namesOnce.1 here
    nonterminalNamed := fun here => findIdx?_of_nodup namesOnce.2.1 here
    names
    ending := ?ending
    starting := ?starting
    userTerminal := ?userTerminal
    userNonterminal := ?userNonterminal
    start := wellFormed.start
    augmented := ⟨_, wellFormed.augmented, rfl, rfl⟩
    production := fun listed positive => ⟨wellFormed.left listed positive,
      consistent.right_size_le finished listed positive, wellFormed.right listed positive⟩
    distinct := consistent.production_unique wellFormed finished
    alternatives := alternatives_eq finished wellFormed
    inhabited := wellFormed.inhabited
    associativity := ?associativity }
  case terminalCount =>
    rw [size_terminals_of_finish finished, ← Array.length_toList]
    exact consistent.terminals.fits
  case nonterminalCount =>
    rw [size_nonterminals_of_finish finished, ← Array.length_toList]
    exact consistent.nonterminals.fits
  case productionCount =>
    rw [size_productions finished]
    exact Nat.succ_le_succ consistent.ruleCount
  case ending =>
    have bare := consistent.reserved_bare finished (show "$end".toList.head? = _ from rfl)
    rw [getElem?_terminals finished, endTerminal, consistent.terminals.reserved]
    simp [bare.1, bare.2]
  case starting =>
    have bare := consistent.reserved_bare finished (show "$start".toList.head? = _ from rfl)
    rw [getElem?_nonterminals finished, startNonterminal, consistent.nonterminals.reserved]
    simp [bare.2]
  case userTerminal =>
    intro t terminal here positive
    rw [getElem?_terminals finished, Option.map_eq_some_iff] at here
    obtain ⟨name, found, rfl⟩ := here
    exact consistent.user (consistent.terminals.listed.2 ⟨positive, found⟩)
  case userNonterminal =>
    intro n nonterminal here positive
    rw [getElem?_nonterminals finished, Option.map_eq_some_iff] at here
    obtain ⟨name, found, rfl⟩ := here
    exact consistent.user (consistent.nonterminals.listed.2 ⟨positive, found⟩)
  case associativity =>
    intro t u first second has has' level
    obtain ⟨name, member⟩ := exists_name_of_terminalPrecedence finished has
    obtain ⟨other, member'⟩ := exists_name_of_terminalPrecedence finished has'
    exact consistent.associativity _ member _ member' level

end Definition

/-- Every grammar that calls define is lawful, whether or not failed calls are passed over. -/
theorem Grammar.IsDefined.lawful {g : Grammar} (defined : g.IsDefined) : g.Lawful := by
  have wellFormed := defined.wellFormed
  obtain ⟨calls, finished⟩ := defined
  rw [Grammar.defineLeniently_snd] at finished
  exact (Definition.consistent_empty.after calls).lawful wellFormed finished

end Lalr
