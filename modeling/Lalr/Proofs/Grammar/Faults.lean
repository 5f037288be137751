import Lalr.Proofs.Grammar.Interleaving

/-!
# What can be wrong with a definition

When all calls have succeeded, a definition may still use names that are not declared, or declare
nonterminals that have no rules.  `Contents.faults` lists everything that is wrong, in the order in
which it is looked for.  It reads this off from what the calls say, and not from maps of names.

The end of a definition reports the first of these faults, and succeeds if there are none.
-/

namespace Lalr

namespace Contents

/-- The names that are not known. -/
def strangers (known names : List String) : List String := names.filter (· ∉ known)

/-- The start symbol is the one last named, or the first nonterminal. -/
def startFaults (c : Contents) : List GrammarError :=
  match c.starts.getLast? with
  | some name => if name ∈ c.nonterminals then [] else [.undefinedStartSymbol name]
  | none => if c.nonterminals = [] then [.missingStartSymbol] else []

def leftFaults (c : Contents) (number : ProductionId) (name : String) : List GrammarError :=
  if name ∈ c.nonterminals then []
  else if name ∈ c.terminals then [.terminalOnLeft name number]
  else [.undeclaredLeft name number]

/-- What is wrong with a rule: with its left-hand side, with its right-hand side from left to right,
and with the terminal that it borrows its precedence from. -/
def ruleFaults (c : Contents) (number : ProductionId) (rule : Rule) : List GrammarError :=
  c.leftFaults number rule.left ++
    (strangers c.names rule.right).map (.undeclaredSymbol · number) ++
    (strangers c.terminals rule.borrowed.toList).map .unknownPrecedenceSymbol

/-- Everything that is wrong.  Names with precedences and value types come in the order in which they
were given these, rules in the order of their numbers, and nonterminals without rules in that of
theirs. -/
def faults (c : Contents) : List GrammarError :=
  c.startFaults ++
    (strangers c.terminals c.leveledNames).map .unknownPrecedenceSymbol ++
    (strangers c.names c.typedNames).map .unknownSymbol ++
    (c.rules.zipIdx 1).flatMap (fun (rule, number) => c.ruleFaults number rule) ++
    (strangers (c.rules.map (·.left)) c.nonterminals).map .noProductions

/-- Every name that is used is declared, for a symbol of the right kind, and every nonterminal has a
rule. -/
structure Complete (c : Contents) : Prop where
  start : match c.starts.getLast? with
    | some name => name ∈ c.nonterminals
    | none => c.nonterminals ≠ []
  leveled : ∀ name ∈ c.leveledNames, name ∈ c.terminals
  typed : ∀ name ∈ c.typedNames, name ∈ c.names
  left : ∀ rule ∈ c.rules, rule.left ∈ c.nonterminals
  right : ∀ rule ∈ c.rules, ∀ name ∈ rule.right, name ∈ c.names
  borrowed : ∀ rule ∈ c.rules, ∀ name, rule.borrowed = some name → name ∈ c.terminals
  ruled : ∀ name ∈ c.nonterminals, ∃ rule ∈ c.rules, rule.left = name

variable {c : Contents}

theorem strangers_eq_nil {known names : List String} :
    strangers known names = [] ↔ ∀ name ∈ names, name ∈ known := by
  simp [strangers]

theorem startFaults_eq_nil : c.startFaults = [] ↔ match c.starts.getLast? with
    | some name => name ∈ c.nonterminals
    | none => c.nonterminals ≠ [] := by
  unfold startFaults
  cases c.starts.getLast? <;> simp

theorem leftFaults_eq_nil {number : ProductionId} {name : String} :
    c.leftFaults number name = [] ↔ name ∈ c.nonterminals := by
  unfold leftFaults
  split
  · next declared => simp [declared]
  · next other =>
      split <;> simp [other]

theorem ruleFaults_eq_nil {number : ProductionId} {rule : Rule} :
    c.ruleFaults number rule = [] ↔ rule.left ∈ c.nonterminals ∧
      (∀ name ∈ rule.right, name ∈ c.names) ∧
      ∀ name, rule.borrowed = some name → name ∈ c.terminals := by
  simp [ruleFaults, leftFaults_eq_nil, strangers_eq_nil]

/-- Contents are complete just if nothing is wrong with them. -/
theorem complete_iff : c.Complete ↔ c.faults = [] := by
  have rules : (c.rules.zipIdx 1).flatMap (fun (rule, number) => c.ruleFaults number rule) = [] ↔
      ∀ rule ∈ c.rules, rule.left ∈ c.nonterminals ∧ (∀ name ∈ rule.right, name ∈ c.names) ∧
        ∀ name, rule.borrowed = some name → name ∈ c.terminals := by
    rw [List.flatMap_eq_nil_iff]
    simp only [ruleFaults_eq_nil]
    constructor
    · intro all rule member
      obtain ⟨place, found⟩ := List.mem_iff_getElem?.1 member
      exact all (rule, place + 1)
        (List.mem_zipIdx_iff_le_and_getElem?_sub.2 ⟨Nat.le_add_left .., by simpa using found⟩)
    · rintro all ⟨rule, number⟩ member
      exact all rule (List.fst_mem_of_mem_zipIdx member)
  have inhabited : strangers (c.rules.map (·.left)) c.nonterminals = [] ↔
      ∀ name ∈ c.nonterminals, ∃ rule ∈ c.rules, rule.left = name := by
    simp [strangers_eq_nil]
  simp only [faults, List.append_eq_nil_iff, List.map_eq_nil_iff, startFaults_eq_nil,
    @strangers_eq_nil c.terminals c.leveledNames, @strangers_eq_nil c.names c.typedNames, rules,
    inhabited]
  constructor
  · intro complete
    exact ⟨⟨⟨⟨complete.start, complete.leveled⟩, complete.typed⟩, fun rule member =>
      ⟨complete.left rule member, complete.right rule member, complete.borrowed rule member⟩⟩,
      complete.ruled⟩
  · rintro ⟨⟨⟨⟨start, leveled⟩, typed⟩, rules⟩, ruled⟩
    exact ⟨start, leveled, typed, fun rule member => (rules rule member).1,
      fun rule member => (rules rule member).2.1, fun rule member => (rules rule member).2.2, ruled⟩

/-- The first stranger among names is the first one that does not pass a test. -/
theorem head?_strangers {known names : List String} {fault : String → GrammarError}
    {test : String → Option GrammarError}
    (tests : ∀ name, test name = if name ∈ known then none else some (fault name)) :
    ((strangers known names).map fault).head? = names.findSome? test := by
  rw [strangers, List.head?_map, List.head?_filter]
  induction names with
  | nil => rfl
  | cons name rest ih =>
      rw [List.find?_cons, List.findSome?_cons, tests name, ← ih]
      by_cases member : name ∈ known <;> simp [member]

end Contents

/-- The error in which something has ended. -/
def faultOf {α : Type} : Except GrammarError α → Option GrammarError
  | .error fault => some fault
  | .ok _ => none

theorem faultOf_eq_some {α : Type} {outcome : Except GrammarError α} {fault : GrammarError} :
    faultOf outcome = some fault ↔ outcome = .error fault := by
  cases outcome <;> simp [faultOf]

theorem faultOf_eq_none {α : Type} {outcome : Except GrammarError α} :
    faultOf outcome = none ↔ ∃ value, outcome = .ok value := by
  cases outcome <;> simp [faultOf]

theorem faultOf_mapM {α β : Type} (resolve : α → Except GrammarError β) (inputs : List α) :
    faultOf (inputs.mapM resolve) = inputs.findSome? fun input => faultOf (resolve input) := by
  induction inputs with
  | nil => rfl
  | cons head tail ih =>
      rw [List.mapM_cons, List.findSome?_cons, ← ih]
      cases resolve head with
      | error fault => rfl
      | ok output => cases tail.mapM resolve <;> rfl

namespace Definition

variable {d : Definition} {calls : List Call}

theorem faultOf_resolveRule (number : ProductionId) (rule : Rule) :
    faultOf (d.resolveRule number rule) = (faultOf (d.resolveLeft number rule.left)).or
      ((faultOf (rule.right.mapM (d.resolveSymbol number))).or
        (faultOf (d.resolveBorrowed rule.borrowed))) := by
  unfold resolveRule
  cases d.resolveLeft number rule.left with
  | error fault => rfl
  | ok left =>
      cases rule.right.mapM (d.resolveSymbol number) with
      | error fault => rfl
      | ok right => cases d.resolveBorrowed rule.borrowed <;> rfl

/-- What the map of names has for a name, by the kind of symbol that was declared by it. -/
inductive Known (c : Contents) (name : String) : Option Symbol → Prop
  | terminal {t : TerminalId} (declared : name ∈ c.terminals) (apart : name ∉ c.nonterminals) :
      Known c name (some (.terminal t))
  | nonterminal {n : NonterminalId} (declared : name ∈ c.nonterminals)
      (apart : name ∉ c.terminals) : Known c name (some (.nonterminal n))
  | unknown (noTerminal : name ∉ c.terminals) (noNonterminal : name ∉ c.nonterminals) :
      Known c name none

section Recorded

variable (consistent : d.Consistent) (records : d.Records calls)

include consistent records

theorem known (name : String) : Known (Call.contents calls) name d.names[name]? := by
  have placed : ∀ {names : List String}, name ∈ names → ∃ place, names[place]? = some name :=
    List.mem_iff_getElem?.1
  have found : ∀ {symbol : Symbol} {place : Nat}, _ → d.names[name]? = some symbol :=
    fun {symbol place} here => (consistent.known_iff records).2 ⟨place, here⟩
  cases looked : d.names[name]? with
  | none =>
      have new := (consistent.unknown_iff records).1 looked
      rw [Contents.names, List.mem_append, not_or] at new
      exact .unknown new.1 new.2
  | some symbol =>
      obtain ⟨place, ⟨rfl, here⟩ | ⟨rfl, here⟩⟩ := (consistent.known_iff records).1 looked
      · refine .terminal (List.mem_of_getElem? here) fun again => ?_
        obtain ⟨other, there⟩ := placed again
        rw [found (.inr ⟨rfl, there⟩)] at looked
        cases looked
      · refine .nonterminal (List.mem_of_getElem? here) fun again => ?_
        obtain ⟨other, there⟩ := placed again
        rw [found (.inl ⟨rfl, there⟩)] at looked
        cases looked

/-! ## The phases of the end of a definition -/

theorem faultOf_resolveStart :
    faultOf d.resolveStart = (Call.contents calls).startFaults.head? := by
  unfold resolveStart Contents.startFaults
  rw [records.start]
  change _ = List.head? (match (calls.filterMap Call.start?).getLast? with
    | some name => _
    | none => _)
  cases (calls.filterMap Call.start?).getLast? with
  | some name =>
      have known := known consistent records name
      dsimp only
      generalize d.names[name]? = found at known ⊢
      cases known with
      | terminal _ apart => simp [faultOf, apart]
      | nonterminal declared _ => simp [faultOf, declared]
      | unknown _ noNonterminal => simp [faultOf, noNonterminal]
  | none =>
      rw [records.size_nonterminals]
      cases (Call.contents calls).nonterminals <;> simp [faultOf]

/-- Names with precedences are held to the same as those that rules borrow from. -/
theorem faultOf_resolveBorrowed (name : String) : faultOf (d.resolveBorrowed (some name)) =
    if name ∈ (Call.contents calls).terminals then none
    else some (.unknownPrecedenceSymbol name) := by
  have known := known consistent records name
  unfold resolveBorrowed
  dsimp only
  generalize d.names[name]? = found at known ⊢
  cases known with
  | terminal declared _ => simp [faultOf, declared]
  | nonterminal _ apart => simp [faultOf, apart]
  | unknown noTerminal _ => simp [faultOf, noTerminal]

theorem precedenceFault_eq : d.precedenceFault =
    ((Contents.strangers (Call.contents calls).terminals (Call.contents calls).leveledNames).map
      .unknownPrecedenceSymbol).head? := by
  rw [← records.leveledNames, Contents.head?_strangers (faultOf_resolveBorrowed consistent records),
    List.findSome?_map, precedenceFault]
  congr 1
  funext entry
  simp only [Function.comp, resolveBorrowed]
  rcases d.names[entry.1]? with _ | _ | _ <;> rfl

theorem valueTypeFault_eq : d.valueTypeFault =
    ((Contents.strangers (Call.contents calls).names (Call.contents calls).typedNames).map
      .unknownSymbol).head? := by
  have tests : ∀ name,
      (if d.names.contains name then none else some (GrammarError.unknownSymbol name)) =
        if name ∈ (Call.contents calls).names then none else some (.unknownSymbol name) := by
    intro name
    rw [Std.TreeMap.contains_eq_isSome_getElem?, Contents.names]
    have known := known consistent records name
    generalize d.names[name]? = found at known ⊢
    cases known with
    | terminal declared _ => simp [declared]
    | nonterminal declared _ => simp [declared]
    | unknown noTerminal noNonterminal => simp [noTerminal, noNonterminal]
  rw [← records.typedNames, Contents.head?_strangers tests, List.findSome?_map]
  rfl

theorem faultOf_resolveRule_eq (number : ProductionId) (rule : Rule) :
    faultOf (d.resolveRule number rule) =
      ((Call.contents calls).ruleFaults number rule).head? := by
  have left : faultOf (d.resolveLeft number rule.left) =
      ((Call.contents calls).leftFaults number rule.left).head? := by
    have known := known consistent records rule.left
    unfold resolveLeft Contents.leftFaults
    generalize d.names[rule.left]? = found at known ⊢
    cases known with
    | terminal declared apart => simp [faultOf, declared, apart]
    | nonterminal declared _ => simp [faultOf, declared]
    | unknown noTerminal noNonterminal => simp [faultOf, noTerminal, noNonterminal]
  have right : ∀ name, faultOf (d.resolveSymbol number name) =
      if name ∈ (Call.contents calls).names then none
      else some (.undeclaredSymbol name number) := by
    intro name
    have known := known consistent records name
    unfold resolveSymbol
    generalize d.names[name]? = found at known ⊢
    rw [Contents.names]
    cases known with
    | terminal declared _ => simp [faultOf, declared]
    | nonterminal declared _ => simp [faultOf, declared]
    | unknown noTerminal noNonterminal => simp [faultOf, noTerminal, noNonterminal]
  rw [faultOf_resolveRule, Contents.ruleFaults, List.append_assoc, List.head?_append,
    List.head?_append, left, faultOf_mapM, Contents.head?_strangers right,
    Contents.head?_strangers (faultOf_resolveBorrowed consistent records)]
  cases rule.borrowed with
  | none => rfl
  | some name => simp

theorem faultOf_resolveRules : faultOf d.resolveRules =
    ((Call.contents calls).rules.zipIdx 1).findSome? fun (rule, number) =>
      ((Call.contents calls).ruleFaults number rule).head? := by
  rw [resolveRules, faultOf_mapM, records.rules]
  simp only [faultOf_resolveRule_eq consistent records]
  rfl

/-- When the rules have resolved, a nonterminal has productions just if it has rules. -/
theorem exists_production_iff {start : NonterminalId} {rules : List Production}
    (resolved : d.resolveRules = .ok rules) {name : String} {n : NonterminalId}
    (listed : d.names[name]? = some (.nonterminal n)) :
    (∃ (p : ProductionId) (production : Production),
        (augmented start :: rules)[p]? = some production ∧ production.left = n) ↔
      name ∈ (Call.contents calls).rules.map (·.left) := by
  have user : n ≠ startNonterminal := (consistent.nonterminals.listed.1 listed).1
  have ruled : (Call.contents calls).rules = d.rules.toList := records.rules.symm
  have length : d.rules.size = rules.length := by
    simpa using (forall₂_of_mapM_ok resolved).length_eq
  rw [List.mem_map, ruled]
  constructor
  · rintro ⟨p, production, here, rfl⟩
    cases p with
    | zero =>
        cases here
        exact absurd rfl user
    | succ place =>
        obtain ⟨rule, there, outcome⟩ := (getElem?_resolveRules resolved).1 here
        exact ⟨rule, Array.mem_toList_iff.2 (Array.mem_of_getElem? there),
          consistent.name_unique (resolveRule_ok outcome).1 listed⟩
  · rintro ⟨rule, member, rfl⟩
    obtain ⟨place, there⟩ := List.mem_iff_getElem?.1 member
    rw [Array.getElem?_toList] at there
    have inside : place < rules.length := length ▸ (Array.getElem?_eq_some_iff.1 there).1
    have here := List.getElem?_eq_getElem inside
    obtain ⟨rule', there', outcome⟩ := (getElem?_resolveRules resolved).1 here
    rw [there] at there'
    cases there'
    have found := (resolveRule_ok outcome).1
    rw [listed] at found
    cases found
    exact ⟨place + 1, rules[place], here, rfl⟩

theorem groups_isEmpty (start : NonterminalId) {rules : List Production}
    (resolved : d.resolveRules = .ok rules) :
    (groupByLeft d.nonterminals.size (augmented start :: rules).toArray).toList.map
        (fun group : List ProductionId => group.isEmpty) =
      false :: (Call.contents calls).nonterminals.map fun name =>
        decide (name ∉ (Call.contents calls).rules.map (·.left)) := by
  set groups := groupByLeft d.nonterminals.size (augmented start :: rules).toArray with grouped
  have size : groups.size = (Call.contents calls).nonterminals.length + 1 := by
    rw [grouped, size_groupByLeft, records.size_nonterminals]
  have member : ∀ {n : NonterminalId} (inside : n < groups.size) {p : ProductionId},
      p ∈ groups[n] ↔
        ∃ production, (augmented start :: rules)[p]? = some production ∧ production.left = n := by
    intro n inside p
    have known := @mem_groupByLeft d.nonterminals.size (augmented start :: rules).toArray n p
    rw [← grouped, Array.getElem?_eq_getElem inside, Option.getD_some, and_iff_right
      (by rwa [grouped, size_groupByLeft] at inside), List.getElem?_toArray] at known
    exact known
  apply List.ext_getElem
  · simp [size]
  · intro n inside inside'
    rw [List.length_map, Array.length_toList] at inside
    rw [List.getElem_map, Array.getElem_toList]
    cases n with
    | zero =>
        have first : acceptProduction ∈ groups[0] := (member inside).2 ⟨augmented start, rfl, rfl⟩
        rw [List.getElem_cons_zero, List.isEmpty_eq_false_iff]
        exact List.ne_nil_of_mem first
    | succ place =>
        have here : place < (Call.contents calls).nonterminals.length := by omega
        have listed : d.names[(Call.contents calls).nonterminals[place]]? =
            some (.nonterminal (place + 1)) :=
          (consistent.known_iff records).2 ⟨place, .inr ⟨rfl, List.getElem?_eq_getElem here⟩⟩
        rw [List.getElem_cons_succ, List.getElem_map, Bool.eq_iff_iff, List.isEmpty_iff,
          decide_eq_true_iff, List.eq_nil_iff_forall_not_mem,
          ← exists_production_iff consistent records resolved listed, not_exists]
        exact forall_congr' fun p => not_congr (member inside)

/-- The first nonterminal without productions is the first one without rules. -/
theorem noProductions_eq (start : NonterminalId) {rules : List Production}
    (resolved : d.resolveRules = .ok rules) :
    ((groupByLeft d.nonterminals.size (augmented start :: rules).toArray).findIdx?
        (·.isEmpty)).map (fun n => GrammarError.noProductions (d.nonterminals[n]?.getD "")) =
      ((Contents.strangers ((Call.contents calls).rules.map (·.left))
        (Call.contents calls).nonterminals).map .noProductions).head? := by
  have empty := groups_isEmpty consistent records start resolved
  generalize groupByLeft d.nonterminals.size (augmented start :: rules).toArray = groups at empty ⊢
  have found : groups.findIdx? (·.isEmpty) = (groups.toList.map (·.isEmpty)).findIdx? id := by
    rw [List.findIdx?_map, ← List.findIdx?_toArray]
    rfl
  rw [found, empty, List.findIdx?_cons, if_neg (by simp), List.findIdx?_map, List.head?_map,
    Contents.strangers, List.head?_filter, List.find?_eq_bind_findIdx?_getElem?, Option.map_map,
    Function.id_comp]
  cases vacant : (Call.contents calls).nonterminals.findIdx? fun name =>
      decide (name ∉ (Call.contents calls).rules.map (·.left)) with
  | none => rfl
  | some place =>
      obtain ⟨inside, _⟩ := List.findIdx?_eq_some_iff_getElem.1 vacant
      simp [records.nonterminals_succ, inside]

/-- The end of a definition reports the first fault of what the calls say. -/
theorem faultOf_finish : faultOf d.finish = (Call.contents calls).faults.head? := by
  have start := faultOf_resolveStart consistent records
  have precedences := precedenceFault_eq consistent records
  have valueTypes := valueTypeFault_eq consistent records
  have rules := faultOf_resolveRules consistent records
  simp only [Contents.faults, List.head?_append, List.head?_flatMap, ← start, ← precedences,
    ← valueTypes, ← rules]
  unfold finish
  cases d.resolveStart with
  | error fault => rfl
  | ok start =>
      cases d.precedenceFault with
      | some fault => rfl
      | none =>
          cases d.valueTypeFault with
          | some fault => rfl
          | none =>
              cases resolved : d.resolveRules with
              | error fault => rfl
              | ok rules =>
                  rw [← noProductions_eq consistent records start resolved]
                  simp only [faultOf, bind, Except.bind, pure, Except.pure]
                  cases (groupByLeft d.nonterminals.size (augmented start :: rules).toArray).findIdx?
                      fun group : List ProductionId => group.isEmpty with
                  | none => rfl
                  | some n => rfl

end Recorded

end Definition

end Lalr
