import Lalr.Proofs.Grammar.Declared
import Lalr.Proofs.Grammar.Lawful
import Mathlib.Data.List.Nodup

/-!
# Calls of different kinds may be interleaved in any way

Whether the calls of a definition succeed, which numbers they answer with, and what the definition
ends in depends on the calls of each kind and their order, but not on how calls of different kinds
are interleaved.

`Contents` holds what calls say, kind by kind.  A call succeeds just if the contents of the calls
before it admit it, and all calls succeed just if their contents are compatible.  Compatibility is
about finished contents: the names of terminals and nonterminals are compared with each other, but
it does not matter which came first.
-/

namespace Lalr

namespace Call

/-- The kinds of calls. -/
inductive Kind where
  | terminal
  | nonterminal
  | precedence
  | valueType
  | rule
  | start
  deriving DecidableEq

/-- The number with which a call of the kind answers when `place` others have come before. -/
def Kind.number? (place : Nat) : Kind → Option Nat
  | .terminal | .nonterminal | .rule => some (place + 1)
  | .precedence | .valueType | .start => none

def kind : Call → Kind
  | .terminal _ => .terminal
  | .nonterminal _ => .nonterminal
  | .precedence _ _ => .precedence
  | .valueType _ _ => .valueType
  | .rule _ _ _ => .rule
  | .start _ => .start

end Call

/-- What calls say, kind by kind. -/
structure Contents where
  terminals : List String
  nonterminals : List String
  groups : List (Associativity × List String)
  valueTypes : List (String × String)
  rules : List Rule
  starts : List String

namespace Contents

/-- All names of symbols. -/
def names (c : Contents) : List String := c.terminals ++ c.nonterminals

/-- The names with precedences. -/
def leveledNames (c : Contents) : List String := c.groups.flatMap (·.2)

/-- The names with value types. -/
def typedNames (c : Contents) : List String := c.valueTypes.map (·.1)

/-- The rules but for the precedences that they borrow. -/
def ruleKeys (c : Contents) : List (List String) := c.rules.map fun rule => rule.left :: rule.right

def add (c : Contents) : Call → Contents
  | .terminal name => { c with terminals := c.terminals ++ [name] }
  | .nonterminal name => { c with nonterminals := c.nonterminals ++ [name] }
  | .precedence associativity names => { c with groups := c.groups ++ [(associativity, names)] }
  | .valueType symbol tag => { c with valueTypes := c.valueTypes ++ [(symbol, tag)] }
  | .rule left right borrowed => { c with rules := c.rules ++ [⟨left, right, borrowed⟩] }
  | .start name => { c with starts := c.starts ++ [name] }

/-- How many calls of a kind there were. -/
def count (c : Contents) : Call.Kind → Nat
  | .terminal => c.terminals.length
  | .nonterminal => c.nonterminals.length
  | .precedence => c.groups.length
  | .valueType => c.valueTypes.length
  | .rule => c.rules.length
  | .start => c.starts.length

/-- Nothing stands in the way of a further call. -/
def Admits (c : Contents) : Call → Prop
  | .terminal name =>
      (IsUserName name ∧ name ∉ c.names) ∧ c.terminals.length < numberLimit
  | .nonterminal name =>
      (IsUserName name ∧ name ∉ c.names) ∧ c.nonterminals.length < numberLimit
  | .precedence _ names =>
      c.groups.length ≤ numberLimit ∧ names.Nodup ∧ ∀ name ∈ names, name ∉ c.leveledNames
  | .valueType symbol _ => symbol ∉ c.typedNames
  | .rule left right _ =>
      c.rules.length < numberLimit ∧ right.length ≤ numberLimit ∧ left :: right ∉ c.ruleKeys
  | .start _ => True

/-- Nothing in the contents stands in the way of anything else. -/
structure Compatible (c : Contents) : Prop where
  names : c.names.Nodup
  user : ∀ name ∈ c.names, IsUserName name
  terminals : c.terminals.length ≤ numberLimit
  nonterminals : c.nonterminals.length ≤ numberLimit
  groups : c.groups.length ≤ numberLimit + 1
  leveled : c.leveledNames.Nodup
  typed : c.typedNames.Nodup
  rules : c.rules.length ≤ numberLimit
  lengths : ∀ rule ∈ c.rules, rule.right.length ≤ numberLimit
  keys : c.ruleKeys.Nodup

variable {c : Contents}

theorem names_add_terminal (name : String) :
    (c.add (.terminal name)).names.Perm (name :: c.names) := by
  simp only [names, add, List.append_assoc, List.singleton_append]
  exact List.perm_middle

theorem names_add_nonterminal (name : String) :
    (c.add (.nonterminal name)).names.Perm (name :: c.names) := by
  simp only [names, add, ← List.append_assoc]
  exact List.perm_append_singleton _ _

theorem length_concat_le {α : Type} {entries : List α} {entry : α} {limit : Nat} :
    (entries ++ [entry]).length ≤ limit ↔ entries.length < limit := by
  rw [List.length_append]
  exact Nat.succ_le_iff

theorem names_insert {names : List String} {name : String} (more : names.Perm (name :: c.names)) :
    (names.Nodup ∧ ∀ other ∈ names, IsUserName other) ↔
      (c.names.Nodup ∧ ∀ other ∈ c.names, IsUserName other) ∧ IsUserName name ∧ name ∉ c.names := by
  rw [more.nodup_iff, List.nodup_cons]
  simp only [more.mem_iff, List.forall_mem_cons]
  tauto

theorem compatible_add_terminal (name : String) :
    (c.add (.terminal name)).Compatible ↔ c.Compatible ∧ c.Admits (.terminal name) := by
  have naming := names_insert (names_add_terminal (c := c) name)
  constructor
  · intro compatible
    obtain ⟨⟨names, user⟩, new⟩ := naming.1 ⟨compatible.names, compatible.user⟩
    have room : c.terminals.length < numberLimit := length_concat_le.1 compatible.terminals
    exact ⟨{ compatible with names, user, terminals := Nat.le_of_lt room }, new, room⟩
  · rintro ⟨compatible, new, room⟩
    obtain ⟨names, user⟩ := naming.2 ⟨⟨compatible.names, compatible.user⟩, new⟩
    exact { compatible with
      names, user
      terminals := length_concat_le.2 room }

theorem compatible_add_nonterminal (name : String) :
    (c.add (.nonterminal name)).Compatible ↔ c.Compatible ∧ c.Admits (.nonterminal name) := by
  have naming := names_insert (names_add_nonterminal (c := c) name)
  constructor
  · intro compatible
    obtain ⟨⟨names, user⟩, new⟩ := naming.1 ⟨compatible.names, compatible.user⟩
    have room : c.nonterminals.length < numberLimit := length_concat_le.1 compatible.nonterminals
    exact ⟨{ compatible with names, user, nonterminals := Nat.le_of_lt room }, new, room⟩
  · rintro ⟨compatible, new, room⟩
    obtain ⟨names, user⟩ := naming.2 ⟨⟨compatible.names, compatible.user⟩, new⟩
    exact { compatible with
      names, user
      nonterminals := length_concat_le.2 room }

theorem compatible_add_precedence (associativity : Associativity) (names : List String) :
    (c.add (.precedence associativity names)).Compatible ↔
      c.Compatible ∧ c.Admits (.precedence associativity names) := by
  have leveled : (c.add (.precedence associativity names)).leveledNames.Nodup ↔
      c.leveledNames.Nodup ∧ names.Nodup ∧ ∀ name ∈ names, name ∉ c.leveledNames := by
    rw [← List.disjoint_right, ← List.nodup_append']
    simp [leveledNames, add]
  constructor
  · intro compatible
    obtain ⟨old, new⟩ := leveled.1 compatible.leveled
    have room : c.groups.length ≤ numberLimit := by simpa [add] using compatible.groups
    exact ⟨{ compatible with groups := Nat.le_succ_of_le room, leveled := old }, room, new⟩
  · rintro ⟨compatible, room, new⟩
    exact { compatible with
      groups := by simpa [add] using room
      leveled := leveled.2 ⟨compatible.leveled, new⟩ }

theorem compatible_add_valueType (symbol tag : String) :
    (c.add (.valueType symbol tag)).Compatible ↔
      c.Compatible ∧ c.Admits (.valueType symbol tag) := by
  have typed : (c.add (.valueType symbol tag)).typedNames.Nodup ↔
      symbol ∉ c.typedNames ∧ c.typedNames.Nodup := by
    rw [← List.nodup_concat, List.concat_eq_append]
    simp [typedNames, add]
  constructor
  · intro compatible
    obtain ⟨new, old⟩ := typed.1 compatible.typed
    exact ⟨{ compatible with typed := old }, new⟩
  · rintro ⟨compatible, new⟩
    exact { compatible with typed := typed.2 ⟨new, compatible.typed⟩ }

theorem compatible_add_rule (left : String) (right : List String) (borrowed : Option String) :
    (c.add (.rule left right borrowed)).Compatible ↔
      c.Compatible ∧ c.Admits (.rule left right borrowed) := by
  have keys : (c.add (.rule left right borrowed)).ruleKeys.Nodup ↔
      left :: right ∉ c.ruleKeys ∧ c.ruleKeys.Nodup := by
    rw [← List.nodup_concat, List.concat_eq_append]
    simp [ruleKeys, add]
  have lengths : (∀ rule ∈ (c.add (.rule left right borrowed)).rules,
      rule.right.length ≤ numberLimit) ↔
        (∀ rule ∈ c.rules, rule.right.length ≤ numberLimit) ∧ right.length ≤ numberLimit := by
    simp [add, or_imp, forall_and]
  constructor
  · intro compatible
    obtain ⟨new, old⟩ := keys.1 compatible.keys
    obtain ⟨others, short⟩ := lengths.1 compatible.lengths
    have room : c.rules.length < numberLimit := length_concat_le.1 compatible.rules
    exact ⟨{ compatible with rules := Nat.le_of_lt room, lengths := others, keys := old },
      room, short, new⟩
  · rintro ⟨compatible, room, short, new⟩
    exact { compatible with
      rules := length_concat_le.2 room
      lengths := lengths.2 ⟨compatible.lengths, short⟩
      keys := keys.2 ⟨new, compatible.keys⟩ }

/-- Contents remain compatible just with what they admit. -/
theorem compatible_add (next : Call) : (c.add next).Compatible ↔ c.Compatible ∧ c.Admits next := by
  cases next with
  | terminal name => exact compatible_add_terminal name
  | nonterminal name => exact compatible_add_nonterminal name
  | precedence associativity names => exact compatible_add_precedence associativity names
  | valueType symbol tag => exact compatible_add_valueType symbol tag
  | rule left right borrowed => exact compatible_add_rule left right borrowed
  | start name =>
      exact ⟨fun compatible => ⟨{ compatible with }, trivial⟩, fun both => { both.1 with }⟩

end Contents

namespace Call

def contents (calls : List Call) : Contents where
  terminals := calls.filterMap terminal?
  nonterminals := calls.filterMap nonterminal?
  groups := calls.filterMap precedence?
  valueTypes := calls.filterMap valueType?
  rules := calls.filterMap rule?
  starts := calls.filterMap start?

theorem contents_concat (calls : List Call) (next : Call) :
    contents (calls ++ [next]) = (contents calls).add next := by
  cases next <;>
    simp [contents, Contents.add, terminal?, nonterminal?, precedence?, valueType?, rule?, start?]

theorem compatible_contents_nil : (contents []).Compatible := by
  constructor <;> simp [contents, Contents.names, Contents.leveledNames, Contents.typedNames,
    Contents.ruleKeys]

theorem count_contents (calls : List Call) (kind : Kind) :
    (contents calls).count kind = (calls.filter (·.kind = kind)).length := by
  induction calls using List.reverseRecOn with
  | nil => cases kind <;> rfl
  | append_singleton front last ih =>
      rw [contents_concat, List.filter_append, List.length_append, ← ih]
      cases last <;> cases kind <;> simp [Contents.count, Contents.add, Call.kind]

/-- What calls of one kind say is found among the calls of that kind. -/
theorem filterMap_filter_kind {α : Type} {reading : Call → Option α} {kind : Kind}
    (other : ∀ call, call.kind ≠ kind → reading call = none) (calls : List Call) :
    (calls.filter (·.kind = kind)).filterMap reading = calls.filterMap reading := by
  rw [List.filterMap_filter]
  apply List.filterMap_congr
  intro call _
  by_cases here : call.kind = kind
  · simp [here]
  · simp [here, other call here]

/-- Calls with the same sequence of each kind say the same. -/
theorem contents_congr {calls calls' : List Call}
    (same : ∀ kind, calls.filter (·.kind = kind) = calls'.filter (·.kind = kind)) :
    contents calls = contents calls' := by
  have read : ∀ {α : Type} {reading : Call → Option α} (kind : Kind),
      (∀ call, call.kind ≠ kind → reading call = none) →
        calls.filterMap reading = calls'.filterMap reading := by
    intro α reading kind other
    rw [← filterMap_filter_kind other calls, same, filterMap_filter_kind other]
  unfold contents
  rw [Contents.mk.injEq]
  refine ⟨read .terminal ?_, read .nonterminal ?_, read .precedence ?_, read .valueType ?_,
    read .rule ?_, read .start ?_⟩
  all_goals
    intro call other
    cases call <;> first | rfl | exact absurd rfl other

end Call

namespace Definition

variable {d e : Definition} {calls calls' : List Call}

namespace Records

/-! The reserved symbols come before those that are declared. -/

theorem size_terminals (records : d.Records calls) :
    d.terminals.size = (Call.contents calls).terminals.length + 1 := by
  rw [← Array.length_toList, records.terminals]
  rfl

theorem size_nonterminals (records : d.Records calls) :
    d.nonterminals.size = (Call.contents calls).nonterminals.length + 1 := by
  rw [← Array.length_toList, records.nonterminals]
  rfl

theorem size_rules (records : d.Records calls) :
    d.rules.size = (Call.contents calls).rules.length := by
  rw [← Array.length_toList, records.rules]
  rfl

theorem terminals_succ (records : d.Records calls) (place : Nat) :
    d.terminals[place + 1]? = (Call.contents calls).terminals[place]? := by
  rw [← Array.getElem?_toList, records.terminals]
  rfl

theorem nonterminals_succ (records : d.Records calls) (place : Nat) :
    d.nonterminals[place + 1]? = (Call.contents calls).nonterminals[place]? := by
  rw [← Array.getElem?_toList, records.nonterminals]
  rfl

theorem typedNames (records : d.Records calls) :
    d.valueTypes.map (·.1) = (Call.contents calls).typedNames := by
  rw [records.valueTypes]
  rfl

end Records

/-- A name is known just if a symbol was declared by it, and then by the symbol's place. -/
theorem Consistent.known_iff (consistent : d.Consistent) (records : d.Records calls)
    {name : String} {symbol : Symbol} : d.names[name]? = some symbol ↔ ∃ place,
      symbol = .terminal (place + 1) ∧ (Call.contents calls).terminals[place]? = some name ∨
      symbol = .nonterminal (place + 1) ∧
        (Call.contents calls).nonterminals[place]? = some name := by
  have place : ∀ {names : List String} {entries : Array String} {first : String} {id : Nat},
      entries.toList = first :: names → (id ≠ 0 ∧ entries[id]? = some name ↔
        ∃ place, id = place + 1 ∧ names[place]? = some name) := by
    intro names entries first id listed
    cases id <;> simp [← Array.getElem?_toList, listed]
  cases symbol with
  | terminal t =>
      rw [consistent.terminals.listed, place records.terminals]
      simp [Call.contents]
  | nonterminal n =>
      rw [consistent.nonterminals.listed, place records.nonterminals]
      simp [Call.contents]

theorem Consistent.unknown_iff (consistent : d.Consistent) (records : d.Records calls)
    {name : String} : d.names[name]? = none ↔ name ∉ (Call.contents calls).names := by
  rw [Option.eq_none_iff_forall_ne_some, Contents.names, List.mem_append, List.mem_iff_getElem?,
    List.mem_iff_getElem?, not_or, not_exists, not_exists]
  constructor
  · intro unknown
    constructor
    · intro place found
      exact unknown _ ((consistent.known_iff records).2 ⟨place, .inl ⟨rfl, found⟩⟩)
    · intro place found
      exact unknown _ ((consistent.known_iff records).2 ⟨place, .inr ⟨rfl, found⟩⟩)
  · rintro ⟨terminals, nonterminals⟩ symbol known
    obtain ⟨place, ⟨-, found⟩ | ⟨-, found⟩⟩ := (consistent.known_iff records).1 known
    · exact terminals place found
    · exact nonterminals place found

/-- Precedences are assigned to names that differ and have none yet. -/
theorem assignPrecedence_ok_iff {precedence : Precedence} {names : List String}
    {assigned : List (String × Precedence)} {number : Option Nat} :
    (assignPrecedence precedence names assigned).1 = .ok number ↔
      (names.Nodup ∧ ∀ name ∈ names, name ∉ assigned.map (·.1)) ∧ number = none := by
  induction names generalizing assigned with
  | nil => simp [assignPrecedence, eq_comm]
  | cons name rest ih =>
      unfold assignPrecedence
      by_cases known : name ∈ assigned.map (·.1)
      · rw [if_pos (by simpa using known), List.forall_mem_cons]
        simp only [reduceCtorEq, false_iff]
        exact fun all => all.1.2.1 known
      · rw [if_neg (by simpa using known), ih, List.nodup_cons, List.forall_mem_cons]
        have parted : (∀ other ∈ rest, other ∉ (assigned ++ [(name, precedence)]).map (·.1)) ↔
            name ∉ rest ∧ ∀ other ∈ rest, other ∉ assigned.map (·.1) := by
          simp only [List.map_append, List.map_cons, List.map_nil, List.mem_append,
            List.mem_singleton, not_or]
          constructor
          · intro all
            exact ⟨fun member => (all name member).2 rfl, fun other member => (all other member).1⟩
          · rintro ⟨new, apart⟩ other member
            exact ⟨apart other member, fun again => new (again ▸ member)⟩
        rw [parted]
        tauto

theorem declareTerminal_ok_iff {name : String} {number : Option Nat} :
    (d.declareTerminal name).1 = .ok number ↔
      (d.nameFault name = none ∧ d.terminals.size ≤ numberLimit) ∧
        number = some d.terminals.size := by
  unfold declareTerminal
  cases d.nameFault name with
  | some fault => simp
  | none =>
      dsimp only
      split
      · next full => simp [Nat.not_le.2 full]
      · next room => simp [Nat.le_of_not_lt room, eq_comm]

theorem declareNonterminal_ok_iff {name : String} {number : Option Nat} :
    (d.declareNonterminal name).1 = .ok number ↔
      (d.nameFault name = none ∧ d.nonterminals.size ≤ numberLimit) ∧
        number = some d.nonterminals.size := by
  unfold declareNonterminal
  cases d.nameFault name with
  | some fault => simp
  | none =>
      dsimp only
      split
      · next full => simp [Nat.not_le.2 full]
      · next room => simp [Nat.le_of_not_lt room, eq_comm]

theorem declareRule_ok_iff {rule : Rule} {number : Option Nat} :
    (d.declareRule rule).1 = .ok number ↔
      (d.rules.size < numberLimit ∧ rule.right.length ≤ numberLimit ∧
        d.ruleNumbers[rule.left :: rule.right]? = none) ∧ number = some (d.rules.size + 1) := by
  unfold declareRule
  dsimp only
  split
  · next full => simp [Nat.not_lt.2 (Nat.lt_succ_iff.1 full)]
  · next room =>
      split
      · next long => simp [Nat.not_le.2 long]
      · next short =>
          split
          · next previous found => simp [found]
          · next unknown =>
              simp [unknown, Nat.le_of_not_lt short, Nat.lt_iff_add_one_le, Nat.le_of_not_lt room,
                eq_comm]

/-- The number of a rule is known just if the rule is there. -/
theorem Consistent.rule_unknown_iff (consistent : d.Consistent) (records : d.Records calls)
    {key : List String} :
    d.ruleNumbers[key]? = none ↔ key ∉ (Call.contents calls).ruleKeys := by
  rw [Option.eq_none_iff_forall_ne_some, Contents.ruleKeys, List.mem_map]
  constructor
  · rintro unknown ⟨rule, member, keyed⟩
    obtain ⟨place, found⟩ := List.mem_iff_getElem?.1 member
    rw [Call.contents, ← records.rules, Array.getElem?_toList] at found
    exact unknown _ (consistent.ruleNumbers.2 ⟨place, rule, found, keyed, rfl⟩)
  · intro new number known
    obtain ⟨place, rule, found, keyed, -⟩ := consistent.ruleNumbers.1 known
    refine new ⟨rule, ?_, keyed⟩
    rw [Call.contents, ← records.rules]
    exact Array.mem_toList_iff.2 (Array.mem_of_getElem? found)

theorem map_fst_leveled (groups : List (Associativity × List String)) :
    (leveled groups).map (·.1) = groups.flatMap (·.2) := by
  induction groups using List.reverseRecOn with
  | nil => rfl
  | append_singleton front last ih =>
      rw [leveled_concat, List.map_append, ih, List.flatMap_append]
      simp [Function.comp_def]

theorem Records.leveledNames (records : d.Records calls) :
    d.precedences.map (·.1) = (Call.contents calls).leveledNames := by
  rw [records.precedences, map_fst_leveled]
  rfl

/-- A call succeeds just if the contents of the earlier ones admit it, and then with its number. -/
theorem Consistent.call_ok_iff (consistent : d.Consistent) (records : d.Records calls)
    {next : Call} {number : Option Nat} : (d.call next).1 = .ok number ↔
      (Call.contents calls).Admits next ∧
        number = next.kind.number? ((Call.contents calls).count next.kind) := by
  cases next with
  | terminal name =>
      rw [Definition.call, declareTerminal_ok_iff, nameFault_eq_none,
        consistent.unknown_iff records, records.size_terminals]
      rfl
  | nonterminal name =>
      rw [Definition.call, declareNonterminal_ok_iff, nameFault_eq_none,
        consistent.unknown_iff records, records.size_nonterminals]
      rfl
  | precedence associativity names =>
      rw [Definition.call, Definition.declarePrecedence, records.levels]
      split
      · next full => simp [Contents.Admits, Call.contents, Nat.not_le.2 full]
      · next room =>
          dsimp only
          rw [assignPrecedence_ok_iff, records.leveledNames]
          exact and_congr_left fun _ => (and_iff_right (Nat.le_of_not_lt room)).symm
  | valueType symbol tag =>
      have typed : d.valueTypes.any (·.1 == symbol) = true ↔
          symbol ∈ (Call.contents calls).typedNames := by
        rw [← records.typedNames]
        simp
      rw [Definition.call, declareValueType]
      by_cases known : symbol ∈ (Call.contents calls).typedNames
      · rw [if_pos (typed.2 known)]
        simp [Contents.Admits, known]
      · rw [if_neg (mt typed.1 known)]
        simp [Contents.Admits, Call.kind, Call.Kind.number?, known, eq_comm]
  | rule left right borrowed =>
      rw [Definition.call, declareRule_ok_iff, consistent.rule_unknown_iff records,
        records.size_rules]
      rfl
  | start name => simp [Definition.call, Contents.Admits, Call.kind, Call.Kind.number?, eq_comm]

/-! ## All calls -/

theorem perform_cons (d : Definition) (next : Call) (rest : List Call) :
    (perform true d ((next :: rest).map ([·]))).1 =
      (d.call next).1 :: (perform true (d.call next).2 (rest.map ([·]))).1 := by
  simp only [List.map_cons, perform, run_singleton]
  cases d.call next with
  | mk answer e => cases answer <;> rfl

theorem perform_concat (d : Definition) (calls : List Call) (next : Call) :
    (perform true d ((calls ++ [next]).map ([·]))).1 =
      (perform true d (calls.map ([·]))).1 ++ [((d.after calls).call next).1] := by
  induction calls generalizing d with
  | nil => exact perform_cons d next []
  | cons first rest ih =>
      rw [List.cons_append, perform_cons, perform_cons, ih, List.cons_append]
      rfl

theorem after_concat (d : Definition) (calls : List Call) (next : Call) :
    d.after (calls ++ [next]) = ((d.after calls).call next).2 := by
  rw [after, List.foldl_append]
  rfl

theorem run_of_perform
    (succeeded : ∀ answer ∈ (perform true d (calls.map ([·]))).1, ∃ number, answer = .ok number) :
    ∃ number, d.run calls = (.ok number, d.after calls) := by
  induction calls generalizing d with
  | nil => exact ⟨none, rfl⟩
  | cons next rest ih =>
      rw [perform_cons, List.forall_mem_cons] at succeeded
      obtain ⟨⟨number, answered⟩, others⟩ := succeeded
      by_cases last : rest = []
      · subst last
        exact ⟨number, Prod.ext answered rfl⟩
      · obtain ⟨final, ran⟩ := ih others
        refine ⟨final, ?_⟩
        have called : d.call next = (.ok number, (d.call next).2) := Prod.ext answered rfl
        rw [run_cons d next rest last, called]
        exact ran

/-- All calls succeed just if their contents are compatible; and then all are recorded. -/
theorem all_ok_iff (calls : List Call) :
    ((∀ answer ∈ (perform true empty (calls.map ([·]))).1, ∃ number, answer = .ok number) ↔
      (Call.contents calls).Compatible) ∧
    ((Call.contents calls).Compatible → (empty.after calls).Records calls) := by
  induction calls using List.reverseRecOn with
  | nil =>
      have nothing : ∀ answer ∈ (perform true empty (([] : List Call).map ([·]))).1,
          ∃ number, answer = .ok number := fun _ member => nomatch member
      exact ⟨iff_of_true nothing Call.compatible_contents_nil, fun _ => records_empty⟩
  | append_singleton front last ih =>
      obtain ⟨earlier, recorded⟩ := ih
      have admitted : (Call.contents front).Compatible →
          ((∃ number, ((empty.after front).call last).1 = .ok number) ↔
            (Call.contents front).Admits last) := by
        intro compatible
        simp only [(consistent_empty.after front).call_ok_iff (recorded compatible),
          exists_and_left, exists_eq, and_true]
      rw [Call.contents_concat, Contents.compatible_add, perform_concat, List.forall_mem_append,
        earlier, List.forall_mem_singleton, after_concat]
      refine ⟨and_congr_right admitted, ?_⟩
      rintro ⟨compatible, admits⟩
      obtain ⟨number, answered⟩ := (admitted compatible).2 admits
      exact (recorded compatible).call (Prod.ext answered rfl)

/-! ## The end of the definition -/

/-- A definition ends in what it says under the names that it knows. -/
theorem finish_congr (terminals : d.terminals = e.terminals)
    (nonterminals : d.nonterminals = e.nonterminals) (precedences : d.precedences = e.precedences)
    (valueTypes : d.valueTypes = e.valueTypes) (rules : d.rules = e.rules)
    (start : d.start = e.start) (names : ∀ name : String, d.names[name]? = e.names[name]?) :
    d.finish = e.finish := by
  have resolveStart : d.resolveStart = e.resolveStart := by
    simp only [resolveStart, start, nonterminals, names]
  have precedenceFault : d.precedenceFault = e.precedenceFault := by
    simp only [precedenceFault, precedences, names]
  have valueTypeFault : d.valueTypeFault = e.valueTypeFault := by
    simp only [valueTypeFault, valueTypes, Std.TreeMap.contains_eq_isSome_getElem?, names]
  have resolveRule : d.resolveRule = e.resolveRule := by
    funext number rule
    have resolveSymbol : d.resolveSymbol number = e.resolveSymbol number := by
      funext name
      simp only [Definition.resolveSymbol, names]
    simp only [Definition.resolveRule, resolveLeft, resolveSymbol, resolveBorrowed, precedences,
      names]
  have resolveRules : d.resolveRules = e.resolveRules := by
    simp only [resolveRules, rules, resolveRule]
  have resolvedTerminals : d.resolvedTerminals = e.resolvedTerminals := by
    simp only [resolvedTerminals, terminals, precedences, valueTypes]
  have resolvedNonterminals : d.resolvedNonterminals = e.resolvedNonterminals := by
    simp only [resolvedNonterminals, nonterminals, valueTypes]
  simp only [finish, resolveStart, precedenceFault, valueTypeFault, resolveRules, nonterminals,
    resolvedTerminals, resolvedNonterminals]

/-- Two records of the same contents end alike. -/
theorem Records.finish_eq (records : d.Records calls) (records' : e.Records calls')
    (consistent : d.Consistent) (consistent' : e.Consistent)
    (same : Call.contents calls = Call.contents calls') : d.finish = e.finish := by
  obtain ⟨terminals, nonterminals, groups, valueTypes, rules, starts⟩ := Contents.mk.inj same
  apply finish_congr
  · rw [← Array.toList_inj, records.terminals, records'.terminals, terminals]
  · rw [← Array.toList_inj, records.nonterminals, records'.nonterminals, nonterminals]
  · rw [records.precedences, records'.precedences, groups]
  · rw [records.valueTypes, records'.valueTypes, valueTypes]
  · rw [← Array.toList_inj, records.rules, records'.rules, rules]
  · rw [records.start, records'.start, starts]
  · intro name
    apply Option.ext
    intro symbol
    rw [consistent.known_iff records, consistent'.known_iff records', same]

end Definition

namespace Grammar

/-- The calls with their answers, failed calls being passed over. -/
def answered (calls : List Call) : List (Call × Answer) := calls.zip (defineLeniently calls).1

theorem length_answers (calls : List Call) : (defineLeniently calls).1.length = calls.length := by
  induction calls using List.reverseRecOn with
  | nil => rfl
  | append_singleton front last ih =>
      rw [defineLeniently, Definition.perform_concat, List.length_append, List.length_append]
      exact congrArg (· + 1) ih

theorem answered_concat (calls : List Call) (next : Call) : answered (calls ++ [next]) =
    answered calls ++ [(next, ((Definition.empty.after calls).call next).1)] := by
  rw [answered, defineLeniently, Definition.perform_concat]
  exact List.zip_append (length_answers calls).symm

/-- Successful calls of a kind are numbered in their order. -/
theorem answered_of_compatible {calls : List Call} (compatible : (Call.contents calls).Compatible)
    (kind : Call.Kind) : (answered calls).filter (·.1.kind = kind) =
      (calls.filter (·.kind = kind)).zipIdx.map fun (call, place) =>
        (call, .ok (kind.number? place)) := by
  induction calls using List.reverseRecOn with
  | nil => rfl
  | append_singleton front last ih =>
      rw [Call.contents_concat, Contents.compatible_add] at compatible
      obtain ⟨earlier, admits⟩ := compatible
      have records := (Definition.all_ok_iff front).2 earlier
      have answer := ((Definition.consistent_empty.after front).call_ok_iff records).2 ⟨admits, rfl⟩
      rw [answered_concat, List.filter_append, List.filter_append, ih earlier, List.zipIdx_append,
        List.map_append, answer, Call.count_contents]
      by_cases here : last.kind = kind
      · simp [here]
      · simp [here]

theorem define_of_compatible {calls : List Call} (compatible : (Call.contents calls).Compatible) :
    define calls = (Definition.empty.after calls).finish := by
  obtain ⟨number, ran⟩ :=
    Definition.run_of_perform ((Definition.all_ok_iff calls).1.2 compatible)
  rw [define, ran]

end Grammar

/-- It does not matter how calls of different kinds are interleaved. -/
theorem interleaving_is_immaterial {calls calls' : List Call}
    (same : ∀ kind, calls.filter (·.kind = kind) = calls'.filter (·.kind = kind))
    (succeeded : ∀ answer ∈ (Grammar.defineLeniently calls).1, ∃ number, answer = .ok number) :
    (∀ answer ∈ (Grammar.defineLeniently calls').1, ∃ number, answer = .ok number) ∧
      (∀ kind, (Grammar.answered calls').filter (·.1.kind = kind) =
        (Grammar.answered calls).filter (·.1.kind = kind)) ∧
      Grammar.define calls' = Grammar.define calls := by
  have compatible := (Definition.all_ok_iff calls).1.1 succeeded
  have contents := Call.contents_congr same
  have compatible' := contents ▸ compatible
  refine ⟨(Definition.all_ok_iff calls').1.2 compatible', ?_, ?_⟩
  · intro kind
    rw [Grammar.answered_of_compatible compatible', Grammar.answered_of_compatible compatible, same]
  · rw [Grammar.define_of_compatible compatible', Grammar.define_of_compatible compatible]
    exact ((Definition.all_ok_iff calls').2 compatible').finish_eq
      ((Definition.all_ok_iff calls).2 compatible) (Definition.consistent_empty.after calls')
      (Definition.consistent_empty.after calls) contents.symm

/-- Sums, with all symbols declared first. -/
def Grammar.sumCalls : List Call := [
  .terminal "+", .terminal "a", .nonterminal "E", .precedence .left ["+"], .valueType "E" "i64",
  .rule "E" ["E", "+", "E"] none, .rule "E" ["a"] none, .start "E"]

/-- Sums, with all symbols declared last. -/
def Grammar.sumCallsBackwards : List Call := [
  .start "E", .rule "E" ["E", "+", "E"] none, .valueType "E" "i64", .rule "E" ["a"] none,
  .precedence .left ["+"], .nonterminal "E", .terminal "+", .terminal "a"]

theorem interleaving_is_immaterial_sums :
    ((∀ kind, Grammar.sumCalls.filter (·.kind = kind) =
        Grammar.sumCallsBackwards.filter (·.kind = kind)) ∧
      ∀ answer ∈ (Grammar.defineLeniently Grammar.sumCalls).1, ∃ number, answer = .ok number) ∧
    (∀ answer ∈ (Grammar.defineLeniently Grammar.sumCallsBackwards).1,
        ∃ number, answer = .ok number) ∧
      (∀ kind, (Grammar.answered Grammar.sumCallsBackwards).filter (·.1.kind = kind) =
        (Grammar.answered Grammar.sumCalls).filter (·.1.kind = kind)) ∧
      Grammar.define Grammar.sumCallsBackwards = Grammar.define Grammar.sumCalls := by
  have same : ∀ kind, Grammar.sumCalls.filter (·.kind = kind) =
      Grammar.sumCallsBackwards.filter (·.kind = kind) := by
    intro kind
    cases kind <;> rfl
  have answers : (Grammar.defineLeniently Grammar.sumCalls).1 = [.ok (some 1), .ok (some 2),
      .ok (some 1), .ok none, .ok none, .ok (some 1), .ok (some 2), .ok none] := by
    decide +kernel
  have succeeded : ∀ answer ∈ (Grammar.defineLeniently Grammar.sumCalls).1,
      ∃ number, answer = .ok number := by
    simp [answers]
  exact ⟨⟨same, succeeded⟩, interleaving_is_immaterial same succeeded⟩

end Lalr
