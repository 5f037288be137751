import Lalr.Proofs.Grammar.WellFormed

/-!
# What successful calls declare

When all calls of a definition succeed, it has recorded what they say, each kind in the order of the
calls: the first call of a kind takes the first free number, and every precedence call a further
level.
-/

namespace Lalr

namespace Call

def terminal? : Call → Option String
  | .terminal name => some name
  | _ => none

def nonterminal? : Call → Option String
  | .nonterminal name => some name
  | _ => none

def precedence? : Call → Option (Associativity × List String)
  | .precedence associativity names => some (associativity, names)
  | _ => none

def valueType? : Call → Option (String × String)
  | .valueType symbol tag => some (symbol, tag)
  | _ => none

def rule? : Call → Option Rule
  | .rule left right borrowed => some ⟨left, right, borrowed⟩
  | _ => none

def start? : Call → Option String
  | .start name => some name
  | _ => none

end Call

namespace Definition

/-- The names of precedence groups with their precedences, the groups binding tighter and tighter. -/
def leveled (groups : List (Associativity × List String)) : List (String × Precedence) :=
  groups.zipIdx.flatMap fun ((associativity, names), level) => names.map (·, ⟨level, associativity⟩)

theorem filterMap_concat {α β : Type} (reading : α → Option β) (entries : List α) (last : α) :
    (entries ++ [last]).filterMap reading = entries.filterMap reading ++ (reading last).toList := by
  rw [List.filterMap_append]
  cases read : reading last <;> simp [read]

theorem leveled_concat (groups : List (Associativity × List String))
    (group : Associativity × List String) : leveled (groups ++ [group]) =
      leveled groups ++ group.2.map (·, ⟨groups.length, group.1⟩) := by
  simp [leveled, List.zipIdx_append]

/-- The definition has recorded what the calls say, and nothing else. -/
structure Records (d : Definition) (calls : List Call) : Prop where
  terminals : d.terminals.toList = "$end" :: calls.filterMap Call.terminal?
  nonterminals : d.nonterminals.toList = "$start" :: calls.filterMap Call.nonterminal?
  precedences : d.precedences = leveled (calls.filterMap Call.precedence?)
  levels : d.levels = (calls.filterMap Call.precedence?).length
  valueTypes : d.valueTypes = calls.filterMap Call.valueType?
  rules : d.rules.toList = calls.filterMap Call.rule?
  start : d.start = (calls.filterMap Call.start?).getLast?

theorem records_empty : empty.Records [] := by
  constructor <;> rfl

theorem assignPrecedence_ok {precedence : Precedence} {names : List String}
    {assigned after : List (String × Precedence)} {number : Option Nat}
    (succeeded : assignPrecedence precedence names assigned = (.ok number, after)) :
    after = assigned ++ names.map (·, precedence) := by
  induction names generalizing assigned with
  | nil =>
      cases succeeded
      simp
  | cons name rest ih =>
      simp only [assignPrecedence] at succeeded
      split at succeeded
      · cases succeeded
      · simpa using ih succeeded

variable {d e : Definition} {calls : List Call} {number : Option Nat}

/-- What a successful call changes. -/
theorem call_ok {next : Call} (called : d.call next = (.ok number, e)) :
    e.terminals.toList = d.terminals.toList ++ next.terminal?.toList ∧
      e.nonterminals.toList = d.nonterminals.toList ++ next.nonterminal?.toList ∧
      e.precedences = d.precedences ++ next.precedence?.toList.flatMap
        (fun (associativity, names) => names.map (·, ⟨d.levels, associativity⟩)) ∧
      e.levels = d.levels + next.precedence?.toList.length ∧
      e.valueTypes = d.valueTypes ++ next.valueType?.toList ∧
      e.rules.toList = d.rules.toList ++ next.rule?.toList ∧
      e.start = next.start?.or d.start := by
  cases next
  all_goals simp only [call, Call.terminal?, Call.nonterminal?, Call.precedence?, Call.valueType?,
    Call.rule?, Call.start?] at called ⊢
  case terminal name =>
      simp only [declareTerminal] at called
      split at called
      · cases called
      · split at called
        · cases called
        · cases called
          simp
  case nonterminal name =>
      simp only [declareNonterminal] at called
      split at called
      · cases called
      · split at called
        · cases called
        · cases called
          simp
  case precedence associativity names =>
      simp only [declarePrecedence] at called
      split at called
      · cases called
      · cases assigned : assignPrecedence ⟨d.levels, associativity⟩ names d.precedences with
        | mk answer after =>
            simp only [assigned, Prod.mk.injEq] at called
            obtain ⟨rfl, rfl⟩ := called
            simp [assignPrecedence_ok assigned]
  case valueType symbol tag =>
      simp only [declareValueType] at called
      split at called
      · cases called
      · cases called
        simp
  case rule left right borrowed =>
      simp only [declareRule] at called
      split at called
      · cases called
      · split at called
        · cases called
        · split at called
          · cases called
          · cases called
            simp
  case start name =>
      cases called
      simp

namespace Records

/-- A successful call is recorded. -/
theorem call (records : d.Records calls) {next : Call} (called : d.call next = (.ok number, e)) :
    e.Records (calls ++ [next]) := by
  obtain ⟨terminals, nonterminals, precedences, levels, valueTypes, rules, start⟩ := call_ok called
  constructor
  case terminals => rw [terminals, records.terminals, filterMap_concat, List.cons_append]
  case nonterminals => rw [nonterminals, records.nonterminals, filterMap_concat, List.cons_append]
  case precedences =>
    rw [precedences, records.precedences, records.levels, filterMap_concat]
    cases next.precedence? with
    | none => simp
    | some group => simp [leveled_concat]
  case levels => rw [levels, records.levels, filterMap_concat, List.length_append]
  case valueTypes => rw [valueTypes, records.valueTypes, filterMap_concat]
  case rules => rw [rules, records.rules, filterMap_concat]
  case start =>
    rw [start, records.start, filterMap_concat]
    cases next.start? with
    | none => simp
    | some name => simp

theorem run (records : d.Records calls) {further : List Call}
    (ran : d.run further = (.ok number, e)) : e.Records (calls ++ further) := by
  induction further generalizing d calls with
  | nil =>
      cases ran
      rwa [List.append_nil]
  | cons next rest ih =>
      by_cases last : rest = []
      · subst last
        exact records.call ran
      · rw [run_cons d next rest last] at ran
        cases called : d.call next with
        | mk answer middle =>
            rw [called] at ran
            cases answer with
            | error fault => cases ran
            | ok first =>
                have whole := ih (records.call called) ran
                rwa [List.append_assoc] at whole

end Records

end Definition

/-- A grammar is defined from what the calls say. -/
theorem Grammar.exists_records {calls : List Call} {g : Grammar}
    (defined : Grammar.define calls = .ok g) :
    ∃ d : Definition, d.Records calls ∧ d = Definition.empty.after calls ∧ d.finish = .ok g := by
  unfold Grammar.define at defined
  split at defined
  · next number d ran =>
      have records := Definition.records_empty.run ran
      exact ⟨d, records, Definition.after_of_run_ok ran, defined⟩
  · cases defined

end Lalr
