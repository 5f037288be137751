import Lalr.Proofs.Extension.Grammar
import Lalr.Proofs.Grammar.Interleaving

/-!
# Calls that extend a grammar

Calls are self-contained if they give rules, precedences and value types only to symbols that they
declare themselves, and do not name a start symbol.  Whatever was defined before them is extended by
them: names that were known keep their numbers and everything declared for them, and rules that
resolved go on resolving to the same productions.
-/

namespace Lalr

/-- What the contents say about symbols, they say about symbols that they declare. -/
structure Contents.SelfContained (c : Contents) : Prop where
  starts : c.starts = []
  rules : ∀ rule ∈ c.rules, rule.left ∈ c.nonterminals
  leveled : ∀ name ∈ c.leveledNames, name ∈ c.terminals
  typed : ∀ name ∈ c.typedNames, name ∈ c.names

theorem lookup_append_of_not_mem {β : Type} {entries more : List (String × β)} {name : String}
    (unlisted : name ∉ more.map (·.1)) : (entries ++ more).lookup name = entries.lookup name := by
  have nothing : more.lookup name = none := by
    rw [List.lookup_eq_none_iff]
    intro entry member
    rw [bne_iff_ne]
    rintro rfl
    exact unlisted (List.mem_map_of_mem member)
  rw [List.lookup_append, nothing, Option.or_none]

namespace Definition

variable {d e : Definition}

theorem mapM_ok_of_forall₂ {α β ε : Type} {resolve : α → Except ε β} {inputs : List α}
    {outputs : List β}
    (resolved : List.Forall₂ (fun input output => resolve input = .ok output) inputs outputs) :
    inputs.mapM resolve = .ok outputs := by
  induction resolved with
  | nil => rfl
  | cons first _ ih => simp [List.mapM_cons, first, ih, bind, Except.bind, pure, Except.pure]

/-- Names are known by the same symbols as before, and have the same precedences. -/
structure Keeps (d e : Definition) : Prop where
  names : ∀ {name : String} {symbol : Symbol}, d.names[name]? = some symbol →
    e.names[name]? = some symbol
  precedences : ∀ {name : String} {symbol : Symbol}, d.names[name]? = some symbol →
    e.precedences.lookup name = d.precedences.lookup name

namespace Keeps

variable (keeps : d.Keeps e) {number : ProductionId}

include keeps

theorem resolveLeft {name : String} {n : NonterminalId}
    (resolved : d.resolveLeft number name = .ok n) : e.resolveLeft number name = .ok n := by
  unfold Definition.resolveLeft at resolved
  split at resolved
  · next known =>
      rw [Definition.resolveLeft, keeps.names known]
      exact resolved
  · cases resolved
  · cases resolved

theorem resolveSymbol {name : String} {symbol : Symbol}
    (resolved : d.resolveSymbol number name = .ok symbol) :
    e.resolveSymbol number name = .ok symbol := by
  unfold Definition.resolveSymbol at resolved
  split at resolved
  · next known =>
      rw [Definition.resolveSymbol, keeps.names known]
      exact resolved
  · cases resolved

theorem resolveBorrowed {borrowed : Option String} {precedence : Option (Option Precedence)}
    (resolved : d.resolveBorrowed borrowed = .ok precedence) :
    e.resolveBorrowed borrowed = .ok precedence := by
  cases borrowed with
  | none => exact resolved
  | some name =>
      simp only [Definition.resolveBorrowed] at resolved ⊢
      split at resolved
      · next known =>
          rw [keeps.names known, keeps.precedences known]
          exact resolved
      · cases resolved

/-- Rules go on resolving to the same productions. -/
theorem resolveRule {rule : Rule} {production : Production}
    (resolved : d.resolveRule number rule = .ok production) :
    e.resolveRule number rule = .ok production := by
  obtain ⟨left, right, borrowed⟩ := resolveRule_eq_ok_iff.1 resolved
  refine resolveRule_eq_ok_iff.2 ⟨keeps.resolveLeft left, mapM_ok_of_forall₂ ?_,
    keeps.resolveBorrowed borrowed⟩
  exact (forall₂_of_mapM_ok right).imp fun _ _ found => keeps.resolveSymbol found

end Keeps

section Extended

variable {calls further : List Call} (records : d.Records calls)
  (records' : e.Records (calls ++ further)) (consistent : d.Consistent)
  (consistent' : e.Consistent) (apart : (Call.contents further).SelfContained)

include records records'

theorem terminals_append :
    e.terminals.toList = d.terminals.toList ++ (Call.contents further).terminals := by
  rw [records.terminals, records'.terminals, List.filterMap_append]
  rfl

theorem nonterminals_append :
    e.nonterminals.toList = d.nonterminals.toList ++ (Call.contents further).nonterminals := by
  rw [records.nonterminals, records'.nonterminals, List.filterMap_append]
  rfl

theorem rules_append : e.rules.toList = d.rules.toList ++ (Call.contents further).rules := by
  rw [records.rules, records'.rules, List.filterMap_append]
  rfl

theorem terminal_kept {t : TerminalId} {name : String} (here : d.terminals[t]? = some name) :
    e.terminals[t]? = some name := by
  rw [← Array.getElem?_toList] at here ⊢
  rw [terminals_append records records', List.getElem?_append_left
    (List.getElem?_eq_some_iff.1 here).1, here]

theorem nonterminal_kept {n : NonterminalId} {name : String}
    (here : d.nonterminals[n]? = some name) : e.nonterminals[n]? = some name := by
  rw [← Array.getElem?_toList] at here ⊢
  rw [nonterminals_append records records', List.getElem?_append_left
    (List.getElem?_eq_some_iff.1 here).1, here]

theorem rule_kept {place : Nat} {rule : Rule} (here : d.rules[place]? = some rule) :
    e.rules[place]? = some rule := by
  rw [← Array.getElem?_toList] at here ⊢
  rw [rules_append records records', List.getElem?_append_left
    (List.getElem?_eq_some_iff.1 here).1, here]

theorem valueTypes_append : e.valueTypes = d.valueTypes ++ (Call.contents further).valueTypes := by
  rw [records.valueTypes, records'.valueTypes, List.filterMap_append]
  rfl

theorem precedences_append : ∃ more, e.precedences = d.precedences ++ more ∧
    ∀ name ∈ more.map (·.1), name ∈ (Call.contents further).leveledNames := by
  rw [records.precedences, records'.precedences, List.filterMap_append, leveled,
    List.zipIdx_append, List.flatMap_append]
  refine ⟨_, rfl, ?_⟩
  intro name member
  obtain ⟨entry, listed, rfl⟩ := List.mem_map.1 member
  obtain ⟨⟨group, level⟩, grouped, leveled⟩ := List.mem_flatMap.1 listed
  obtain ⟨_, inGroup, rfl⟩ := List.mem_map.1 leveled
  exact List.mem_flatMap.2 ⟨group, List.fst_mem_of_mem_zipIdx grouped, inGroup⟩

include consistent'

/-- No name of an earlier symbol is declared again. -/
theorem not_mem_further {name : String}
    (old : name ∈ d.terminals.toList ∨ name ∈ d.nonterminals.toList) :
    name ∉ (Call.contents further).names := by
  have once := consistent'.names_nodup
  rw [terminals_append records records', nonterminals_append records records', List.nodup_append,
    List.nodup_append, List.nodup_append] at once
  obtain ⟨⟨_, _, terminals⟩, ⟨_, _, nonterminals⟩, across⟩ := once
  intro again
  rcases List.mem_append.1 again with later | later
  · rcases old with earlier | earlier
    · exact terminals name earlier name later rfl
    · exact across name (by simp [later]) name (by simp [earlier]) rfl
  · rcases old with earlier | earlier
    · exact across name (by simp [earlier]) name (by simp [later]) rfl
    · exact nonterminals name earlier name later rfl

include apart

theorem precedence_eq {name : String}
    (old : name ∈ d.terminals.toList ∨ name ∈ d.nonterminals.toList) :
    e.precedences.lookup name = d.precedences.lookup name := by
  obtain ⟨more, appended, named⟩ := precedences_append records records'
  rw [appended]
  apply lookup_append_of_not_mem
  intro given
  have declared := apart.leveled name (named name given)
  exact not_mem_further records records' consistent' old (List.mem_append_left _ declared)

theorem valueType_eq {name : String}
    (old : name ∈ d.terminals.toList ∨ name ∈ d.nonterminals.toList) :
    e.valueTypes.lookup name = d.valueTypes.lookup name := by
  rw [valueTypes_append records records']
  apply lookup_append_of_not_mem
  intro given
  exact not_mem_further records records' consistent' old (apart.typed name given)

/-- A further rule belongs to a further nonterminal. -/
theorem le_of_further {place : Nat} {rule : Rule} (beyond : d.rules.size ≤ place)
    (here : e.rules[place]? = some rule) {n : NonterminalId}
    (known : e.names[rule.left]? = some (.nonterminal n)) : d.nonterminals.size ≤ n := by
  have declared : rule.left ∈ (Call.contents further).nonterminals := by
    rw [← Array.getElem?_toList, rules_append records records',
      List.getElem?_append_right (by rwa [Array.length_toList])] at here
    exact apart.rules rule (List.mem_of_getElem? here)
  by_contra less
  have inside : n < d.nonterminals.size := Nat.lt_of_not_le less
  have old := Array.getElem?_eq_getElem inside
  have again := (consistent'.nonterminals.listed.1 known).2
  rw [nonterminal_kept records records' old, Option.some.injEq] at again
  rw [again] at old
  exact not_mem_further records records' consistent'
    (.inr (Array.mem_toList_iff.2 (Array.mem_of_getElem? old))) (List.mem_append_right _ declared)

include consistent

theorem keeps : d.Keeps e := by
  constructor
  · intro name symbol known
    cases symbol with
    | terminal t =>
        obtain ⟨user, here⟩ := consistent.terminals.listed.1 known
        exact consistent'.terminals.listed.2 ⟨user, terminal_kept records records' here⟩
    | nonterminal n =>
        obtain ⟨user, here⟩ := consistent.nonterminals.listed.1 known
        exact consistent'.nonterminals.listed.2 ⟨user, nonterminal_kept records records' here⟩
  · intro name symbol known
    apply precedence_eq records records' consistent' apart
    cases symbol with
    | terminal t =>
        have here := (consistent.terminals.listed.1 known).2
        exact .inl (Array.mem_toList_iff.2 (Array.mem_of_getElem? here))
    | nonterminal n =>
        have here := (consistent.nonterminals.listed.1 known).2
        exact .inr (Array.mem_toList_iff.2 (Array.mem_of_getElem? here))

theorem resolveStart_kept {n : NonterminalId} (resolved : d.resolveStart = .ok n) :
    e.resolveStart = .ok n := by
  have keeps := keeps records records' consistent consistent' apart
  have same : e.start = d.start := by
    have none_further : further.filterMap Call.start? = [] := apart.starts
    rw [records.start, records'.start, List.filterMap_append, none_further, List.append_nil]
  unfold resolveStart at resolved ⊢
  rw [same]
  cases named : d.start with
  | some name =>
      simp only [named] at resolved ⊢
      split at resolved
      · next known =>
          rw [keeps.names known]
          exact resolved
      · cases resolved
  | none =>
      simp only [named] at resolved ⊢
      split at resolved
      · next enough =>
          have more : d.nonterminals.size ≤ e.nonterminals.size := by
            rw [← Array.length_toList, ← Array.length_toList,
              nonterminals_append records records', List.length_append]
            exact Nat.le_add_right _ _
          rw [if_pos (Nat.lt_of_lt_of_le enough more)]
          exact resolved
      · cases resolved

variable {g g' : Grammar} (finished : d.finish = .ok g) (finished' : e.finish = .ok g')

include finished finished'

theorem extends_of_finish : g.Extends g' := by
  have keeps := keeps records records' consistent consistent' apart
  obtain ⟨_, start, _, _, _, productions, _⟩ := finish_ok finished
  obtain ⟨_, start', _, _, _, productions', _⟩ := finish_ok finished'
  have sameStart : g'.start = g.start := by
    have kept := resolveStart_kept records records' consistent consistent' apart start
    rw [start'] at kept
    exact Except.ok.inj kept
  have count := size_nonterminals_of_finish finished
  constructor
  case terminal =>
    intro t terminal found
    rw [getElem?_terminals finished, Option.map_eq_some_iff] at found
    obtain ⟨name, here, rfl⟩ := found
    have old : name ∈ d.terminals.toList ∨ name ∈ d.nonterminals.toList :=
      .inl (Array.mem_toList_iff.2 (Array.mem_of_getElem? here))
    rw [getElem?_terminals finished', terminal_kept records records' here, Option.map_some,
      precedence_eq records records' consistent' apart old,
      valueType_eq records records' consistent' apart old]
  case nonterminals =>
    rw [count, size_nonterminals_of_finish finished', ← Array.length_toList,
      ← Array.length_toList, nonterminals_append records records', List.length_append]
    exact Nat.le_add_right _ _
  case start => exact sameStart
  case production =>
    intro p production listed
    cases p with
    | zero =>
        rw [productions] at listed
        rw [productions', sameStart]
        exact listed
    | succ place =>
        obtain ⟨rule, here, resolved⟩ := (getElem?_productions finished).1 listed
        exact (getElem?_productions finished').2
          ⟨rule, rule_kept records records' here, keeps.resolveRule resolved⟩
  case left =>
    intro p production listed beyond
    rw [size_productions finished] at beyond
    obtain ⟨place, rfl⟩ := Nat.exists_eq_add_of_le' (Nat.one_le_of_lt beyond)
    obtain ⟨rule, here, resolved⟩ := (getElem?_productions finished').1 listed
    rw [count]
    exact le_of_further records records' consistent' apart
      (Nat.le_of_succ_le_succ beyond) here (resolveRule_ok resolved).1

end Extended

end Definition

/-- Self-contained calls extend the grammar that the calls before them define, by one production for
each of their rules. -/
theorem Grammar.extends_of_define {calls further : List Call} {g g' : Grammar}
    (defined : Grammar.define calls = .ok g) (defined' : Grammar.define (calls ++ further) = .ok g')
    (apart : (Call.contents further).SelfContained) :
    g.Extends g' ∧
      g'.productions.size = g.productions.size + (Call.contents further).rules.length := by
  obtain ⟨d, records, after, finished⟩ := Grammar.exists_records defined
  obtain ⟨e, records', after', finished'⟩ := Grammar.exists_records defined'
  have consistent : d.Consistent := after ▸ Definition.consistent_empty.after calls
  have consistent' : e.Consistent := after' ▸ Definition.consistent_empty.after (calls ++ further)
  refine ⟨Definition.extends_of_finish records records' consistent consistent' apart finished
    finished', ?_⟩
  rw [Definition.size_productions finished, Definition.size_productions finished',
    ← Array.length_toList, ← Array.length_toList, Definition.rules_append records records',
    List.length_append]
  omega

end Lalr
