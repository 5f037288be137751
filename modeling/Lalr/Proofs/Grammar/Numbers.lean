import Lalr.Proofs.Grammar.Interleaving

/-!
# The numbers with which calls answer

A call that declares a symbol or a rule answers with a number.  In the grammar that the definition
ends in, this is the place of what the call has declared.  Read in the order of the calls, the numbers
of a kind are those of all places but the first, which is reserved; so no place is given to two calls
and none is skipped, and a call that fails uses up no number.
-/

namespace Lalr

/-- The entries behind the reserved one, each with the number of its place. -/
def placed {α : Type} (entries : List α) : List (α × Option Nat) :=
  entries.zipIdx.tail.map fun (entry, place) => (entry, some place)

theorem placed_cons {α : Type} (reserved : α) (entries : List α) :
    placed (reserved :: entries) =
      (entries.zipIdx 1).map fun (entry, place) => (entry, some place) := rfl

/-- A further entry takes the next place. -/
theorem placed_concat {α : Type} {entries : List α} (reserved : 0 < entries.length) (last : α) :
    placed (entries ++ [last]) = placed entries ++ [(last, some entries.length)] := by
  obtain ⟨first, rest, rfl⟩ := List.exists_cons_of_length_pos reserved
  rw [List.cons_append, placed_cons, placed_cons, List.zipIdx_append, List.map_append,
    Nat.add_comm 1, List.length_cons]
  rfl

namespace Call

/-- The name of a terminal that was declared, with the answer. -/
@[simp]
def issuedTerminal? : Call × Answer → Option (String × Option Nat)
  | (.terminal name, .ok number) => some (name, number)
  | _ => none

/-- The name of a nonterminal that was declared, with the answer. -/
@[simp]
def issuedNonterminal? : Call × Answer → Option (String × Option Nat)
  | (.nonterminal name, .ok number) => some (name, number)
  | _ => none

/-- Both sides of a rule that was declared, with the answer. -/
@[simp]
def issuedRule? : Call × Answer → Option ((String × List String) × Option Nat)
  | (.rule left right _, .ok number) => some ((left, right), number)
  | _ => none

end Call

namespace Definition

/-- Both sides of all rules, behind a place for those of the augmented production. -/
def sides (rules : Array Rule) : List (String × List String) :=
  ("$start", []) :: rules.toList.map fun rule => (rule.left, rule.right)

theorem sides_push (rules : Array Rule) (rule : Rule) :
    sides (rules.push rule) = sides rules ++ [(rule.left, rule.right)] := by
  simp [sides]

variable {d : Definition} {g : Grammar}

/-- A call that declares something takes the next place for it, and answers with the number of this
place.  All else stays where it is. -/
theorem placed_call (consistent : d.Consistent) (next : Call) :
    placed (d.call next).2.terminals.toList = placed d.terminals.toList ++
        (Call.issuedTerminal? (next, (d.call next).1)).toList ∧
      placed (d.call next).2.nonterminals.toList = placed d.nonterminals.toList ++
        (Call.issuedNonterminal? (next, (d.call next).1)).toList ∧
      placed (sides (d.call next).2.rules) = placed (sides d.rules) ++
        (Call.issuedRule? (next, (d.call next).1)).toList := by
  cases next with
  | terminal name =>
      have reserved : 0 < d.terminals.toList.length := by simpa using consistent.terminals.size_pos
      simp only [call, declareTerminal]
      split
      · simp
      · split
        · simp
        · simp [placed_concat reserved]
  | nonterminal name =>
      have reserved : 0 < d.nonterminals.toList.length := by
        simpa using consistent.nonterminals.size_pos
      simp only [call, declareNonterminal]
      split
      · simp
      · split
        · simp
        · simp [placed_concat reserved]
  | precedence associativity names =>
      simp only [call, declarePrecedence]
      split <;> simp
  | valueType symbol tag =>
      simp only [call, declareValueType]
      split <;> simp
  | rule left right borrowed =>
      have reserved : 0 < (sides d.rules).length := Nat.succ_pos _
      have next : (sides d.rules).length = d.rules.size + 1 := by simp [sides]
      simp only [call, declareRule]
      split
      · simp
      · split
        · simp
        · split
          · simp
          · simp [sides_push, placed_concat reserved, next]
  | start name => simp [call]

theorem placed_after (calls : List Call) :
    (Grammar.answered calls).filterMap Call.issuedTerminal? =
        placed (empty.after calls).terminals.toList ∧
      (Grammar.answered calls).filterMap Call.issuedNonterminal? =
        placed (empty.after calls).nonterminals.toList ∧
      (Grammar.answered calls).filterMap Call.issuedRule? =
        placed (sides (empty.after calls).rules) := by
  induction calls using List.reverseRecOn with
  | nil => exact ⟨rfl, rfl, rfl⟩
  | append_singleton front last ih =>
      obtain ⟨terminals, nonterminals, rules⟩ := ih
      obtain ⟨terminal, nonterminal, rule⟩ := placed_call (consistent_empty.after front) last
      simp only [Grammar.answered_concat, filterMap_concat, after_concat]
      exact ⟨by rw [terminals, terminal], by rw [nonterminals, nonterminal], by rw [rules, rule]⟩

/-! ## The end of the definition -/

section Finished

variable (consistent : d.Consistent) (finished : d.finish = .ok g)

include consistent finished

theorem symbolName_eq {name : String} {symbol : Symbol} (found : d.names[name]? = some symbol) :
    g.symbolName symbol = name := by
  cases symbol with
  | terminal t =>
      have here := (consistent.terminals.listed.1 found).2
      rw [Grammar.symbolName, Grammar.terminalName, getElem?_terminals finished, here]
      rfl
  | nonterminal n =>
      have here := (consistent.nonterminals.listed.1 found).2
      rw [Grammar.symbolName, Grammar.nonterminalName, getElem?_nonterminals finished, here]
      rfl

theorem symbolNames_eq {names : List String} {symbols : List Symbol}
    (found : List.Forall₂ (fun name symbol => d.names[name]? = some symbol) names symbols) :
    symbols.map g.symbolName = names := by
  induction found with
  | nil => rfl
  | cons first _ ih => rw [List.map_cons, symbolName_eq consistent finished first, ih]

theorem sides_eq {number : ProductionId} {rule : Rule} {production : Production}
    (resolved : d.resolveRule number rule = .ok production) :
    (g.nonterminalName production.left, production.right.toList.map g.symbolName) =
      (rule.left, rule.right) := by
  obtain ⟨left, right⟩ := resolveRule_ok resolved
  rw [symbolNames_eq consistent finished right, ← symbolName_eq consistent finished left]
  rfl

/-- The productions behind the augmented one read like the rules. -/
theorem placed_productions :
    placed (g.productions.toList.map fun production =>
      (g.nonterminalName production.left, production.right.toList.map g.symbolName)) =
        placed (sides d.rules) := by
  obtain ⟨rules, _, resolved, _, _, productions, _⟩ := finish_ok finished
  have alike : ∀ {entries : List (Rule × ProductionId)} {productions : List Production},
      List.Forall₂ (fun entry production => d.resolveRule entry.2 entry.1 = .ok production)
        entries productions →
      (productions.map fun production => (g.nonterminalName production.left,
        production.right.toList.map g.symbolName)) =
          (entries.map (·.1)).map fun rule => (rule.left, rule.right) := by
    intro entries productions matched
    induction matched with
    | nil => rfl
    | cons first _ ih =>
        rw [List.map_cons, List.map_cons, List.map_cons, ih, sides_eq consistent finished first]
  rw [productions, List.map_cons, sides, placed_cons, placed_cons,
    alike (forall₂_of_mapM_ok resolved), List.zipIdx_map_fst]

end Finished

end Definition

namespace Grammar

/-- The numbers with which calls have answered are those of the places of what they declare.  Every
place but the reserved one of its kind has been given out, in the order of the places. -/
structure Numbered (g : Grammar) (calls : List Call) : Prop where
  terminals : (answered calls).filterMap Call.issuedTerminal? =
    placed (g.terminals.toList.map (·.name))
  nonterminals : (answered calls).filterMap Call.issuedNonterminal? =
    placed (g.nonterminals.toList.map (·.name))
  productions : (answered calls).filterMap Call.issuedRule? =
    placed (g.productions.toList.map fun production =>
      (g.nonterminalName production.left, production.right.toList.map g.symbolName))

theorem numbered_of_finish {g : Grammar} {calls : List Call}
    (finished : (Definition.empty.after calls).finish = .ok g) : g.Numbered calls := by
  obtain ⟨terminals, nonterminals, rules⟩ := Definition.placed_after calls
  refine ⟨?_, ?_, ?_⟩
  · rw [terminals, Definition.terminalNames finished]
  · rw [nonterminals, Definition.nonterminalNames finished]
  · rw [rules, Definition.placed_productions (Definition.consistent_empty.after calls) finished]

end Grammar

/-- Whatever calls define a grammar, it is lawful, and the numbers with which they have answered are
places in it: if the first failed call would have ended the definition, and if failed calls were
passed over. -/
theorem defined_grammar_is_lawful (calls : List Call) {g : Grammar}
    (defined : Grammar.define calls = .ok g ∨ (Grammar.defineLeniently calls).2 = .ok g) :
    g.Lawful ∧ g.Numbered calls := by
  have finished : (Definition.empty.after calls).finish = .ok g := by
    rcases defined with strict | lenient
    · exact Grammar.finish_of_define strict
    · rwa [← Grammar.defineLeniently_snd]
  have lawful : g.Lawful :=
    Grammar.IsDefined.lawful ⟨calls, (Grammar.defineLeniently_snd calls).trans finished⟩
  exact ⟨lawful, Grammar.numbered_of_finish finished⟩

/-- Four of these calls fail: they declare what is there already or cannot be a name. -/
theorem defined_grammar_is_lawful_brackets :
    Grammar.brackets.Lawful ∧ Grammar.brackets.Numbered [.terminal "(", .nonterminal "(",
      .terminal "$end", .terminal ")", .nonterminal "S", .nonterminal "a b",
      .rule "S" ["(", "S", ")"] none, .rule "S" ["(", "S", ")"] none, .rule "S" [] none] :=
  defined_grammar_is_lawful _ (.inr (by decide +kernel))

end Lalr
