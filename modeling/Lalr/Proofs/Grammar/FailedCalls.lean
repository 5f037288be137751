import Lalr.Proofs.Grammar.Interleaving

/-!
# Failed calls can be left out

A call that fails leaves the definition as it was.  The one exception is a precedence call that meets
a name for the second time: it has used up its level, and all names up to and including that one have
got it.

So when no call fails in that way, the failed calls can be left out.  The others then answer as
before, with the same numbers, and the definition ends in the same grammar or the same error.
-/

namespace Lalr

namespace Definition

variable {d e : Definition}

/-- Precedences cannot be assigned only because a name comes for the second time.  Up to there they
have been assigned, and that name takes the new one. -/
theorem assignPrecedence_error {precedence : Precedence} {names : List String}
    {assigned left : List (String × Precedence)} {fault : GrammarError}
    (failed : assignPrecedence precedence names assigned = (.error fault, left)) :
    ∃ before name after, names = before ++ name :: after ∧ fault = .duplicatePrecedence name ∧
      left = (assigned ++ before.map (·, precedence)).map fun entry =>
        if entry.1 == name then (name, precedence) else entry := by
  induction names generalizing assigned with
  | nil => cases failed
  | cons name rest ih =>
      unfold assignPrecedence at failed
      split at failed
      · cases failed
        exact ⟨[], name, rest, rfl, rfl, by simp⟩
      · obtain ⟨before, again, after, rfl, rfl, rfl⟩ := ih failed
        exact ⟨name :: before, again, after, rfl, rfl, by simp⟩

/-- What a precedence call leaves behind that meets a name for the second time. -/
theorem call_precedence_duplicate {associativity : Associativity} {names : List String}
    {name : String} (failed : d.call (.precedence associativity names) =
      (.error (.duplicatePrecedence name), e)) :
    ∃ (before after : List String) (precedence : Precedence),
      names = before ++ name :: after ∧ precedence = ⟨d.levels, associativity⟩ ∧
      e = { d with
        levels := d.levels + 1
        precedences := (d.precedences ++ before.map (·, precedence)).map fun entry =>
          if entry.1 == name then (name, precedence) else entry } := by
  simp only [call, declarePrecedence] at failed
  split at failed
  · cases failed
  · cases assigned : assignPrecedence ⟨d.levels, associativity⟩ names d.precedences with
    | mk answer left =>
        simp only [assigned, Prod.mk.injEq] at failed
        obtain ⟨rfl, rfl⟩ := failed
        obtain ⟨before, again, after, rfl, same, rfl⟩ := assignPrecedence_error assigned
        cases same
        exact ⟨before, after, _, rfl, rfl, rfl⟩

/-- A call that fails leaves the definition as it was, unless it gives a precedence for the second
time. -/
theorem call_error {next : Call} {fault : GrammarError} (failed : d.call next = (.error fault, e))
    (other : ∀ name, fault ≠ .duplicatePrecedence name) : e = d := by
  cases next with
  | terminal name =>
      simp only [call, declareTerminal] at failed
      split at failed
      · cases failed
        rfl
      · split at failed
        · cases failed
          rfl
        · cases failed
  | nonterminal name =>
      simp only [call, declareNonterminal] at failed
      split at failed
      · cases failed
        rfl
      · split at failed
        · cases failed
          rfl
        · cases failed
  | precedence associativity names =>
      simp only [call, declarePrecedence] at failed
      split at failed
      · cases failed
        rfl
      · cases assigned : assignPrecedence ⟨d.levels, associativity⟩ names d.precedences with
        | mk answer left =>
            simp only [assigned, Prod.mk.injEq] at failed
            obtain ⟨rfl, rfl⟩ := failed
            obtain ⟨_, name, _, _, duplicate, _⟩ := assignPrecedence_error assigned
            exact absurd duplicate (other name)
  | valueType symbol tag =>
      simp only [call, declareValueType] at failed
      split at failed
      · cases failed
        rfl
      · cases failed
  | rule left right borrowed =>
      simp only [call, declareRule] at failed
      split at failed
      · cases failed
        rfl
      · split at failed
        · cases failed
          rfl
        · split at failed
          · cases failed
            rfl
          · cases failed
  | start name => cases failed

end Definition

namespace Grammar

/-- The calls that have succeeded, with their answers. -/
def successes (calls : List Call) : List (Call × Answer) := (answered calls).filter (·.2.isOk)

theorem successes_concat (calls : List Call) (next : Call) : successes (calls ++ [next]) =
    successes calls ++ [(next, ((Definition.empty.after calls).call next).1)].filter (·.2.isOk) := by
  rw [successes, answered_concat, List.filter_append]
  rfl

/-- No call has failed because a name was given a precedence twice. -/
def NoDuplicatePrecedence (calls : List Call) : Prop :=
  ∀ entry ∈ answered calls, ∀ name, entry.2 ≠ .error (.duplicatePrecedence name)

/-- The calls that have succeeded declare the same without the others, and answer the same. -/
theorem after_successes {calls : List Call} (regular : NoDuplicatePrecedence calls) :
    Definition.empty.after ((successes calls).map (·.1)) = Definition.empty.after calls ∧
      answered ((successes calls).map (·.1)) = successes calls := by
  induction calls using List.reverseRecOn with
  | nil => exact ⟨rfl, rfl⟩
  | append_singleton front last ih =>
      rw [NoDuplicatePrecedence, answered_concat, List.forall_mem_append,
        List.forall_mem_singleton] at regular
      obtain ⟨declared, answers⟩ := ih regular.1
      rw [successes_concat, Definition.after_concat]
      cases answer : ((Definition.empty.after front).call last).1 with
      | error fault =>
          have unchanged : ((Definition.empty.after front).call last).2 =
              Definition.empty.after front :=
            Definition.call_error (Prod.ext answer rfl) fun name duplicate =>
              regular.2 name (answer.trans (congrArg _ duplicate))
          rw [unchanged, List.filter_cons_of_neg (by simp [Except.isOk, Except.toBool]),
            List.filter_nil, List.append_nil]
          exact ⟨declared, answers⟩
      | ok number =>
          rw [List.filter_cons_of_pos rfl, List.filter_nil, List.map_append, List.map_singleton,
            Definition.after_concat, answered_concat, declared, answers, answer]
          exact ⟨rfl, rfl⟩

end Grammar

/-- When no name is given a precedence twice, failed calls leave no trace: without them the others
answer as before, and the definition ends as before.  Then there is no failure that would have to be
passed over. -/
theorem failed_calls_leave_no_trace {calls : List Call}
    (regular : Grammar.NoDuplicatePrecedence calls) :
    let successes := Grammar.successes calls
    let others := successes.map (·.1)
    Grammar.answered others = successes ∧
      (Grammar.defineLeniently others).2 = (Grammar.defineLeniently calls).2 ∧
      Grammar.define others = (Grammar.defineLeniently calls).2 := by
  intro successes others
  obtain ⟨declared, answers⟩ := Grammar.after_successes regular
  have lenient : (Grammar.defineLeniently others).2 = (Grammar.defineLeniently calls).2 := by
    rw [Grammar.defineLeniently_snd, Grammar.defineLeniently_snd, declared]
  refine ⟨answers, lenient, ?_⟩
  have succeeded : ∀ answer ∈ (Grammar.defineLeniently others).1, ∃ number, answer = .ok number := by
    intro answer member
    have paired : answer ∈ (Grammar.answered others).map (·.2) := by
      rwa [Grammar.answered, List.map_snd_zip (Nat.le_of_eq (Grammar.length_answers others))]
    rw [answers, List.mem_map] at paired
    obtain ⟨⟨call, found⟩, successful, rfl⟩ := paired
    have good := (List.mem_filter.1 successful).2
    cases found with
    | error fault => cases good
    | ok number => exact ⟨number, rfl⟩
  obtain ⟨number, ran⟩ := Definition.run_of_perform succeeded
  rw [← lenient, Grammar.define, ran, Grammar.defineLeniently_snd]

/-- The calls for nested brackets, with others among them that fail. -/
def Grammar.bracketCallsWithFaults : List Call := [
  .terminal "(", .nonterminal "(", .terminal "$end", .precedence .left ["("], .terminal ")",
  .nonterminal "S", .valueType "S" "tree", .nonterminal "a b", .valueType "S" "list",
  .rule "S" ["(", "S", ")"] none, .rule "S" ["(", "S", ")"] (some ")"), .rule "S" [] none]

/-- Five of the calls fail, and the others are numbered as if those had not been made. -/
theorem failed_calls_leave_no_trace_brackets :
    Grammar.NoDuplicatePrecedence Grammar.bracketCallsWithFaults ∧
      Grammar.define [.terminal "(", .precedence .left ["("], .terminal ")", .nonterminal "S",
          .valueType "S" "tree", .rule "S" ["(", "S", ")"] none, .rule "S" [] none] =
        (Grammar.defineLeniently Grammar.bracketCallsWithFaults).2 := by
  have answers : Grammar.answered Grammar.bracketCallsWithFaults = [
      (.terminal "(", .ok (some 1)), (.nonterminal "(", .error (.duplicateSymbol "(")),
      (.terminal "$end", .error (.reservedName "$end")),
      (.precedence .left ["("], .ok none), (.terminal ")", .ok (some 2)),
      (.nonterminal "S", .ok (some 1)), (.valueType "S" "tree", .ok none),
      (.nonterminal "a b", .error (.invalidName "a b")),
      (.valueType "S" "list", .error (.duplicateValueType "S")),
      (.rule "S" ["(", "S", ")"] none, .ok (some 1)),
      (.rule "S" ["(", "S", ")"] (some ")"), .error (.duplicateProduction 2 1)),
      (.rule "S" [] none, .ok (some 2))] := by
    decide +kernel
  have regular : Grammar.NoDuplicatePrecedence Grammar.bracketCallsWithFaults := by
    simp [Grammar.NoDuplicatePrecedence, answers]
  have left := (failed_calls_leave_no_trace regular).2.2
  rw [Grammar.successes, answers] at left
  exact ⟨regular, left⟩

end Lalr
