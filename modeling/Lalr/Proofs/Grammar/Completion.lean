import Lalr.Proofs.Grammar.Context

/-!
# Completions

A form is reduced from left to right by reading its symbols one after the other and replacing, at any
time, a right-hand side at the end of what has been read by the left-hand side of its production.
`Completes before rest` says that what has been read and what is left can be turned into the start
symbol in this way.

The forms that can be completed from nothing are those that the start symbol derives.  Unlike in a
rightmost derivation, nonterminals may stand anywhere in what is left, so this also covers forms with
nonterminals that derive no word.  What has been read is always the left part of a context, and what
is left can follow in it.
-/

namespace Lalr

namespace Grammar

variable {g : Grammar}

/-- A right-hand side at the end is replaced by the left-hand side of its production. -/
inductive Contracts (g : Grammar) : List Symbol → List Symbol → Prop
  | replace {p : ProductionId} {production : Production} (before : List Symbol)
      (listed : g.productions[p]? = some production) :
      Contracts g (before ++ production.right.toList) (before ++ [.nonterminal production.left])

/-- What has been read and what is left can be turned into the start symbol. -/
inductive Completes (g : Grammar) : List Symbol → List Symbol → Prop
  | done : Completes g [.nonterminal g.start] []
  | read {before rest : List Symbol} {symbol : Symbol}
      (later : Completes g (before ++ [symbol]) rest) : Completes g before (symbol :: rest)
  | contract {before next rest : List Symbol} (contracted : g.Contracts before next)
      (later : Completes g next rest) : Completes g before rest

theorem Contracts.append_left {before next : List Symbol} (contracted : g.Contracts before next)
    (front : List Symbol) : g.Contracts (front ++ before) (front ++ next) := by
  cases contracted with
  | replace before listed =>
      rw [← List.append_assoc, ← List.append_assoc]
      exact .replace _ listed

namespace Completes

/-- What has been read last may as well be left to read. -/
theorem unread {before symbols rest : List Symbol} (completes : g.Completes (before ++ symbols) rest) :
    g.Completes before (symbols ++ rest) := by
  induction symbols generalizing before with
  | nil => rwa [List.append_nil] at completes
  | cons symbol symbols ih =>
      apply Completes.read
      apply ih
      rwa [List.append_assoc]

theorem of_rewrites {before rest next : List Symbol} (completes : g.Completes before rest)
    (rewritten : g.Rewrites rest next) : g.Completes before next := by
  cases rewritten with
  | @replace p production left right listed =>
      -- The symbol that is replaced is read at some point; its right-hand side can be read and
      -- contracted instead.
      generalize whole : left ++ Symbol.nonterminal production.left :: right = rest at completes
      induction completes generalizing left with
      | done => simp at whole
      | @read before rest symbol later ih =>
          cases left with
          | nil =>
              rw [List.nil_append, List.cons.injEq] at whole
              obtain ⟨rfl, rfl⟩ := whole
              rw [List.nil_append]
              exact (contract (.replace before listed) later).unread
          | cons head left =>
              rw [List.cons_append, List.cons.injEq] at whole
              obtain ⟨rfl, rfl⟩ := whole
              exact .read (ih left rfl)
      | contract contracted _ ih => exact .contract contracted (ih left whole)

theorem of_derives {before rest next : List Symbol} (completes : g.Completes before rest)
    (derived : g.Derives rest next) : g.Completes before next := by
  induction derived with
  | refl => exact completes
  | tail _ rewritten ih => exact ih.of_rewrites rewritten

/-- What can be completed is derived from the start symbol. -/
theorem derives {before rest : List Symbol} (completes : g.Completes before rest) :
    g.Derives [.nonterminal g.start] (before ++ rest) := by
  induction completes with
  | done => exact .refl
  | read _ ih => simpa using ih
  | @contract _ _ rest contracted _ ih =>
      cases contracted with
      | replace before listed =>
          have back := Rewrites.replace before rest listed
          rw [List.append_assoc, List.singleton_append] at ih
          exact ih.tail back

theorem declares (wellFormed : g.WellFormed) {before rest : List Symbol}
    (completes : g.Completes before rest) : ∀ symbol ∈ before ++ rest, g.Declares symbol :=
  wellFormed.declares_of_derives completes.derives

end Completes

/-- The forms that can be completed from nothing are those that the start symbol derives. -/
theorem Derives.completes {form : List Symbol} (derived : g.Derives [.nonterminal g.start] form) :
    g.Completes [] form :=
  (Completes.read .done : g.Completes [] [.nonterminal g.start]).of_derives derived

/-! ## Contexts -/

/-- A production in a context is completed behind any of its symbols but `$end`, if its left-hand side
is completed. -/
theorem Context.completes_inside (wellFormed : g.WellFormed) {before after front back : List Symbol}
    {p : ProductionId} {production : Production} {symbol : Symbol}
    (outer : g.Context before production.left after) (listed : g.productions[p]? = some production)
    (split : production.right.toList = front ++ symbol :: back)
    (inner : symbol ≠ .terminal endTerminal)
    (whole : production.left ≠ startNonterminal →
      ∃ rest, after = rest ++ [.terminal endTerminal, .terminal endTerminal] ∧
        g.Completes (before ++ [.nonterminal production.left]) rest) :
    ∃ rest, back ++ after = rest ++ [.terminal endTerminal, .terminal endTerminal] ∧
      g.Completes (before ++ front ++ [symbol]) rest := by
  by_cases reserved : production.left = startNonterminal
  · rw [wellFormed.eq_acceptProduction listed reserved, wellFormed.augmented] at listed
    cases listed
    obtain ⟨rfl, rfl⟩ := outer.of_start wellFormed
    cases front with
    | nil =>
        cases split
        exact ⟨[], rfl, .done⟩
    | cons head front =>
        -- Behind the start symbol there is only `$end`.
        have behind : symbol ∈ [Symbol.terminal endTerminal] := by
          rw [(List.cons.inj split).2]
          simp
        exact absurd (List.mem_singleton.1 behind) inner
  · obtain ⟨rest, rfl, completes⟩ := whole reserved
    have entered := Completes.contract (.replace before listed) completes
    rw [split, ← List.append_assoc, List.append_cons] at entered
    exact ⟨back ++ rest, by rw [List.append_assoc], entered.unread⟩

/-- What a context allows completes it. -/
theorem Context.completes (wellFormed : g.WellFormed) {before after : List Symbol}
    {n : NonterminalId} (context : g.Context before n after) (other : n ≠ startNonterminal) :
    ∃ rest, after = rest ++ [.terminal endTerminal, .terminal endTerminal] ∧
      g.Completes (before ++ [.nonterminal n]) rest := by
  induction context with
  | start => exact absurd rfl other
  | descend outer listed split ih =>
      exact outer.completes_inside wellFormed listed split (by simp) ih

namespace Completes

/-- What has been read is the left part of a context of each of its nonterminals, and what comes later
can follow in it. -/
theorem exists_context (wellFormed : g.WellFormed) {before after rest : List Symbol}
    {n : NonterminalId} (completes : g.Completes (before ++ .nonterminal n :: after) rest) :
    ∃ tail, g.Context before n tail ∧
      g.Derives tail (after ++ rest ++ [.terminal endTerminal, .terminal endTerminal]) := by
  generalize whole : before ++ Symbol.nonterminal n :: after = read at completes
  induction completes generalizing before n after with
  | done =>
      rw [List.append_eq_singleton_iff] at whole
      simp only [reduceCtorEq, and_false, or_false, List.cons.injEq,
        Symbol.nonterminal.injEq] at whole
      obtain ⟨rfl, rfl, rfl⟩ := whole
      have entered := @Context.descend g acceptProduction _ [] _ [] [.terminal endTerminal]
        g.start .start wellFormed.augmented rfl
      exact ⟨_, entered, .refl⟩
  | @read _ rest symbol _ ih =>
      obtain ⟨tail, context, derived⟩ :=
        @ih before (after ++ [symbol]) n (by rw [← whole, List.append_assoc, List.cons_append])
      exact ⟨tail, context, by simpa using derived⟩
  | @contract _ _ rest contracted _ ih =>
      cases contracted with
      | @replace p production front listed =>
          rcases mem_of_append_eq whole.symm with ⟨gap, rfl, split⟩ | ⟨gap, rfl, rfl⟩
          · obtain ⟨tail, context, derived⟩ := @ih front [] production.left rfl
            refine ⟨after ++ tail, context.descend listed split, ?_⟩
            rw [List.append_assoc]
            exact Derives.append_left derived after
          · obtain ⟨tail, context, derived⟩ :=
              @ih before (gap ++ [.nonterminal production.left]) n (by simp)
            refine ⟨tail, context, derived.tail ?_⟩
            have rewritten := Rewrites.replace gap
              (rest ++ [.terminal endTerminal, .terminal endTerminal]) listed
            simpa using rewritten

/-- Every symbol that has been read could be read at its place. -/
theorem exists_next (wellFormed : g.WellFormed) {before after rest : List Symbol}
    {symbol : Symbol} (completes : g.Completes (before ++ symbol :: after) rest) :
    ∃ core tail, g.Valid before core tail ∧ core.next g = some symbol := by
  generalize whole : before ++ symbol :: after = read at completes
  induction completes generalizing before after with
  | done =>
      rw [List.append_eq_singleton_iff] at whole
      simp only [reduceCtorEq, and_false, or_false, List.cons.injEq] at whole
      obtain ⟨rfl, rfl, rfl⟩ := whole
      exact ⟨_, _, .start, Core.next_eq_some.2 ⟨_, wellFormed.augmented, rfl⟩⟩
  | @read _ rest later _ ih =>
      exact @ih before (after ++ [later]) (by rw [← whole, List.append_assoc, List.cons_append])
  | @contract _ _ rest contracted later ih =>
      cases contracted with
      | @replace p production front listed =>
          rcases mem_of_append_eq whole.symm with ⟨gap, rfl, split⟩ | ⟨gap, rfl, rfl⟩
          · obtain ⟨tail, context, _⟩ := later.exists_context wellFormed
            have inside : gap.length < production.right.toList.length := by
              rw [split, List.length_append, List.length_cons]
              omega
            have opened := context.valid wellFormed listed rfl
            have reached := opened.take listed (Nat.le_of_lt (by simpa using inside))
            rw [split, List.take_left] at reached
            exact ⟨_, _, reached, Core.next_eq_some.2 ⟨production, listed, by simp [split]⟩⟩
          · exact @ih before (gap ++ [.nonterminal production.left]) (by simp)

end Completes

/-! ## The next terminal -/

/-- The terminal comes first in what is left; at the end, that is `$end`. -/
def Leads (t : TerminalId) (rest : List Symbol) : Prop :=
  rest.headD (.terminal endTerminal) = .terminal t

theorem Leads.begins {t : TerminalId} {rest : List Symbol} (leads : Leads t rest) :
    g.Begins (rest ++ [.terminal endTerminal, .terminal endTerminal]) t := by
  cases rest with
  | nil =>
      cases leads
      exact begins_terminal _ _
  | cons symbol rest =>
      cases leads
      exact begins_terminal _ _

/-- What can begin after a context begins something that completes it. -/
theorem Context.completes_leading (wellFormed : g.WellFormed) {before after : List Symbol}
    {n : NonterminalId} {t : TerminalId} (context : g.Context before n after)
    (other : n ≠ startNonterminal) (begins : g.Begins after t) :
    ∃ rest, g.Completes (before ++ [.nonterminal n]) rest ∧ Leads t rest := by
  obtain ⟨rest, rfl, completes⟩ := context.completes wellFormed other
  rcases begins_append.1 begins with ⟨tail, derived⟩ | ⟨vanishes, tail, derived⟩
  · exact ⟨_, completes.of_derives derived, rfl⟩
  · obtain ⟨_, _, same, first, _⟩ := @Derives.split g [.terminal endTerminal]
      [.terminal endTerminal] _ derived
    rw [first.of_terminal, List.singleton_append, List.cons.injEq] at same
    exact ⟨_, completes.of_derives vanishes, same.1.symm⟩

/-- Every nonterminal of a form that the start symbol derives can vanish, or begin with a terminal. -/
def HasFirsts (g : Grammar) : Prop :=
  ∀ before n after, g.Derives [.nonterminal g.start] (before ++ .nonterminal n :: after) →
    g.Derives [.nonterminal n] [] ∨ ∃ t, g.Begins [.nonterminal n] t

/-- What has been read can be completed by something that begins with a terminal, or by nothing. -/
theorem HasFirsts.exists_leading (hasFirsts : g.HasFirsts) {before rest : List Symbol}
    (completes : g.Completes before rest) :
    ∃ t next, g.Completes before next ∧ Leads t next := by
  induction rest with
  | nil => exact ⟨_, [], completes, rfl⟩
  | cons symbol rest ih =>
      cases symbol with
      | terminal t => exact ⟨t, _, completes, rfl⟩
      | nonterminal n =>
          rcases hasFirsts _ _ _ completes.derives with vanishes | ⟨t, tail, derived⟩
          · exact ih (completes.of_derives (vanishes.append_right rest))
          · exact ⟨t, _, completes.of_derives (derived.append_right rest), rfl⟩

end Grammar

end Lalr
