import Lalr.Proofs.Grammar.Completion
import Lalr.Proofs.Parser.Run
import Lalr.Proofs.Table.Answers

/-!
# Dead productions

A production is reported as dead when no item in which it is complete has a lookahead.  The
lookaheads of an item are what can follow it in some context, so a production is alive exactly if
something can follow its left-hand side in a context of it.

An unreachable nonterminal has no context.  A parser, for its part, reduces a production only where
something can follow it, also by default.  And where every nonterminal derives a word, something
follows in every context: if nothing else, the end of input.
-/

namespace Lalr

variable {g : Grammar}

namespace Grammar

/-- The second nonterminal stands on the right-hand side of a production of the first. -/
def Mentions (g : Grammar) (m n : NonterminalId) : Prop :=
  ∃ (p : ProductionId) (production : Production), g.productions[p]? = some production ∧
    production.left = m ∧ .nonterminal n ∈ production.right.toList

/-- Right-hand sides lead from the start symbol to the nonterminal. -/
def Reachable (g : Grammar) : NonterminalId → Prop := Relation.ReflTransGen g.Mentions g.start

/-- Every declared nonterminal derives a word. -/
def Productive (g : Grammar) : Prop :=
  ∀ n, g.Declares (.nonterminal n) →
    ∃ word : List TerminalId, g.Derives [.nonterminal n] (word.map .terminal)

theorem Reachable.exists_context (wellFormed : g.WellFormed) {n : NonterminalId}
    (reachable : g.Reachable n) : ∃ before after, g.Context before n after := by
  induction reachable with
  | refl => exact ⟨_, _, .descend .start wellFormed.augmented (List.nil_append _).symm⟩
  | tail _ mentioned ih =>
      obtain ⟨before, after, context⟩ := ih
      obtain ⟨p, production, listed, rfl, member⟩ := mentioned
      obtain ⟨front, back, split⟩ := List.append_of_mem member
      exact ⟨_, _, context.descend listed split⟩

theorem Reachable.declares (wellFormed : g.WellFormed) {n : NonterminalId}
    (reachable : g.Reachable n) : g.Declares (.nonterminal n) := by
  induction reachable with
  | refl => exact wellFormed.start
  | tail _ mentioned _ =>
      obtain ⟨_, _, listed, _, member⟩ := mentioned
      exact wellFormed.nonterminal_declared listed member

/-- Only reachable nonterminals have contexts. -/
theorem Context.reachable (wellFormed : g.WellFormed) {before after : List Symbol}
    {n : NonterminalId} (context : g.Context before n after) (other : n ≠ startNonterminal) :
    g.Reachable n := by
  induction context with
  | start => exact absurd rfl other
  | @descend p production before after front back n outer listed split ih =>
      have member : Symbol.nonterminal n ∈ production.right.toList := by simp [split]
      by_cases reserved : production.left = startNonterminal
      · rw [wellFormed.eq_acceptProduction listed reserved, wellFormed.augmented] at listed
        cases listed
        have same : n = g.start := by simpa [Definition.augmented] using member
        rw [same]
        exact .refl
      · exact (ih reserved).tail ⟨p, production, listed, rfl, member⟩

/-- A nonterminal that derives a word can vanish, or begin with a terminal. -/
theorem Productive.hasFirsts (wellFormed : g.WellFormed) (productive : g.Productive) :
    g.HasFirsts := by
  intro before n after derived
  have declared := wellFormed.declares_of_derives derived (.nonterminal n) (by simp)
  obtain ⟨word, spelled⟩ := productive n declared
  cases word with
  | nil => exact .inl spelled
  | cons t rest => exact .inr ⟨t, _, spelled⟩

/-- Something can follow every production with a reachable left-hand side. -/
theorem Productive.exists_valid (wellFormed : g.WellFormed) (productive : g.Productive)
    {p : ProductionId} {production : Production} (listed : g.productions[p]? = some production)
    (reachable : g.Reachable production.left) :
    ∃ before after t, g.Valid before ⟨p, production.right.size⟩ after ∧ g.Begins after t ∧
      .terminal endTerminal ∉ before := by
  have declared := reachable.declares wellFormed
  obtain ⟨before, after, context⟩ := reachable.exists_context wellFormed
  obtain ⟨rest, _, completes⟩ := context.completes wellFormed declared.1
  obtain ⟨t, next, finishes, leads⟩ := (productive.hasFirsts wellFormed).exists_leading completes
  obtain ⟨tail, context, derived⟩ := finishes.exists_context wellFormed
  have valid := (context.valid wellFormed listed rfl).complete listed
  refine ⟨_, tail, t, valid, .of_derives derived leads.begins, ?_⟩
  have other : p ≠ acceptProduction := by
    rintro rfl
    rw [wellFormed.augmented] at listed
    cases listed
    exact declared.1 rfl
  intro ended
  rcases List.mem_append.1 ended with inBefore | inRight
  · have inForm : Symbol.terminal endTerminal ∈ before ++ [.nonterminal production.left] ++ next := by
      simp [inBefore]
    exact (finishes.declares wellFormed _ inForm).1 rfl
  · exact (wellFormed.right listed other _ inRight).1 rfl

end Grammar

/-! ## What is reported -/

namespace IdSet

/-- A fold whose steps add members collects what they add. -/
theorem contains_foldl {α : Type} {step : IdSet → α → IdSet} {id : Nat} {adds : α → Prop}
    (steps : ∀ set entry, (step set entry).contains id = true ↔
      set.contains id = true ∨ adds entry) (entries : List α) (set : IdSet) :
    (entries.foldl step set).contains id = true ↔
      set.contains id = true ∨ ∃ entry ∈ entries, adds entry := by
  induction entries generalizing set with
  | nil => simp
  | cons head tail ih =>
      rw [List.foldl_cons, ih, steps, or_assoc]
      simp

end IdSet

namespace Diagnostic

variable {p : ProductionId} {defaultReductions : Bool}

theorem contains_reducedProductions {automaton : Automaton} {lookaheads : Lookaheads} :
    (reducedProductions g automaton lookaheads).contains p = true ↔
      ∃ (id : StateId) (item : Nat) (t : TerminalId),
        automaton.HasItem id ⟨p, (g.right p).size⟩ item ∧
          (lookaheads.ofItem item).contains t = true := by
  have inEntry : ∀ (set : IdSet) (entry : ProductionId × TerminalSet),
      (if entry.2.isEmpty then set else set.insert entry.1).contains p = true ↔
        set.contains p = true ∨ entry.1 = p ∧ entry.2.isEmpty = false := by
    intro set entry
    cases entry.2.isEmpty <;> simp
  have inState := fun (set : IdSet) (state : State) =>
    IdSet.contains_foldl inEntry (state.reductions g lookaheads) set
  rw [reducedProductions, ← Array.foldl_toList,
    IdSet.contains_foldl inState automaton.states.toList ∅]
  simp only [IdSet.contains_empty, Bool.false_eq_true, false_or, Automaton.mem_states]
  constructor
  · rintro ⟨state, ⟨id, found⟩, ⟨_, set⟩, listed, rfl, occupied⟩
    obtain ⟨item, numbered, rfl⟩ := mem_reductions.1 listed
    obtain ⟨t, member⟩ := IdSet.isEmpty_eq_false_iff.1 occupied
    exact ⟨id, item, t, ⟨state, found, numbered⟩, member⟩
  · rintro ⟨id, item, t, ⟨state, found, numbered⟩, member⟩
    exact ⟨state, ⟨id, found⟩, ⟨p, _⟩, mem_reductions.2 ⟨item, numbered, rfl⟩, rfl,
      IdSet.isEmpty_eq_false_iff.2 ⟨t, member⟩⟩

/-- A production is dead when nothing can follow it after any path. -/
theorem deadProduction_mem_iff (wellFormed : g.WellFormed) :
    .deadProduction p ∈ (g.generate defaultReductions).diagnostics ↔
      p < g.productions.size ∧ p ≠ acceptProduction ∧
        ¬ ∃ id t, (Automaton.build g).Follows g id ⟨p, (g.right p).size⟩ t := by
  have canonical := Automaton.canonical_build wellFormed
  have alive : (reducedProductions g (Automaton.build g)
      ((Automaton.build g).propagate g).lookaheads).contains p = true ↔
        ∃ id t, (Automaton.build g).Follows g id ⟨p, (g.right p).size⟩ t := by
    rw [contains_reducedProductions]
    constructor
    · rintro ⟨id, item, t, has, member⟩
      exact ⟨id, t, (canonical.contains_propagate_iff wellFormed has).1 member⟩
    · rintro ⟨id, t, before, after, path, valid, begins⟩
      obtain ⟨item, has⟩ := (canonical.hasCore_of_valid wellFormed valid path).exists_item
      exact ⟨id, item, t, has,
        canonical.contains_propagate_of_valid wellFormed valid path has begins⟩
  rw [← alive]
  simp [Grammar.generate, collect]

theorem not_dead_of_follows (wellFormed : g.WellFormed) {id : StateId} {t : TerminalId}
    (follows : (Automaton.build g).Follows g id ⟨p, (g.right p).size⟩ t) :
    .deadProduction p ∉ (g.generate defaultReductions).diagnostics := by
  intro reported
  exact ((deadProduction_mem_iff wellFormed).1 reported).2.2 ⟨id, t, follows⟩

end Diagnostic

/-! ## What is reduced -/

/-- What a generated table reduces can be followed by something. -/
theorem exists_follows_of_answer (wellFormed : g.WellFormed) {defaultReductions : Bool}
    {id : StateId} {look : Option Symbol} {p : ProductionId} {left : Symbol} {length : Nat}
    (answered : (g.parser defaultReductions).action id look = .reduce p left length) :
    ∃ t, (Automaton.build g).Follows g id ⟨p, (g.right p).size⟩ t := by
  cases question : asked look with
  | some t =>
      rw [parser_asked question] at answered
      obtain ⟨follower, _, follows⟩ := exists_follower wellFormed answered
      exact ⟨follower, follows⟩
  | none =>
      rcases look with _ | t | n
      · cases question
      · cases question
      · cases found : (Automaton.build g).states[id]? with
        | none =>
            rw [parser_of_missing found] at answered
            cases answered
        | some state =>
            rw [parser_goto found] at answered
            split at answered <;> cases answered

/-- Warnings of dead productions are right.  Whatever the start symbol does not lead to is reported;
no parser ever reduces what is reported, whatever it is given to read; and if every nonterminal
derives a word, nothing is reported that the start symbol leads to. -/
theorem deadProduction_warnings_are_right (defined : g.IsDefined) (defaultReductions : Bool) :
    (∀ (p : ProductionId) (production : Production), g.productions[p]? = some production →
      p ≠ acceptProduction → ¬ g.Reachable production.left →
        .deadProduction p ∈ (g.generate defaultReductions).diagnostics) ∧
    (∀ p : ProductionId, .deadProduction p ∈ (g.generate defaultReductions).diagnostics →
      ∀ (input : Parser.Input Symbol) (count : Nat) (arguments : List (Parser.Item Symbol)),
        .ok (.reduce p arguments) ∉ (Parser.Machine.runs (g.parser defaultReductions) count
          (.start (g.parser defaultReductions)) input).1) ∧
    (g.Productive → ∀ (p : ProductionId) (production : Production),
      g.productions[p]? = some production → g.Reachable production.left →
        .deadProduction p ∉ (g.generate defaultReductions).diagnostics) := by
  have wellFormed := defined.wellFormed
  have canonical := Automaton.canonical_build wellFormed
  refine ⟨?_, ?_, ?_⟩
  · intro p production listed other unreachable
    rw [Diagnostic.deadProduction_mem_iff wellFormed]
    refine ⟨(Array.getElem?_eq_some_iff.1 listed).1, other, ?_⟩
    rintro ⟨id, t, before, after, _, valid, _⟩
    obtain ⟨front, again, listed', _, context, _⟩ := (Grammar.valid_iff wellFormed).1 valid
    rw [listed] at listed'
    cases listed'
    exact unreachable (context.reachable wellFormed (wellFormed.left listed other).1)
  · intro p dead input count arguments reported
    obtain ⟨id, look, left, length, answered⟩ := Parser.Machine.exists_answer_of_runs rfl reported
    obtain ⟨t, follows⟩ := exists_follows_of_answer wellFormed answered
    exact Diagnostic.not_dead_of_follows wellFormed follows dead
  · intro productive p production listed reachable
    obtain ⟨before, after, t, valid, begins, inner⟩ :=
      productive.exists_valid wellFormed listed reachable
    obtain ⟨id, path, _⟩ := canonical.path_of_valid wellFormed valid inner
    rw [← Core.right_of_listed listed] at valid
    exact Diagnostic.not_dead_of_follows wellFormed ⟨before, after, path, valid, begins⟩

/-- The grammar `S -> a`, with a nonterminal to spare: `U -> b`. -/
def Grammar.spare : Grammar where
  terminals := #[⟨"$end", none, none⟩, ⟨"a", none, none⟩, ⟨"b", none, none⟩]
  nonterminals := #[⟨"$start", none⟩, ⟨"S", none⟩, ⟨"U", none⟩]
  productions := #[
    ⟨startNonterminal, #[.nonterminal 1, .terminal endTerminal], none⟩,
    ⟨1, #[.terminal 1], none⟩,
    ⟨2, #[.terminal 2], none⟩]
  start := 1
  groups := #[[acceptProduction], [1], [2]]

theorem Grammar.isDefined_spare : spare.IsDefined :=
  ⟨[.terminal "a", .terminal "b", .nonterminal "S", .nonterminal "U", .rule "S" ["a"] none,
    .rule "U" ["b"] none], by decide +kernel⟩

theorem Grammar.not_reachable_spare : ¬ spare.Reachable 2 := by
  have leaf : ∀ production ∈ spare.productions.toList, production.left = 1 →
      production.right.toList = [.terminal 1] := by decide
  have only : ∀ n, spare.Reachable n → n = 1 := by
    intro n reachable
    induction reachable with
    | refl => rfl
    | tail _ mentioned ih =>
        obtain ⟨p, production, listed, left, member⟩ := mentioned
        have member' := Array.mem_toList_iff.2 (Array.mem_of_getElem? listed)
        rw [leaf production member' (left.trans ih)] at member
        simp at member
  intro reachable
  exact absurd (only 2 reachable) (by decide)

theorem Grammar.productive_spare : spare.Productive := by
  have first : spare.productions[1]? = some ⟨1, #[.terminal 1], none⟩ := rfl
  have second : spare.productions[2]? = some ⟨2, #[.terminal 2], none⟩ := rfl
  intro n declared
  rcases n with _ | _ | _ | n
  · exact absurd rfl declared.1
  · exact ⟨[1], Derives.expand first []⟩
  · exact ⟨[2], Derives.expand second []⟩
  · exact absurd declared.2 (by simp [spare])

/-- The spare production is reported and never reduced, and the other one is not reported. -/
theorem deadProduction_warnings_are_right_spare :
    .deadProduction 2 ∈ (Grammar.spare.generate true).diagnostics ∧
      .deadProduction 1 ∉ (Grammar.spare.generate true).diagnostics ∧
      .ok (.reduce 2 [.token ⟨.terminal 2, "b"⟩]) ∉
        (Parser.Machine.runs (Grammar.spare.parser true) 3 (.start (Grammar.spare.parser true))
          [.ok ⟨.terminal 2, "b"⟩]).1 := by
  obtain ⟨unreachable, never, reachable⟩ :=
    deadProduction_warnings_are_right Grammar.isDefined_spare true
  have dead := unreachable 2 _ rfl (by decide) Grammar.not_reachable_spare
  exact ⟨dead, reachable Grammar.productive_spare 1 _ rfl .refl, never 2 dead _ _ _⟩

end Lalr
