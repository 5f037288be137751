import Lalr.Proofs.Automaton.Path
import Lalr.Proofs.Grammar.Context

/-!
# Viable prefixes

The automaton recognises the symbols after which some core is valid: a string spells a path exactly
when it is such a prefix, and the cores of the state at its end are the valid ones.

Which cores are valid depends on what can stand before a nonterminal only.  Said in terms of such left
contexts, the automaton has a path for a string exactly if the string is a left context with the
first symbols of a production behind it.

From validity follow two facts about errors.  After a prefix, a terminal is *expected* if the prefix can
be continued by it.  Undoing a reduction never loses an expected terminal, so a terminal that is not
expected before a reduction is not expected after it either.
-/

namespace Lalr

variable {g : Grammar} {automaton : Automaton}

/-- The terminal can come next after the symbols. -/
def Grammar.Expects (g : Grammar) (before : List Symbol) (t : TerminalId) : Prop :=
  ∃ core after, g.Valid before core after ∧ g.Begins (core.suffix g ++ after) t

namespace Automaton.Canonical

/-- A core that is valid after a path is in the state at its end. -/
theorem hasCore_of_valid (canonical : automaton.Canonical g) (wellFormed : g.WellFormed)
    {before after : List Symbol} {core : Core} {id : StateId}
    (valid : g.Valid before core after)
    (path : automaton.follow? initialState before = some id) : automaton.HasCore id core := by
  induction valid generalizing id with
  | start =>
      cases path
      exact canonical.hasCore_initial
  | opening _ follows alternative ih =>
      exact canonical.hasCore_opening wellFormed (ih path) follows alternative
  | advance _ next ih =>
      obtain ⟨middle, shorter, stepped⟩ := follow?_concat.1 path
      obtain ⟨inner, _⟩ := canonical.exists_next_of_step stepped
      obtain ⟨target, same, has⟩ := canonical.hasCore_advance (ih shorter) next inner
      rw [stepped] at same
      cases same
      exact has

/-- The cores of the state at the end of a path are valid. -/
theorem valid_of_hasCore (canonical : automaton.Canonical g) {before : List Symbol}
    {core : Core} {id : StateId} (path : automaton.follow? initialState before = some id)
    (has : automaton.HasCore id core) : ∃ after, g.Valid before core after := by
  induction before using List.reverseRecOn generalizing id core with
  | nil =>
      cases path
      refine @initial_induction _ _ canonical (fun core => ∃ after, g.Valid [] core after)
        ⟨_, .start⟩ ?_ _ has
      rintro core n p ⟨after, valid⟩ follows alternative
      exact ⟨_, valid.opening follows alternative⟩
  | append_singleton front symbol ih =>
      obtain ⟨middle, shorter, stepped⟩ := follow?_concat.1 path
      refine @step_induction _ _ canonical
        (fun core => ∃ after, g.Valid (front ++ [symbol]) core after) _ _ _ stepped ?_ ?_ _ has
      · intro core inSource next
        obtain ⟨after, valid⟩ := ih shorter inSource
        exact ⟨after, valid.advance next⟩
      · rintro core n p ⟨after, valid⟩ follows alternative
        exact ⟨_, valid.opening follows alternative⟩

/-- A valid prefix without `$end` spells a path. -/
theorem path_of_valid (canonical : automaton.Canonical g) (wellFormed : g.WellFormed)
    {before after : List Symbol} {core : Core} (valid : g.Valid before core after)
    (inner : .terminal endTerminal ∉ before) :
    ∃ id, automaton.follow? initialState before = some id ∧ automaton.HasCore id core := by
  induction valid with
  | start => exact ⟨initialState, rfl, canonical.hasCore_initial⟩
  | opening _ follows alternative ih =>
      obtain ⟨id, path, has⟩ := ih inner
      exact ⟨id, path, canonical.hasCore_opening wellFormed has follows alternative⟩
  | @advance before after core symbol _ next ih =>
      simp only [List.mem_append, List.mem_singleton, not_or] at inner
      obtain ⟨middle, path, has⟩ := ih inner.1
      obtain ⟨target, stepped, moved⟩ :=
        canonical.hasCore_advance has next (fun same => inner.2 same.symm)
      exact ⟨target, follow?_concat.2 ⟨middle, path, stepped⟩, moved⟩

theorem exists_state (canonical : automaton.Canonical g) {before : List Symbol} {id : StateId}
    (path : automaton.follow? initialState before = some id) :
    ∃ state, automaton.states[id]? = some state := by
  induction before using List.reverseRecOn with
  | nil =>
      cases path
      obtain ⟨state, found, _⟩ := canonical.initial
      exact ⟨state, found⟩
  | append_singleton front symbol _ =>
      obtain ⟨middle, _, stepped⟩ := follow?_concat.1 path
      obtain ⟨_, reached, _, known, _⟩ := canonical.of_step stepped
      exact ⟨reached, known⟩

theorem end_not_mem_path (canonical : automaton.Canonical g) {before : List Symbol}
    {source id : StateId} (path : automaton.follow? source before = some id) :
    .terminal endTerminal ∉ before := by
  induction before generalizing source with
  | nil => simp
  | cons symbol rest ih =>
      obtain ⟨middle, stepped, further⟩ := Option.bind_eq_some_iff.1 path
      have inner := (canonical.exists_next_of_step stepped).1
      simp only [List.mem_cons, not_or]
      exact ⟨inner.symm, ih further⟩

/-- Where a production has been recognised, its symbols are the last of the path, and the
nonterminal on its left leads on from where they began. -/
theorem exists_goto (canonical : automaton.Canonical g) (wellFormed : g.WellFormed)
    {before : List Symbol} {id : StateId} {p : ProductionId} {production : Production}
    (path : automaton.follow? initialState before = some id)
    (listed : g.productions[p]? = some production)
    (complete : automaton.HasCore id ⟨p, production.right.size⟩) :
    ∃ front middle target, before = front ++ production.right.toList ∧
      automaton.follow? initialState front = some middle ∧
      automaton.step? middle (.nonterminal production.left) = some target := by
  obtain ⟨after, valid⟩ := canonical.valid_of_hasCore path complete
  obtain ⟨front, again, listed', _, context, rfl⟩ := (Grammar.valid_iff wellFormed).1 valid
  rw [listed] at listed'
  cases listed'
  rw [← Array.length_toList, List.take_length] at path ⊢
  have other : production.left ≠ startNonterminal := by
    intro reserved
    have accept := wellFormed.eq_acceptProduction listed reserved
    rw [accept, wellFormed.augmented] at listed
    cases listed
    exact canonical.end_not_mem_path path (by simp [Definition.augmented])
  obtain ⟨core, rest, valid, next⟩ := context.exists_next wellFormed other
  obtain ⟨middle, shorter, _⟩ := Option.bind_eq_some_iff.1 (follow?_append .. ▸ path)
  obtain ⟨target, stepped, _⟩ := canonical.hasCore_advance
    (canonical.hasCore_of_valid wellFormed valid shorter) next (by simp)
  exact ⟨front, middle, target, rfl, shorter, stepped⟩

/-- Only the start symbol leads to the state in which the end of input is accepted. -/
theorem path_of_accepting (canonical : automaton.Canonical g) (wellFormed : g.WellFormed)
    {before : List Symbol} {id : StateId} (accepting : automaton.accepting? g = some id)
    (path : automaton.follow? initialState before = some id) :
    before = [.nonterminal g.start] := by
  have next : Core.next g ⟨acceptProduction, 0⟩ = some (.nonterminal g.start) :=
    Core.next_eq_some.2 ⟨_, wellFormed.augmented, rfl⟩
  obtain ⟨target, stepped, has⟩ :=
    canonical.hasCore_advance canonical.hasCore_initial next (by simp)
  have same : automaton.step? initialState (.nonterminal g.start) = some id := accepting
  rw [stepped] at same
  cases same
  obtain ⟨after, valid⟩ := canonical.valid_of_hasCore path has
  obtain ⟨front, production, listed, _, context, rfl⟩ := (Grammar.valid_iff wellFormed).1 valid
  have augmented := wellFormed.augmented.symm.trans listed
  cases augmented
  obtain ⟨rfl, _⟩ := context.of_start wellFormed
  rfl

theorem accepting_of_next (wellFormed : g.WellFormed)
    {before after : List Symbol} {id : StateId} {core : Core}
    (path : automaton.follow? initialState before = some id) (valid : g.Valid before core after)
    (next : core.next g = some (.terminal endTerminal)) : automaton.accepting? g = some id := by
  obtain ⟨production, listed, here⟩ := Core.next_eq_some.1 next
  have accept : core.production = acceptProduction := by
    by_contra other
    exact (wellFormed.right listed other _ (List.mem_of_getElem? here)).1 rfl
  rw [accept, wellFormed.augmented] at listed
  cases listed
  have dot : core.dot = 1 := by
    obtain ⟨_, _ | _ | dot⟩ := core
    · cases here
    · rfl
    · simp [Definition.augmented] at here
  obtain ⟨front, production, listed, _, context, rfl⟩ := (Grammar.valid_iff wellFormed).1 valid
  rw [accept, wellFormed.augmented] at listed
  cases listed
  obtain ⟨rfl, _⟩ := context.of_start wellFormed
  rw [dot] at path
  obtain ⟨target, stepped, same⟩ := Option.bind_eq_some_iff.1 path
  cases same
  exact stepped

theorem expects_of_step (canonical : automaton.Canonical g) {before : List Symbol}
    {id target : StateId} {t : TerminalId}
    (path : automaton.follow? initialState before = some id)
    (stepped : automaton.step? id (.terminal t) = some target) : g.Expects before t := by
  obtain ⟨_, core, has, next⟩ := canonical.exists_next_of_step stepped
  obtain ⟨after, valid⟩ := canonical.valid_of_hasCore path has
  refine ⟨core, after, valid, ?_⟩
  rw [Core.suffix_of_next next]
  exact Grammar.begins_terminal t _

end Automaton.Canonical

namespace Grammar

theorem WellFormed.expects_end (wellFormed : g.WellFormed) :
    g.Expects [.nonterminal g.start] endTerminal := by
  have next : Core.next g ⟨acceptProduction, 0⟩ = some (.nonterminal g.start) :=
    Core.next_eq_some.2 ⟨_, wellFormed.augmented, rfl⟩
  have ending : Core.next g ⟨acceptProduction, 1⟩ = some (.terminal endTerminal) :=
    Core.next_eq_some.2 ⟨_, wellFormed.augmented, rfl⟩
  refine ⟨_, _, Valid.start.advance next, ?_⟩
  rw [Core.advance, Core.suffix_of_next ending]
  exact begins_terminal _ _

/-- What is expected after a nonterminal can follow it in some context. -/
theorem Expects.valid_opening (wellFormed : g.WellFormed) {before : List Symbol}
    {n : NonterminalId} {t : TerminalId} (expected : g.Expects (before ++ [.nonterminal n]) t)
    {p : ProductionId} (alternative : p ∈ g.alternatives n) :
    ∃ after, g.Valid before ⟨p, 0⟩ after ∧ g.Begins after t := by
  obtain ⟨core, after, valid, begins⟩ := expected
  generalize whole : before ++ [Symbol.nonterminal n] = symbols at valid
  induction valid with
  | start => simp at whole
  | @opening symbols after core m q _ follows opened ih =>
      apply ih _ whole
      obtain ⟨production, listed, rfl⟩ := wellFormed.alternatives.1 opened
      rw [Core.suffix_opening listed] at begins
      rw [Core.suffix_of_next (Core.nextNonterminal_eq_some.1 follows)]
      exact .of_derives (.expand listed _) begins
  | @advance symbols after core symbol valid next _ =>
      obtain ⟨rfl, same⟩ := List.append_inj' whole rfl
      cases same
      refine ⟨_, valid.opening (Core.nextNonterminal_eq_some.2 next) alternative, ?_⟩
      rwa [Core.suffix_advance] at begins

/-- Where a terminal is expected, it can be read at once, or a production has been recognised and
the terminal can follow its left-hand side. -/
theorem Expects.exists_ready (wellFormed : g.WellFormed) {before : List Symbol} {t : TerminalId}
    (expected : g.Expects before t) : ∃ core after, g.Valid before core after ∧
      (core.next g = some (.terminal t) ∨ core.suffix g = [] ∧ g.Begins after t) := by
  have recognised : ∀ {core : Core} {after : List Symbol} {t : TerminalId},
      g.Begins (core.suffix g ++ after) t → core.next g = none →
        core.suffix g = [] ∧ g.Begins after t := by
    intro core after t begins ended
    rw [Core.suffix_eq_nil.2 ended] at begins ⊢
    exact ⟨rfl, begins⟩
  obtain ⟨core, after, valid, begins⟩ := expected
  have exposed := begins_iff_exposes.1 begins
  generalize whole : core.suffix g ++ after = symbols at exposed
  -- The induction follows the expansions that bring the terminal to the front: each one is an
  -- opening of the core at hand.
  induction exposed generalizing core after with
  | front t rest =>
      cases next : core.next g with
      | none => exact ⟨core, after, valid, .inr (recognised begins next)⟩
      | some symbol =>
          rw [Core.suffix_of_next next, List.cons_append, List.cons.injEq] at whole
          exact ⟨core, after, valid, .inl (by rw [next, whole.1])⟩
  | @expand p production rest t listed exposed ih =>
      cases next : core.next g with
      | none => exact ⟨core, after, valid, .inr (recognised begins next)⟩
      | some symbol =>
          rw [Core.suffix_of_next next, List.cons_append, List.cons.injEq] at whole
          obtain ⟨rfl, rfl⟩ := whole
          have opened := valid.opening (Core.nextNonterminal_eq_some.2 next)
            (wellFormed.alternatives.2 ⟨production, listed, rfl⟩)
          have same := Core.suffix_opening listed
          refine ih _ _ opened ?_ (by rw [same])
          rw [same]
          exact begins_iff_exposes.2 exposed

/-- A terminal that is expected after a reduction was expected before it. -/
theorem Expects.unreduce (wellFormed : g.WellFormed) {before : List Symbol} {p : ProductionId}
    {production : Production} {t : TerminalId} (listed : g.productions[p]? = some production)
    (expected : g.Expects (before ++ [.nonterminal production.left]) t) :
    g.Expects (before ++ production.right.toList) t := by
  obtain ⟨after, valid, begins⟩ :=
    expected.valid_opening wellFormed (wellFormed.alternatives.2 ⟨production, listed, rfl⟩)
  refine ⟨_, after, valid.complete listed, ?_⟩
  rwa [Core.suffix_complete listed]

end Grammar

/-! ## Left contexts -/

namespace Grammar

/-- What can stand before a nonterminal. -/
inductive LeftContext (g : Grammar) : List Symbol → NonterminalId → Prop
  | start : LeftContext g [] startNonterminal
  | descend {p : ProductionId} {production : Production} {before front back : List Symbol}
      {n : NonterminalId} (outer : LeftContext g before production.left)
      (listed : g.productions[p]? = some production)
      (split : production.right.toList = front ++ .nonterminal n :: back) :
      LeftContext g (before ++ front) n

theorem leftContext_iff {before : List Symbol} {n : NonterminalId} :
    g.LeftContext before n ↔ ∃ after, g.Context before n after := by
  constructor
  · intro context
    induction context with
    | start => exact ⟨_, .start⟩
    | descend _ listed split ih =>
        obtain ⟨after, outer⟩ := ih
        exact ⟨_, outer.descend listed split⟩
  · rintro ⟨after, context⟩
    induction context with
    | start => exact .start
    | descend _ listed split ih => exact ih.descend listed split

/-- The symbols are a left context of the left-hand side of the core, and then the symbols before
its dot. -/
def LeadsTo (g : Grammar) (symbols : List Symbol) (core : Core) : Prop :=
  ∃ before production, g.productions[core.production]? = some production ∧
    core.dot ≤ production.right.size ∧ g.LeftContext before production.left ∧
    symbols = before ++ production.right.toList.take core.dot

theorem leadsTo_iff (wellFormed : g.WellFormed) {symbols : List Symbol} {core : Core} :
    g.LeadsTo symbols core ↔ ∃ after, g.Valid symbols core after := by
  constructor
  · rintro ⟨before, production, listed, inside, context, split⟩
    obtain ⟨after, context⟩ := leftContext_iff.1 context
    exact ⟨after, (valid_iff wellFormed).2 ⟨before, production, listed, inside, context, split⟩⟩
  · rintro ⟨after, valid⟩
    obtain ⟨before, production, listed, inside, context, split⟩ := (valid_iff wellFormed).1 valid
    exact ⟨before, production, listed, inside, leftContext_iff.2 ⟨after, context⟩, split⟩

end Grammar

/-- A path leads to a state that has some core. -/
theorem Automaton.Canonical.exists_core (canonical : automaton.Canonical g)
    {symbols : List Symbol} {id : StateId}
    (path : automaton.follow? initialState symbols = some id) :
    ∃ core, automaton.HasCore id core := by
  induction symbols using List.reverseRecOn with
  | nil =>
      cases path
      exact ⟨_, canonical.hasCore_initial⟩
  | append_singleton front symbol _ =>
      obtain ⟨middle, _, stepped⟩ := follow?_concat.1 path
      obtain ⟨inner, core, has, next⟩ := canonical.exists_next_of_step stepped
      obtain ⟨target, same, moved⟩ := canonical.hasCore_advance has next inner
      rw [stepped] at same
      cases same
      exact ⟨_, moved⟩

/-- The automaton has a path for a string of symbols other than `$end` exactly if the string is a left
context, followed by the first symbols of a production of the nonterminal.  The cores of the state to
which the path leads are all the cores for which this is so. -/
theorem paths_spell_viable_prefixes (defined : g.IsDefined) {symbols : List Symbol}
    (inner : .terminal endTerminal ∉ symbols) :
    ((∃ id, (Automaton.build g).follow? initialState symbols = some id) ↔
      ∃ core, g.LeadsTo symbols core) ∧
    ∀ id, (Automaton.build g).follow? initialState symbols = some id →
      ∀ core, (Automaton.build g).HasCore id core ↔ g.LeadsTo symbols core := by
  have wellFormed := defined.wellFormed
  have canonical := Automaton.canonical_build wellFormed
  have cores : ∀ id, (Automaton.build g).follow? initialState symbols = some id →
      ∀ core, (Automaton.build g).HasCore id core ↔ g.LeadsTo symbols core := by
    intro id path core
    rw [Grammar.leadsTo_iff wellFormed]
    constructor
    · exact canonical.valid_of_hasCore path
    · rintro ⟨after, valid⟩
      exact canonical.hasCore_of_valid wellFormed valid path
  refine ⟨⟨?_, ?_⟩, cores⟩
  · rintro ⟨id, path⟩
    obtain ⟨core, has⟩ := canonical.exists_core path
    exact ⟨core, (cores id path core).1 has⟩
  · rintro ⟨core, leads⟩
    obtain ⟨after, valid⟩ := (Grammar.leadsTo_iff wellFormed).1 leads
    obtain ⟨id, path, _⟩ := canonical.path_of_valid wellFormed valid inner
    exact ⟨id, path⟩

/-- Behind two open brackets one of them can be closed; nothing begins with a closing one. -/
theorem paths_spell_viable_prefixes_brackets :
    Grammar.brackets.LeadsTo [.terminal 1, .terminal 1, .nonterminal 1, .terminal 2] ⟨1, 3⟩ ∧
      ¬ ∃ core, Grammar.brackets.LeadsTo [.terminal 2] core := by
  have deep := @paths_spell_viable_prefixes _ Grammar.isDefined_brackets
    [.terminal 1, .terminal 1, .nonterminal 1, .terminal 2] (by decide)
  have closing := @paths_spell_viable_prefixes _ Grammar.isDefined_brackets [.terminal 2] (by decide)
  constructor
  · exact (deep.2 4 (by decide +kernel) ⟨1, 3⟩).1
      ⟨⟨[⟨1, 3⟩], [], 8, []⟩, by decide +kernel, by decide +kernel⟩
  · rw [← closing.1]
    rintro ⟨id, path⟩
    have none_there : (Automaton.build .brackets).follow? initialState [.terminal 2] = none := by
      decide +kernel
    rw [none_there] at path
    cases path

end Lalr
