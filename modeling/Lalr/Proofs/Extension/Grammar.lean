import Lalr.Proofs.Automaton.Construction
import Lalr.Proofs.First
import Lalr.Proofs.Grammar.Lawful

/-!
# Extensions of a grammar

A grammar extends another if it has all its symbols and productions under the same numbers, and its
further productions belong to further nonterminals.  Nothing in the smaller grammar mentions a
further symbol, so whatever starts inside the smaller grammar stays there: derivations, FIRST sets
of sequences, and closures are the same in both grammars.
-/

namespace Lalr

namespace Grammar

/-- The grammar `g'` has what `g` has, and further productions only for further nonterminals. -/
structure Extends (g g' : Grammar) : Prop where
  terminal : ∀ {t : TerminalId} {terminal : Terminal},
    g.terminals[t]? = some terminal → g'.terminals[t]? = some terminal
  nonterminals : g.nonterminals.size ≤ g'.nonterminals.size
  start : g'.start = g.start
  production : ∀ {p : ProductionId} {production : Production},
    g.productions[p]? = some production → g'.productions[p]? = some production
  left : ∀ {p : ProductionId} {production : Production}, g'.productions[p]? = some production →
    g.productions.size ≤ p → g.nonterminals.size ≤ production.left

end Grammar

theorem le_size_of_getElem? {α : Type} {small large : Array α}
    (kept : ∀ {place : Nat} {entry : α}, small[place]? = some entry → large[place]? = some entry) :
    small.size ≤ large.size := by
  by_contra less
  have inside : large.size < small.size := Nat.lt_of_not_le less
  have found := kept (Array.getElem?_eq_getElem inside)
  simp at found

namespace Grammar

variable {g g' : Grammar}

namespace Extends

variable (larger : g.Extends g')

include larger

theorem terminals_le : g.terminals.size ≤ g'.terminals.size := le_size_of_getElem? larger.terminal

theorem productions_le : g.productions.size ≤ g'.productions.size :=
  le_size_of_getElem? larger.production

/-- Productions of old nonterminals are old. -/
theorem listed_of_left {p : ProductionId} {production : Production}
    (listed : g'.productions[p]? = some production) (old : production.left < g.nonterminals.size) :
    g.productions[p]? = some production := by
  have inside : p < g.productions.size := by
    by_contra outside
    exact absurd old (Nat.not_lt.2 (larger.left listed (Nat.le_of_not_lt outside)))
  have here := Array.getElem?_eq_getElem inside
  have there := larger.production here
  rw [listed] at there
  rw [here, there]

theorem right_eq {p : ProductionId} (inside : p < g.productions.size) : g'.right p = g.right p := by
  have here := Array.getElem?_eq_getElem inside
  rw [right, right, larger.production here, here]

theorem alternatives_eq (lawful : g.Lawful) (lawful' : g'.Lawful) {n : NonterminalId}
    (old : n < g.nonterminals.size) : g'.alternatives n = g.alternatives n := by
  obtain ⟨more, size⟩ := Nat.exists_eq_add_of_le larger.productions_le
  rw [lawful.alternatives, lawful'.alternatives, size, List.range_add, List.filter_append]
  have first : ∀ p ∈ List.range g.productions.size, g'.productions[p]?.any (·.left == n) =
      g.productions[p]?.any (·.left == n) := by
    intro p inside
    have here := Array.getElem?_eq_getElem (List.mem_range.1 inside)
    rw [larger.production here, here]
  have second : ((List.range more).map (g.productions.size + ·)).filter
      (fun p => g'.productions[p]?.any (·.left == n)) = [] := by
    rw [List.filter_eq_nil_iff]
    intro p further belongs
    obtain ⟨production, listed, left⟩ := (Option.any_eq_true _ _).1 belongs
    obtain ⟨place, _, rfl⟩ := List.mem_map.1 further
    rw [beq_iff_eq] at left
    exact absurd (left ▸ old) (Nat.not_lt.2 (larger.left listed (Nat.le_add_right _ _)))
  rw [List.filter_congr first, second, List.append_nil]

/-! ## Derivations -/

theorem derives {form next : List Symbol} (derived : g.Derives form next) :
    g'.Derives form next := by
  refine Relation.ReflTransGen.mono ?_ _ _ derived
  rintro _ _ ⟨before, after, listed⟩
  exact .replace before after (larger.production listed)

/-- A form of old symbols derives in the larger grammar what it derives in the smaller one. -/
theorem derives_iff (wellFormed : g.WellFormed) {form next : List Symbol}
    (old : ∀ symbol ∈ form, g.Numbers symbol) : g'.Derives form next ↔ g.Derives form next := by
  refine ⟨fun derived => ?_, larger.derives⟩
  induction derived using Relation.ReflTransGen.head_induction_on with
  | refl => exact .refl
  | head step _ ih =>
      cases step with
      | @replace p production before after listed =>
          have left : g.Numbers (.nonterminal production.left) := old _ (by simp)
          have listed := larger.listed_of_left listed left
          refine .head (.replace before after listed) (ih ?_)
          intro symbol member
          simp only [List.mem_append, List.mem_cons] at member old
          rcases member with (front | middle) | back
          · exact old symbol (.inl front)
          · exact wellFormed.numbers listed middle
          · exact old symbol (.inr (.inr back))

/-- FIRST sets of old sequences, and whether they can vanish, are the same. -/
theorem ofSequence_eq (wellFormed : g.WellFormed) (wellFormed' : g'.WellFormed)
    {symbols : List Symbol} (old : ∀ symbol ∈ symbols, g.Numbers symbol) :
    (FirstSets.ofGrammar g').ofSequence symbols = (FirstSets.ofGrammar g).ofSequence symbols := by
  apply Prod.ext
  · ext t
    rw [Bool.eq_iff_iff, FirstSets.contains_ofSequence_iff wellFormed',
      FirstSets.contains_ofSequence_iff wellFormed]
    exact exists_congr fun rest => larger.derives_iff wellFormed old
  · rw [Bool.eq_iff_iff, FirstSets.ofSequence_nullable_iff wellFormed',
      FirstSets.ofSequence_nullable_iff wellFormed]
    exact larger.derives_iff wellFormed old

/-! ## Cores and closures -/

theorem next_eq {core : Core} (isOf : core.IsOf g) : core.next g' = core.next g := by
  rw [Core.next, Core.next, larger.right_eq isOf.lt_size]

theorem nextNonterminal_eq {core : Core} (isOf : core.IsOf g) :
    core.nextNonterminal g' = core.nextNonterminal g := by
  rw [Core.nextNonterminal, Core.nextNonterminal, larger.next_eq isOf]

theorem isReduction_eq {core : Core} (isOf : core.IsOf g) :
    core.isReduction g' = core.isReduction g := by
  rw [Core.isReduction, Core.isReduction, larger.right_eq isOf.lt_size]

theorem opens_eq {core : Core} (isOf : core.IsOf g) (n : NonterminalId) :
    core.opens g' n = core.opens g n := by
  have here := Array.getElem?_eq_getElem isOf.lt_size
  rw [Core.opens, Core.opens, larger.production here, here]

theorem openings_eq (lawful : g.Lawful) (lawful' : g'.Lawful) {n : NonterminalId}
    (old : n < g.nonterminals.size) : g'.openings n = g.openings n := by
  rw [openings, openings, larger.alternatives_eq lawful lawful' old]

theorem followers_eq {seen : IdSet} {cores : List Core} (old : ∀ core ∈ cores, core.IsOf g) :
    g'.followers seen cores = g.followers seen cores := by
  rw [followers, followers]
  congr 2
  exact List.filterMap_congr fun core member => larger.nextNonterminal_eq (old core member)

theorem moves_eq {cores : List Core} (old : ∀ core ∈ cores, core.IsOf g) :
    g'.moves cores = g.moves cores := by
  apply List.filterMap_congr
  intro core member
  rw [larger.next_eq (old core member)]

/-- Closing old cores brings up the same cores in either grammar. -/
theorem expansion_eq (wellFormed : g.WellFormed) (lawful : g.Lawful) (lawful' : g'.Lawful)
    {bound : Nat} {seen : IdSet} {cores : List Core} (old : ∀ core ∈ cores, core.IsOf g) :
    g'.expansion bound seen cores = g.expansion bound seen cores := by
  induction bound generalizing seen cores with
  | zero => rfl
  | succ bound ih =>
      have opened : (g.followers seen cores).flatMap g'.openings =
          (g.followers seen cores).flatMap g.openings := by
        apply List.flatMap_congr
        intro n follows
        obtain ⟨_, core, _, next⟩ := mem_followers.1 follows
        exact larger.openings_eq lawful lawful' (Core.declares_of_nextNonterminal wellFormed next).2
      have added : ∀ core ∈ (g.followers seen cores).flatMap g.openings, core.IsOf g := by
        intro core member
        obtain ⟨n, _, opening⟩ := List.mem_flatMap.1 member
        exact isOf_opening wellFormed opening
      simp only [expansion, larger.followers_eq old]
      split
      · rfl
      · rw [opened, ih added]

end Extends

end Grammar

end Lalr
