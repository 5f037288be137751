import Lalr.Proofs.Closure
import Lalr.Proofs.Grammar.Derivation

/-!
# Contexts and valid cores

A context of a nonterminal is what can stand before it and after it when productions are entered
from left to right, starting from the augmented one.  A core is valid after some symbols when these
are the left part of a context of its left-hand side, followed by the symbols before the dot.

`Valid` says the latter by the three rules that the closures and moves of an automaton follow;
`valid_iff` shows that it amounts to the same.  Inductions over what an automaton does use the
rules, statements about the grammar use contexts.
-/

namespace Lalr

namespace Core

variable {g : Grammar}

/-- The symbols after the dot. -/
def suffix (g : Grammar) (core : Core) : List Symbol :=
  (g.right core.production).toList.drop core.dot

theorem suffix_of_next {core : Core} {symbol : Symbol} (next : core.next g = some symbol) :
    core.suffix g = symbol :: core.rest g := by
  obtain ⟨inside, here⟩ := Array.getElem?_eq_some_iff.1 next
  have bound : core.dot < (g.right core.production).toList.length := by simpa using inside
  rw [suffix, rest, List.drop_eq_getElem_cons bound]
  simp [here]

theorem suffix_eq_nil {core : Core} : core.suffix g = [] ↔ core.next g = none := by
  rw [suffix, next, List.drop_eq_nil_iff, Array.length_toList, Array.getElem?_eq_none_iff]

theorem suffix_advance (core : Core) : core.advance.suffix g = core.rest g := rfl

theorem right_of_listed {p : ProductionId} {production : Production}
    (listed : g.productions[p]? = some production) : g.right p = production.right := by
  simp [Grammar.right, listed]

theorem suffix_opening {p : ProductionId} {production : Production}
    (listed : g.productions[p]? = some production) :
    suffix g ⟨p, 0⟩ = production.right.toList := by
  simp [suffix, right_of_listed listed]

theorem suffix_complete {p : ProductionId} {production : Production}
    (listed : g.productions[p]? = some production) :
    suffix g ⟨p, production.right.size⟩ = [] := by
  rw [suffix, right_of_listed listed]
  exact List.drop_eq_nil_of_le (Nat.le_of_eq (Array.length_toList ..))

end Core

namespace Grammar

variable {g : Grammar}

/-- What can stand before a nonterminal, and after it. -/
inductive Context (g : Grammar) : List Symbol → NonterminalId → List Symbol → Prop
  | start : Context g [] startNonterminal [.terminal endTerminal]
  | descend {p : ProductionId} {production : Production} {before after front back : List Symbol}
      {n : NonterminalId} (outer : Context g before production.left after)
      (listed : g.productions[p]? = some production)
      (split : production.right.toList = front ++ .nonterminal n :: back) :
      Context g (before ++ front) n (back ++ after)

/-- The core is valid after some symbols, and the last argument can follow its left-hand side. -/
inductive Valid (g : Grammar) : List Symbol → Core → List Symbol → Prop
  | start : Valid g [] ⟨acceptProduction, 0⟩ [.terminal endTerminal]
  | opening {before after : List Symbol} {core : Core} {n : NonterminalId} {p : ProductionId}
      (outer : Valid g before core after) (follows : core.nextNonterminal g = some n)
      (alternative : p ∈ g.alternatives n) : Valid g before ⟨p, 0⟩ (core.rest g ++ after)
  | advance {before after : List Symbol} {core : Core} {symbol : Symbol}
      (valid : Valid g before core after) (next : core.next g = some symbol) :
      Valid g (before ++ [symbol]) core.advance after

theorem Valid.take {before after : List Symbol} {p : ProductionId} {production : Production}
    (valid : g.Valid before ⟨p, 0⟩ after) (listed : g.productions[p]? = some production)
    {dot : Nat} (inside : dot ≤ production.right.size) :
    g.Valid (before ++ production.right.toList.take dot) ⟨p, dot⟩ after := by
  induction dot with
  | zero => simpa using valid
  | succ dot ih =>
      have bound : dot < production.right.toList.length := by
        rw [Array.length_toList]
        exact inside
      have next : Core.next g ⟨p, dot⟩ = some production.right.toList[dot] :=
        Core.next_eq_some.2 ⟨production, listed, List.getElem?_eq_getElem bound⟩
      have moved := (ih (Nat.le_of_succ_le inside)).advance next
      rwa [List.append_assoc, List.take_concat_get' _ _ bound] at moved

theorem Valid.complete {before after : List Symbol} {p : ProductionId} {production : Production}
    (valid : g.Valid before ⟨p, 0⟩ after) (listed : g.productions[p]? = some production) :
    g.Valid (before ++ production.right.toList) ⟨p, production.right.size⟩ after := by
  have moved := valid.take listed (Nat.le_refl _)
  rwa [← Array.length_toList, List.take_length] at moved

/-- The dot of a valid core can be moved to any nonterminal of its production. -/
theorem Valid.reach {before after front back : List Symbol} {p : ProductionId}
    {production : Production} {n : NonterminalId} (valid : g.Valid before ⟨p, 0⟩ after)
    (listed : g.productions[p]? = some production)
    (split : production.right.toList = front ++ .nonterminal n :: back) :
    g.Valid (before ++ front) ⟨p, front.length⟩ after ∧
      Core.nextNonterminal g ⟨p, front.length⟩ = some n ∧
      Core.rest g ⟨p, front.length⟩ = back := by
  have inside : front.length ≤ production.right.size := by
    have total := congrArg List.length split
    simp only [Array.length_toList, List.length_append] at total
    omega
  refine ⟨?_, ?_, ?_⟩
  · have reached := valid.take listed inside
    rwa [split, List.take_left] at reached
  · rw [Core.nextNonterminal_eq_some]
    exact Core.next_eq_some.2 ⟨production, listed, by simp [split]⟩
  · simp [Core.rest, Core.right_of_listed listed, split]

/-- The productions of a nonterminal are valid, with the dot in front, in each of its contexts. -/
theorem Context.valid (wellFormed : g.WellFormed) {before after : List Symbol}
    {n : NonterminalId} (context : g.Context before n after) {p : ProductionId}
    {production : Production} (listed : g.productions[p]? = some production)
    (left : production.left = n) : g.Valid before ⟨p, 0⟩ after := by
  induction context generalizing p production with
  | start =>
      rw [wellFormed.eq_acceptProduction listed left]
      exact .start
  | @descend q outside before after front back n _ known split ih =>
      obtain ⟨reached, follows, rest⟩ := (ih known rfl).reach known split
      have opened := reached.opening follows (wellFormed.alternatives.2 ⟨production, listed, left⟩)
      rwa [rest] at opened

theorem Context.of_start (wellFormed : g.WellFormed) {before after : List Symbol}
    (context : g.Context before startNonterminal after) :
    before = [] ∧ after = [.terminal endTerminal] := by
  cases context with
  | start => exact ⟨rfl, rfl⟩
  | descend outer listed split =>
      exact absurd rfl (wellFormed.nonterminal_declared listed (by rw [split]; simp)).1

/-- In a context, a nonterminal other than the reserved one stands after the dot of a valid core. -/
theorem Context.exists_next (wellFormed : g.WellFormed) {before after : List Symbol}
    {n : NonterminalId} (context : g.Context before n after) (other : n ≠ startNonterminal) :
    ∃ core rest, g.Valid before core rest ∧ core.next g = some (.nonterminal n) := by
  cases context with
  | start => exact absurd rfl other
  | descend outer listed split =>
      obtain ⟨reached, follows, _⟩ := (outer.valid wellFormed listed rfl).reach listed split
      exact ⟨_, _, reached, Core.nextNonterminal_eq_some.1 follows⟩

/-- Validity by rules is validity by contexts. -/
theorem valid_iff (wellFormed : g.WellFormed) {before after : List Symbol} {core : Core} :
    g.Valid before core after ↔ ∃ front production,
      g.productions[core.production]? = some production ∧ core.dot ≤ production.right.size ∧
      g.Context front production.left after ∧
      before = front ++ production.right.toList.take core.dot := by
  constructor
  · intro valid
    induction valid with
    | start => exact ⟨[], _, wellFormed.augmented, Nat.zero_le _, .start, by simp⟩
    | @opening before after core n p _ follows alternative ih =>
        obtain ⟨front, production, listed, inside, context, rfl⟩ := ih
        obtain ⟨opened, known, left⟩ := wellFormed.alternatives.1 alternative
        have next := Core.nextNonterminal_eq_some.1 follows
        have split : production.right.toList =
            production.right.toList.take core.dot ++ .nonterminal n :: core.rest g := by
          rw [← Core.suffix_of_next next, Core.suffix, Core.right_of_listed listed,
            List.take_append_drop]
        have entered := Context.descend context listed split
        exact ⟨_, opened, known, Nat.zero_le _, left ▸ entered, by simp⟩
    | @advance before after core symbol _ next ih =>
        obtain ⟨front, production, listed, _, context, rfl⟩ := ih
        obtain ⟨again, known, here⟩ := Core.next_eq_some.1 next
        rw [listed] at known
        cases known
        obtain ⟨bound, same⟩ := List.getElem?_eq_some_iff.1 here
        have inside : core.dot < production.right.size := by simpa using bound
        refine ⟨front, production, listed, inside, context, ?_⟩
        rw [← same, List.append_assoc, List.take_concat_get' _ _ bound]
        rfl
  · rintro ⟨front, production, listed, inside, context, rfl⟩
    exact (context.valid wellFormed listed rfl).take listed inside

theorem Valid.dot_eq (wellFormed : g.WellFormed) {before after : List Symbol} {core : Core}
    (valid : g.Valid before core after) (complete : core.suffix g = []) :
    core.dot = (g.right core.production).size := by
  obtain ⟨_, production, listed, inside, _⟩ := (valid_iff wellFormed).1 valid
  rw [Core.suffix, List.drop_eq_nil_iff, Array.length_toList] at complete
  rw [Core.right_of_listed listed] at complete ⊢
  omega

/-! ## Contexts in derivations -/

theorem WellFormed.declares_of_rewrites (wellFormed : g.WellFormed) {form next : List Symbol}
    (declared : ∀ symbol ∈ form, g.Declares symbol) (rewritten : g.Rewrites form next) :
    ∀ symbol ∈ next, g.Declares symbol := by
  cases rewritten with
  | @replace p production before after listed =>
      have other : p ≠ acceptProduction := by
        rintro rfl
        have left : g.Declares (.nonterminal production.left) := declared _ (by simp)
        rw [wellFormed.augmented] at listed
        cases listed
        exact left.1 rfl
      intro symbol member
      simp only [List.mem_append] at member
      rcases member with (inBefore | inRight) | inAfter
      · exact declared symbol (by simp [inBefore])
      · exact wellFormed.right listed other symbol inRight
      · exact declared symbol (by simp [inAfter])

theorem WellFormed.declares_of_derives (wellFormed : g.WellFormed) {form : List Symbol}
    (derived : g.Derives [.nonterminal g.start] form) : ∀ symbol ∈ form, g.Declares symbol := by
  induction derived with
  | refl =>
      intro symbol member
      rw [List.mem_singleton.1 member]
      exact wellFormed.start
  | tail _ rewritten ih => exact wellFormed.declares_of_rewrites ih rewritten

/-- In a rightmost derivation from the start symbol, what stands before and after a nonterminal is
what a context of it allows. -/
theorem RightmostDerivation.exists_context (wellFormed : g.WellFormed) {ps : List ProductionId}
    {before after : List Symbol} {n : NonterminalId}
    (derived : g.RightmostDerivation ps [.nonterminal g.start]
      (before ++ .nonterminal n :: after)) :
    ∃ rest, g.Context before n rest ∧
      g.Derives rest (after ++ [.terminal endTerminal, .terminal endTerminal]) := by
  -- By induction on the number of steps: the last one has replaced a nonterminal of which this one
  -- is part, or one to the right of it.
  induction ps using List.reverseRecOn generalizing before after n with
  | nil =>
      generalize whole : before ++ Symbol.nonterminal n :: after = form at derived
      cases derived
      rw [List.append_eq_singleton_iff] at whole
      simp only [reduceCtorEq, and_false, or_false, List.cons.injEq,
        Symbol.nonterminal.injEq] at whole
      obtain ⟨rfl, rfl, rfl⟩ := whole
      have entered := @Context.descend g acceptProduction _ [] _ [] [.terminal endTerminal]
        g.start .start wellFormed.augmented rfl
      exact ⟨_, entered, .refl⟩
  | append_singleton ps p ih =>
      obtain ⟨production, front, word, listed, earlier, same⟩ := derived.of_concat
      obtain ⟨_, _, behind⟩ | ⟨gap, inside, rfl⟩ := mem_of_append_eq same.symm
      · have member : Symbol.nonterminal n ∈ word.map Symbol.terminal := by simp [behind]
        simp at member
      · rcases mem_of_append_eq inside with ⟨left, rfl, split⟩ | ⟨right, rfl, rfl⟩
        · obtain ⟨rest, context, further⟩ := ih earlier
          refine ⟨gap ++ rest, context.descend listed split, ?_⟩
          rw [List.append_assoc]
          exact further.append_left gap
        · have earlier' : g.RightmostDerivation ps [.nonterminal g.start]
              (before ++ .nonterminal n ::
                (right ++ .nonterminal production.left :: word.map .terminal)) := by
            simpa using earlier
          obtain ⟨rest, context, further⟩ := ih earlier'
          refine ⟨rest, context, further.tail ?_⟩
          have rewritten := Rewrites.replace right
            (word.map .terminal ++ [.terminal endTerminal, .terminal endTerminal]) listed
          simpa using rewritten

end Grammar

end Lalr
