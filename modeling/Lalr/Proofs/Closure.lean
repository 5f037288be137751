import Lalr.Item
import Lalr.Proofs.Grammar.WellFormed
import Mathlib.Data.Finset.Card

/-!
# Closures of sets of cores

The closure of a kernel contains, with every core that has a dot before a nonterminal, all openings
of that nonterminal, and it contains nothing that this rule does not force.  No opening is added
twice, as a nonterminal is expanded once only.  Generations of openings
are bounded in number by the nonterminals; since every generation expands a further one, the bound
never cuts the closure short.
-/

namespace Lalr

namespace Core

variable {g : Grammar}

theorem nextNonterminal_eq_some {core : Core} {n : NonterminalId} :
    core.nextNonterminal g = some n ↔ core.next g = some (.nonterminal n) := by
  unfold nextNonterminal
  split
  · next m found => simp [found]
  · next other =>
      simp only [reduceCtorEq, false_iff]
      exact other n

theorem next_eq_some {core : Core} {symbol : Symbol} :
    core.next g = some symbol ↔ ∃ production, g.productions[core.production]? = some production ∧
      production.right.toList[core.dot]? = some symbol := by
  simp only [next, Grammar.right]
  cases g.productions[core.production]? <;> simp

theorem declares_of_nextNonterminal (wellFormed : g.WellFormed) {core : Core}
    {n : NonterminalId} (follows : core.nextNonterminal g = some n) :
    g.Declares (.nonterminal n) := by
  obtain ⟨production, listed, here⟩ := next_eq_some.1 (nextNonterminal_eq_some.1 follows)
  exact wellFormed.nonterminal_declared listed (List.mem_of_getElem? here)

end Core

theorem IdSet.contains_foldl_insert {ids : List Nat} {set : IdSet} {id : Nat} :
    (ids.foldl IdSet.insert set).contains id = true ↔ set.contains id = true ∨ id ∈ ids := by
  induction ids generalizing set with
  | nil => simp
  | cons head tail ih =>
      rw [List.foldl_cons, ih, IdSet.contains_insert, Bool.or_eq_true, decide_eq_true_eq,
        List.mem_cons, or_assoc, @eq_comm _ head id]

theorem nodup_eraseDups {α : Type} [BEq α] [LawfulBEq α] :
    (values : List α) → values.eraseDups.Nodup
  | [] => List.nodup_nil
  | head :: tail => by
      rw [List.eraseDups_cons, List.nodup_cons, List.mem_eraseDups, List.mem_filter]
      exact ⟨by simp, nodup_eraseDups (tail.filter fun value => !value == head)⟩
  termination_by values => values.length
  decreasing_by exact Nat.lt_succ_of_le (List.length_filter_le _ _)

namespace Grammar

variable {g : Grammar}

@[simp]
theorem mem_openings {core : Core} {n : NonterminalId} :
    core ∈ g.openings n ↔ core.dot = 0 ∧ core.production ∈ g.alternatives n := by
  simp only [openings, List.mem_map]
  constructor
  · rintro ⟨p, member, rfl⟩
    exact ⟨rfl, member⟩
  · rintro ⟨front, member⟩
    refine ⟨core.production, member, ?_⟩
    cases core
    simp_all

theorem mem_followers {seen : IdSet} {cores : List Core} {n : NonterminalId} :
    n ∈ g.followers seen cores ↔
      seen.contains n = false ∧ ∃ core ∈ cores, core.nextNonterminal g = some n := by
  simp only [followers, List.mem_eraseDups, List.mem_filter, List.mem_filterMap,
    Bool.not_eq_true']
  exact and_comm

theorem expansion_induction {keep : Core → Prop} {bound : Nat} {seen : IdSet} {cores : List Core}
    (kernel : ∀ core ∈ cores, keep core)
    (inherit : ∀ core n, keep core → core.nextNonterminal g = some n →
      ∀ opening ∈ g.openings n, keep opening) :
    ∀ core ∈ g.expansion bound seen cores, keep core := by
  induction bound generalizing seen cores with
  | zero => simp [expansion]
  | succ bound ih =>
      have fresh : ∀ core ∈ (g.followers seen cores).flatMap g.openings, keep core := by
        intro opening member
        obtain ⟨n, follows, member⟩ := List.mem_flatMap.1 member
        obtain ⟨_, core, known, next⟩ := mem_followers.1 follows
        exact inherit core n (kernel core known) next opening member
      intro core member
      simp only [expansion] at member
      split at member
      · simp at member
      · rcases List.mem_append.1 member with added | later
        · exact fresh core added
        · exact ih fresh core later

theorem mem_expansion_opening {bound : Nat} {seen : IdSet} {cores : List Core} {opening : Core}
    (member : opening ∈ g.expansion bound seen cores) :
    ∃ core ∈ cores ++ g.expansion bound seen cores, ∃ n, core.nextNonterminal g = some n ∧
      opening ∈ g.openings n := by
  induction bound generalizing seen cores with
  | zero => simp [expansion] at member
  | succ bound ih =>
      simp only [expansion] at member ⊢
      split at member
      · simp at member
      · next nonempty =>
          rcases List.mem_append.1 member with added | later
          · obtain ⟨n, follows, opened⟩ := List.mem_flatMap.1 added
            obtain ⟨_, core, known, next⟩ := mem_followers.1 follows
            exact ⟨core, List.mem_append_left _ known, n, next, opened⟩
          · obtain ⟨core, known, found⟩ := ih later
            refine ⟨core, ?_, found⟩
            rw [List.mem_append] at known ⊢
            exact .inr (List.mem_append.2 known)

/-- What closing adds are openings of nonterminals that have not been expanded before. -/
theorem unseen_of_mem_expansion {bound : Nat} {seen : IdSet} {cores : List Core} {opening : Core}
    (member : opening ∈ g.expansion bound seen cores) :
    ∃ n, seen.contains n = false ∧ opening ∈ g.openings n := by
  induction bound generalizing seen cores with
  | zero => simp [expansion] at member
  | succ bound ih =>
      simp only [expansion] at member
      split at member
      · simp at member
      · rcases List.mem_append.1 member with added | later
        · obtain ⟨n, follows, opened⟩ := List.mem_flatMap.1 added
          exact ⟨n, (mem_followers.1 follows).1, opened⟩
        · obtain ⟨n, unseen, opened⟩ := ih later
          refine ⟨n, ?_, opened⟩
          rw [← Bool.not_eq_true, IdSet.contains_foldl_insert, not_or] at unseen
          rw [← Bool.not_eq_true]
          exact unseen.1

/-- A core opens one nonterminal only. -/
theorem openings_unique (wellFormed : g.WellFormed) {core : Core} {n m : NonterminalId}
    (opens : core ∈ g.openings n) (opens' : core ∈ g.openings m) : n = m := by
  obtain ⟨production, listed, left⟩ := wellFormed.alternatives.1 (mem_openings.1 opens).2
  obtain ⟨again, listed', left'⟩ := wellFormed.alternatives.1 (mem_openings.1 opens').2
  rw [listed] at listed'
  cases listed'
  exact left.symm.trans left'

theorem opens_iff (wellFormed : g.WellFormed) {core : Core} {n : NonterminalId} :
    core.opens g n = true ↔ core ∈ g.openings n := by
  rw [Core.opens, mem_openings, wellFormed.alternatives]
  cases g.productions[core.production]? <;> simp

theorem nodup_flatMap_openings (wellFormed : g.WellFormed)
    (once : ∀ n, (g.alternatives n).Nodup) {fresh : List NonterminalId} (distinct : fresh.Nodup) :
    (fresh.flatMap g.openings).Nodup := by
  rw [List.nodup_flatMap]
  constructor
  · intro n _
    apply (once n).map
    intro p q same
    cases same
    rfl
  · apply distinct.imp
    intro n m different core opens opens'
    exact different (openings_unique wellFormed opens opens')

/-- Nothing is added twice. -/
theorem nodup_expansion (wellFormed : g.WellFormed) (once : ∀ n, (g.alternatives n).Nodup)
    (bound : Nat) (seen : IdSet) (cores : List Core) : (g.expansion bound seen cores).Nodup := by
  induction bound generalizing seen cores with
  | zero => exact List.nodup_nil
  | succ bound ih =>
      simp only [expansion]
      split
      · exact List.nodup_nil
      · rw [List.nodup_append]
        refine ⟨nodup_flatMap_openings wellFormed once (nodup_eraseDups _), ih _ _, ?_⟩
        intro core added other later same
        subst same
        obtain ⟨n, follows, opens⟩ := List.mem_flatMap.1 added
        obtain ⟨m, unseen, opens'⟩ := unseen_of_mem_expansion later
        have expanded := (@IdSet.contains_foldl_insert _ seen _).2 (.inr follows)
        rw [openings_unique wellFormed opens opens', unseen] at expanded
        cases expanded

theorem filter_opens_flatMap (wellFormed : g.WellFormed) (n : NonterminalId)
    {fresh : List NonterminalId} (distinct : fresh.Nodup) :
    (fresh.flatMap g.openings).filter (·.opens g n) = if n ∈ fresh then g.openings n else [] := by
  induction fresh with
  | nil => rfl
  | cons m rest ih =>
      obtain ⟨apart, distinct⟩ := List.nodup_cons.1 distinct
      rw [List.flatMap_cons, List.filter_append, ih distinct]
      by_cases same : m = n
      · subst same
        have all : (g.openings m).filter (·.opens g m) = g.openings m :=
          List.filter_eq_self.2 fun core opened => (opens_iff wellFormed).2 opened
        rw [all, if_neg apart, if_pos (List.mem_cons_self ..), List.append_nil]
      · have none_opens : (g.openings m).filter (·.opens g n) = [] := by
          rw [List.filter_eq_nil_iff]
          intro core opened opens
          exact same (openings_unique wellFormed opened ((opens_iff wellFormed).1 opens))
        have elsewhere : n ∈ m :: rest ↔ n ∈ rest := by
          rw [List.mem_cons, or_iff_right (Ne.symm same)]
        rw [none_opens, List.nil_append]
        simp only [elsewhere]

/-- Of one nonterminal, closing adds all openings in their order, or none. -/
theorem filter_opens_expansion (wellFormed : g.WellFormed) (n : NonterminalId) (bound : Nat)
    (seen : IdSet) (cores : List Core) :
    (g.expansion bound seen cores).filter (·.opens g n) = [] ∨
      (g.expansion bound seen cores).filter (·.opens g n) = g.openings n := by
  induction bound generalizing seen cores with
  | zero => exact .inl rfl
  | succ bound ih =>
      simp only [expansion]
      split
      · exact .inl rfl
      · have distinct : (g.followers seen cores).Nodup := nodup_eraseDups _
        rw [List.filter_append, filter_opens_flatMap wellFormed n distinct]
        by_cases fresh : n ∈ g.followers seen cores
        · -- The nonterminal is expanded now, and so it is not expanded later.
          right
          rw [if_pos fresh, List.append_right_eq_self, List.filter_eq_nil_iff]
          intro core later opens
          obtain ⟨m, unseen, opened⟩ := unseen_of_mem_expansion later
          have expanded := (@IdSet.contains_foldl_insert _ seen _).2 (.inr fresh)
          rw [openings_unique wellFormed ((opens_iff wellFormed).1 opens) opened, unseen] at expanded
          cases expanded
        · rw [if_neg fresh, List.nil_append]
          exact ih _ _

/-- The nonterminals that have not been expanded yet. -/
def unexpanded (g : Grammar) (seen : IdSet) : Finset Nat :=
  (Finset.range g.nonterminals.size).filter fun n => seen.contains n = false

/-- Every generation that adds anything expands a further nonterminal. -/
theorem card_unexpanded_lt (wellFormed : g.WellFormed) {seen : IdSet} {cores : List Core}
    {n : NonterminalId} (follows : n ∈ g.followers seen cores) :
    (g.unexpanded ((g.followers seen cores).foldl IdSet.insert seen)).card <
      (g.unexpanded seen).card := by
  obtain ⟨unseen, core, _, next⟩ := mem_followers.1 follows
  have inside := (Core.declares_of_nextNonterminal wellFormed next).2
  apply Finset.card_lt_card
  rw [Finset.ssubset_iff_of_subset]
  · refine ⟨n, by simp [unexpanded, inside, unseen], ?_⟩
    simp only [unexpanded, Finset.mem_filter, not_and, Bool.not_eq_false]
    intro _
    exact IdSet.contains_foldl_insert.2 (.inr follows)
  · intro m
    simp only [unexpanded, Finset.mem_filter, ← Bool.not_eq_true, IdSet.contains_foldl_insert]
    tauto

/-- When all nonterminals have been expanded, no further one follows a dot. -/
theorem followers_eq_nil (wellFormed : g.WellFormed) {seen : IdSet} (cores : List Core)
    (all : (g.unexpanded seen).card ≤ 0) : g.followers seen cores = [] := by
  rw [List.eq_nil_iff_forall_not_mem]
  intro n follows
  have smaller := card_unexpanded_lt wellFormed follows
  omega

/-- Closing adds all openings that are due, except those of nonterminals expanded before. -/
theorem expansion_saturated (wellFormed : g.WellFormed) {bound : Nat} {seen : IdSet}
    {cores : List Core} (enough : (g.unexpanded seen).card ≤ bound) :
    ∀ core ∈ cores ++ g.expansion bound seen cores, ∀ n, core.nextNonterminal g = some n →
      seen.contains n = true ∨ ∀ opening ∈ g.openings n, opening ∈ g.expansion bound seen cores := by
  induction bound generalizing seen cores with
  | zero =>
      intro core member n follows
      left
      by_contra unseen
      rw [expansion, List.append_nil] at member
      have fresh : n ∈ g.followers seen cores :=
        mem_followers.2 ⟨by simpa using unseen, core, member, follows⟩
      simp [followers_eq_nil wellFormed cores enough] at fresh
  | succ bound ih =>
      intro core member n follows
      by_cases seenBefore : seen.contains n = true
      · exact .inl seenBefore
      right
      simp only [expansion] at member ⊢
      split at member
      · -- Nothing new follows a dot, so the nonterminal has been expanded before.
        next none_fresh =>
          rw [List.append_nil] at member
          have fresh : n ∈ g.followers seen cores :=
            mem_followers.2 ⟨by simpa using seenBefore, core, member, follows⟩
          simp [none_fresh] at fresh
      · next nonempty =>
          obtain ⟨first, firstMember⟩ := List.exists_mem_of_ne_nil _ nonempty
          have smaller := card_unexpanded_lt wellFormed firstMember
          have expandedNow : n ∈ g.followers seen cores → ∀ opening ∈ g.openings n,
              opening ∈ (g.followers seen cores).flatMap g.openings :=
            fun fresh opening opened => List.mem_flatMap.2 ⟨n, fresh, opened⟩
          rcases List.mem_append.1 member with known | added
          · have fresh := mem_followers.2 ⟨by simpa using seenBefore, core, known, follows⟩
            exact fun opening opened => List.mem_append_left _ (expandedNow fresh opening opened)
          · rcases ih (by omega) core added n follows with inSeen | later
            · rcases IdSet.contains_foldl_insert.1 inSeen with old | fresh
              · exact absurd old seenBefore
              · exact fun opening opened =>
                  List.mem_append_left _ (expandedNow fresh opening opened)
            · exact fun opening opened => List.mem_append_right _ (later opening opened)

theorem card_unexpanded_le (g : Grammar) (seen : IdSet) :
    (g.unexpanded seen).card ≤ g.nonterminals.size := by
  have filtered := Finset.card_filter_le (Finset.range g.nonterminals.size)
    (fun n => seen.contains n = false)
  rwa [Finset.card_range] at filtered

/-- When all nonterminals can be expanded, a larger bound makes no difference. -/
theorem expansion_add (wellFormed : g.WellFormed) {bound : Nat} (more : Nat) {seen : IdSet}
    {cores : List Core} (enough : (g.unexpanded seen).card ≤ bound) :
    g.expansion (bound + more) seen cores = g.expansion bound seen cores := by
  induction bound generalizing seen cores with
  | zero =>
      cases more with
      | zero => rfl
      | succ more => simp [expansion, followers_eq_nil wellFormed cores enough]
  | succ bound ih =>
      rw [Nat.succ_add]
      simp only [expansion]
      split
      · rfl
      · next nonempty =>
          obtain ⟨first, follows⟩ := List.exists_mem_of_ne_nil _ nonempty
          have smaller := card_unexpanded_lt wellFormed follows
          rw [ih (by omega)]

/-- A closure contains the openings of every nonterminal after a dot in it. -/
theorem closure_saturated (wellFormed : g.WellFormed) {kernel : List Core} {core opening : Core}
    {n : NonterminalId} (member : core ∈ g.closure kernel)
    (follows : core.nextNonterminal g = some n) (opened : opening ∈ g.openings n) :
    opening ∈ g.closure kernel := by
  have enough := card_unexpanded_le g ∅
  rcases expansion_saturated wellFormed enough core member n follows with seen | added
  · simp at seen
  · exact List.mem_append_right _ (added opening opened)

/-- The closure of a kernel without openings of a nonterminal that follows a dot has the openings of
that nonterminal in their order. -/
theorem filter_opens_closure (wellFormed : g.WellFormed) {kernel : List Core} {n : NonterminalId}
    (unopened : ∀ core ∈ kernel, core ∉ g.openings n) {core : Core} (member : core ∈ g.closure kernel)
    (follows : core.nextNonterminal g = some n) :
    (g.closure kernel).filter (·.opens g n) = g.openings n := by
  have none_opens : kernel.filter (·.opens g n) = [] := by
    rw [List.filter_eq_nil_iff]
    intro core inKernel opens
    exact unopened core inKernel ((opens_iff wellFormed).1 opens)
  have saturated : ∀ opening ∈ g.openings n, opening ∈ (g.closure kernel).filter (·.opens g n) := by
    intro opening opened
    exact List.mem_filter.2
      ⟨closure_saturated wellFormed member follows opened, (opens_iff wellFormed).2 opened⟩
  rw [closure, List.filter_append, none_opens, List.nil_append] at saturated ⊢
  rcases filter_opens_expansion wellFormed n g.nonterminals.size ∅ kernel with none_added | all
  · rw [none_added] at saturated ⊢
    exact (List.eq_nil_iff_forall_not_mem.2 fun opening opened =>
      List.not_mem_nil (saturated opening opened)).symm
  · exact all

/-- A property of the kernel that openings inherit holds of the whole closure. -/
theorem closure_induction {keep : Core → Prop} {kernel : List Core}
    (start : ∀ core ∈ kernel, keep core)
    (inherit : ∀ core n, keep core → core.nextNonterminal g = some n →
      ∀ opening ∈ g.openings n, keep opening) :
    ∀ core ∈ g.closure kernel, keep core := by
  intro core member
  rcases List.mem_append.1 member with known | added
  · exact start core known
  · exact expansion_induction start inherit core added

end Grammar

/-! ## Moves -/

theorem mem_moves {g : Grammar} {cores : List Core} {symbol : Symbol} {target : Core} :
    (symbol, target) ∈ g.moves cores ↔
      ∃ core ∈ cores, core.next g = some symbol ∧ target = core.advance := by
  simp only [Grammar.moves, List.mem_filterMap, Option.map_eq_some_iff, Prod.mk.injEq]
  constructor
  · rintro ⟨core, member, _, next, rfl, rfl⟩
    exact ⟨core, member, next, rfl⟩
  · rintro ⟨core, member, next, rfl⟩
    exact ⟨core, member, symbol, next, rfl, rfl⟩

theorem mem_goto {g : Grammar} {cores : List Core} {symbol : Symbol} {target : Core} :
    target ∈ g.goto cores symbol ↔
      ∃ core ∈ cores, core.next g = some symbol ∧ target = core.advance := by
  rw [← mem_moves, Grammar.goto, movesAcross, Core.mem_sortDistinct, List.mem_map]
  constructor
  · rintro ⟨⟨other, reached⟩, member, rfl⟩
    rw [List.mem_filter] at member
    have same : other = symbol := by simpa using member.2
    exact same ▸ member.1
  · intro member
    exact ⟨(symbol, target), List.mem_filter.2 ⟨member, by simp⟩, rfl⟩

end Lalr
