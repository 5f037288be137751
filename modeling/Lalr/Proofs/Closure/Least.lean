import Lalr.Proofs.Automaton.Canonical
import Lalr.Proofs.Grammar.Lawful
import Mathlib.Order.Bounds.Defs

/-!
# Closures are least

A closure can be found in one loop over a list that grows: for every core of the list, those included
that the loop has appended, the openings of the nonterminal after the dot are appended, unless they
have been before.  Closing by generations gives the same list.  Going through a generation, the loop
appends the openings of the nonterminals that the generation brings up, and these are the next
generation.

The closure is the least set that contains the kernel and all openings that are due.  Behind the
kernel, the openings stand in the order in which their nonterminals first follow a dot.  As the least
set depends on the members of the kernel only, neither their order nor repetitions in the kernel make
a difference for the set, or for the kernels that moving across a symbol leads to.
-/

namespace Lalr

namespace Grammar

variable {g : Grammar}

/-! ## Followers in the order in which they come up -/

theorem followers_cons_of_none {core : Core} (quiet : core.nextNonterminal g = none) (seen : IdSet)
    (rest : List Core) : g.followers seen (core :: rest) = g.followers seen rest := by
  simp [followers, quiet]

theorem followers_cons_of_seen {core : Core} {n : NonterminalId}
    (follows : core.nextNonterminal g = some n) {seen : IdSet} (known : seen.contains n = true)
    (rest : List Core) : g.followers seen (core :: rest) = g.followers seen rest := by
  simp [followers, follows, known]

/-- A nonterminal that comes up is passed over from then on. -/
theorem followers_cons_of_unseen {core : Core} {n : NonterminalId}
    (follows : core.nextNonterminal g = some n) {seen : IdSet} (fresh : seen.contains n = false)
    (rest : List Core) :
    g.followers seen (core :: rest) = n :: g.followers (seen.insert n) rest := by
  simp only [followers, List.filterMap_cons, follows, List.filter_cons, fresh, Bool.not_false,
    if_true, List.eraseDups_cons, List.filter_filter]
  congr 3
  funext m
  by_cases same : m = n
  · simp [same]
  · simp [same, Ne.symm same]

theorem followers_append (seen : IdSet) (cores more : List Core) :
    g.followers seen (cores ++ more) = g.followers seen cores ++
      g.followers ((g.followers seen cores).foldl IdSet.insert seen) more := by
  induction cores generalizing seen with
  | nil => rfl
  | cons core rest ih =>
      rw [List.cons_append]
      cases follows : core.nextNonterminal g with
      | none => rw [followers_cons_of_none follows, followers_cons_of_none follows, ih]
      | some n =>
          cases known : seen.contains n with
          | true =>
              rw [followers_cons_of_seen follows known, followers_cons_of_seen follows known, ih]
          | false =>
              rw [followers_cons_of_unseen follows known, followers_cons_of_unseen follows known,
                ih, List.cons_append, List.foldl_cons]

theorem followers_empty (cores : List Core) :
    g.followers ∅ cores = (cores.filterMap (Core.nextNonterminal g)).eraseDups := by
  simp [followers]

/-- What closing adds are the openings of the nonterminals that follow a dot in the cores or in what
is added, in the order in which they come up. -/
theorem expansion_eq_flatMap (wellFormed : g.WellFormed) {bound : Nat} {seen : IdSet}
    {cores : List Core} (enough : (g.unexpanded seen).card ≤ bound) :
    g.expansion bound seen cores =
      (g.followers seen (cores ++ g.expansion bound seen cores)).flatMap g.openings := by
  induction bound generalizing seen cores with
  | zero => simp [expansion, followers_eq_nil wellFormed cores enough]
  | succ bound ih =>
      simp only [expansion]
      split
      · next none_fresh => simp [none_fresh]
      · next nonempty =>
          obtain ⟨first, follows⟩ := List.exists_mem_of_ne_nil _ nonempty
          have smaller := card_unexpanded_lt wellFormed follows
          rw [followers_append, List.flatMap_append, ← ih (by omega)]

end Grammar

/-! ## The loop over a growing list -/

/-- Where the loop stands that closes a list: the cores so far, the place of the core that it looks
at next, and the nonterminals that it has expanded. -/
structure Closing where
  cores : List Core
  place : Nat
  expanded : IdSet

namespace Closing

variable {g : Grammar}

/-- Look at a core: if a nonterminal follows its dot that has not been expanded, append the openings
of that nonterminal. -/
def lookAt (g : Grammar) (core : Core) (loop : Closing) : Closing :=
  match core.nextNonterminal g with
  | none => { loop with place := loop.place + 1 }
  | some n =>
      if loop.expanded.contains n then
        { loop with place := loop.place + 1 }
      else
        ⟨loop.cores ++ g.openings n, loop.place + 1, loop.expanded.insert n⟩

/-- The loop looks at one core after another until it is past the last, and ends with the cores that
there are then. -/
inductive EndsWith (g : Grammar) : Closing → List Core → Prop
  | done {loop : Closing} (past : loop.cores[loop.place]? = none) : EndsWith g loop loop.cores
  | turn {loop : Closing} {core : Core} {result : List Core}
      (here : loop.cores[loop.place]? = some core) (later : EndsWith g (loop.lookAt g core) result) :
      EndsWith g loop result

theorem EndsWith.unique {loop : Closing} {first second : List Core} (ends : EndsWith g loop first)
    (ends' : EndsWith g loop second) : first = second := by
  induction ends with
  | done past =>
      cases ends' with
      | done _ => rfl
      | turn here _ => cases past.symm.trans here
  | turn here _ ih =>
      cases ends' with
      | done past => cases here.symm.trans past
      | turn here' later =>
          cases here.symm.trans here'
          exact ih later

/-- Going through some cores of the list, the loop appends the openings of their followers. -/
theorem EndsWith.sweep {front cores back : List Core} {seen : IdSet} {result : List Core}
    (later : EndsWith g ⟨front ++ cores ++ (back ++ (g.followers seen cores).flatMap g.openings),
      (front ++ cores).length, (g.followers seen cores).foldl IdSet.insert seen⟩ result) :
    EndsWith g ⟨front ++ cores ++ back, front.length, seen⟩ result := by
  induction cores generalizing front back seen with
  | nil => simpa [Grammar.followers] using later
  | cons core rest ih =>
      have here : (front ++ core :: rest ++ back)[front.length]? = some core := by simp
      refine .turn here ?_
      -- The core moves to those that have been looked at.
      have moved : front ++ core :: rest = front ++ [core] ++ rest := by simp
      have size : front.length + 1 = (front ++ [core]).length := by simp
      cases follows : core.nextNonterminal g with
      | none =>
          rw [Grammar.followers_cons_of_none follows, moved] at later
          simp only [lookAt, follows]
          rw [moved, size]
          exact ih later
      | some n =>
          cases known : seen.contains n with
          | true =>
              rw [Grammar.followers_cons_of_seen follows known, moved] at later
              simp only [lookAt, follows, known, if_true]
              rw [moved, size]
              exact ih later
          | false =>
              rw [Grammar.followers_cons_of_unseen follows known, moved, List.flatMap_cons,
                ← List.append_assoc back, List.foldl_cons] at later
              simp only [lookAt, follows, known, Bool.false_eq_true, if_false]
              rw [moved, size, List.append_assoc]
              exact ih later

/-- When no further nonterminal follows a dot, the loop goes through the last cores and ends. -/
theorem endsWith_of_quiet {front cores : List Core} {seen : IdSet}
    (quiet : g.followers seen cores = []) :
    EndsWith g ⟨front ++ cores, front.length, seen⟩ (front ++ cores) := by
  rw [← List.append_nil (front ++ cores)]
  apply EndsWith.sweep
  rw [quiet]
  exact .done (by simp)

/-- The loop appends what closing by generations adds. -/
theorem endsWith_expansion (wellFormed : g.WellFormed) {bound : Nat} {front cores : List Core}
    {seen : IdSet} (enough : (g.unexpanded seen).card ≤ bound) :
    EndsWith g ⟨front ++ cores, front.length, seen⟩
      (front ++ cores ++ g.expansion bound seen cores) := by
  induction bound generalizing front cores seen with
  | zero =>
      rw [Grammar.expansion, List.append_nil]
      exact endsWith_of_quiet (Grammar.followers_eq_nil wellFormed cores enough)
  | succ bound ih =>
      simp only [Grammar.expansion]
      split
      · next quiet =>
          rw [List.append_nil]
          exact endsWith_of_quiet quiet
      · next nonempty =>
          obtain ⟨first, follows⟩ := List.exists_mem_of_ne_nil _ nonempty
          have smaller := Grammar.card_unexpanded_lt wellFormed follows
          -- What the loop appends while it goes through this generation is the next one.
          have later := @ih (front ++ cores) ((g.followers seen cores).flatMap g.openings)
            ((g.followers seen cores).foldl IdSet.insert seen) (by omega)
          rw [List.append_assoc (front ++ cores)] at later
          have swept := @EndsWith.sweep g front cores [] seen
          rw [List.append_nil, List.nil_append] at swept
          exact swept later

end Closing

namespace Grammar

/-! ## The least closed set -/

/-- The set contains the cores of the kernel, and with every core the openings of the nonterminal
after its dot. -/
structure ClosedOver (g : Grammar) (kernel : List Core) (set : Set Core) : Prop where
  kernel : ∀ core ∈ kernel, core ∈ set
  openings : ∀ core ∈ set, ∀ n, core.next g = some (.nonterminal n) →
    ∀ p ∈ g.alternatives n, (⟨p, 0⟩ : Core) ∈ set

variable {g : Grammar}

theorem isLeast_closure (wellFormed : g.WellFormed) (kernel : List Core) :
    IsLeast {set | g.ClosedOver kernel set} {core | core ∈ g.closure kernel} := by
  refine ⟨⟨fun core member => List.mem_append_left _ member, ?_⟩, ?_⟩
  · intro core member n follows p alternative
    exact closure_saturated wellFormed member (Core.nextNonterminal_eq_some.2 follows)
      (mem_openings.2 ⟨rfl, alternative⟩)
  · intro set closed core member
    refine @closure_induction g (· ∈ set) kernel closed.kernel ?_ core member
    intro core n inSet follows opening opened
    obtain ⟨front, alternative⟩ := mem_openings.1 opened
    have inherited := closed.openings core inSet n (Core.nextNonterminal_eq_some.1 follows)
      opening.production alternative
    rwa [← front] at inherited

/-- The closure of a kernel depends, as a set, on the members of the kernel only. -/
theorem mem_closure_congr (wellFormed : g.WellFormed) {kernel other : List Core}
    (same : ∀ core, core ∈ other ↔ core ∈ kernel) (core : Core) :
    core ∈ g.closure other ↔ core ∈ g.closure kernel := by
  have closedOver : g.ClosedOver other = g.ClosedOver kernel := by
    funext set
    exact propext ⟨fun closed => ⟨fun core member => closed.kernel core ((same core).2 member),
        closed.openings⟩,
      fun closed => ⟨fun core member => closed.kernel core ((same core).1 member),
        closed.openings⟩⟩
  have least := isLeast_closure wellFormed other
  rw [closedOver] at least
  exact Set.ext_iff.1 (least.unique (isLeast_closure wellFormed kernel)) core

/-- Moving across a symbol gives the same ascending list from all lists with the same members. -/
theorem goto_congr {cores others : List Core} (same : ∀ core, core ∈ others ↔ core ∈ cores)
    (symbol : Symbol) : g.goto others symbol = g.goto cores symbol := by
  refine (g.isKernel_goto others symbol).ext (g.isKernel_goto cores symbol) ?_
  ext target
  simp only [List.mem_toFinset, mem_goto, same]

end Grammar

/-- For any kernel, in whatever order, with repetitions and with dots anywhere, the closure is what
the loop over the growing list ends with.  It is the least closed set; behind the kernel it has the
openings of the nonterminals that follow a dot in it, each once, in the order in which they come up;
and moving across a symbol gives an ascending list that depends on the members of the kernel only. -/
theorem closures_are_least {g : Grammar} (defined : g.IsDefined) (kernel : List Core) :
    ∃ added, g.closure kernel = kernel ++ added ∧
      (∀ result, Closing.EndsWith g ⟨kernel, 0, ∅⟩ result ↔ result = g.closure kernel) ∧
      IsLeast {set | g.ClosedOver kernel set} {core | core ∈ g.closure kernel} ∧
      added = ((g.closure kernel).filterMap (Core.nextNonterminal g)).eraseDups.flatMap
        (fun n => (g.alternatives n).map (Core.mk · 0)) ∧
      (∀ n, (g.alternatives n).Pairwise (· < ·)) ∧
      added.Nodup ∧
      ∀ other, (∀ core, core ∈ other ↔ core ∈ kernel) →
        (∀ core, core ∈ g.closure other ↔ core ∈ g.closure kernel) ∧
        ∀ symbol, g.goto (g.closure other) symbol = g.goto (g.closure kernel) symbol ∧
          (g.goto (g.closure kernel) symbol).Pairwise fun core later =>
            core.production < later.production ∨
              core.production = later.production ∧ core.dot < later.dot := by
  have wellFormed := defined.wellFormed
  have enough := Grammar.card_unexpanded_le g ∅
  have ascending : ∀ n, (g.alternatives n).Pairwise (· < ·) := by
    intro n
    rw [defined.lawful.alternatives]
    exact List.pairwise_lt_range.filter _
  have ends : Closing.EndsWith g ⟨kernel, 0, ∅⟩ (g.closure kernel) :=
    @Closing.endsWith_expansion g wellFormed _ [] kernel ∅ enough
  refine ⟨g.expansion g.nonterminals.size ∅ kernel, rfl, ?_, g.isLeast_closure wellFormed kernel,
    ?_, ascending, ?_, ?_⟩
  · intro result
    constructor
    · exact fun ends' => ends'.unique ends
    · rintro rfl
      exact ends
  · rw [← Grammar.followers_empty]
    exact Grammar.expansion_eq_flatMap wellFormed enough
  · exact Grammar.nodup_expansion wellFormed (fun n => (ascending n).imp Nat.ne_of_lt) _ _ _
  · intro other same
    have closures := Grammar.mem_closure_congr wellFormed same
    refine ⟨closures, fun symbol => ⟨Grammar.goto_congr closures symbol, ?_⟩⟩
    exact (g.isKernel_goto _ symbol).ascending.imp Core.lt_iff.1

/-- A kernel out of order, with a core twice and a dot far beyond the end. -/
theorem closures_are_least_brackets :
    Grammar.brackets.IsDefined ∧
      Grammar.brackets.closure [⟨1, 7⟩, ⟨1, 1⟩, ⟨1, 1⟩] =
        [⟨1, 7⟩, ⟨1, 1⟩, ⟨1, 1⟩, ⟨1, 0⟩, ⟨2, 0⟩] ∧
      Closing.EndsWith .brackets ⟨[⟨1, 7⟩, ⟨1, 1⟩, ⟨1, 1⟩], 0, ∅⟩
        [⟨1, 7⟩, ⟨1, 1⟩, ⟨1, 1⟩, ⟨1, 0⟩, ⟨2, 0⟩] ∧
      Grammar.brackets.goto (Grammar.brackets.closure [⟨1, 1⟩, ⟨1, 7⟩]) (.terminal 1) =
        [⟨1, 1⟩] := by
  obtain ⟨_, _, ends, _, _, _, _, alike⟩ :=
    closures_are_least Grammar.isDefined_brackets [⟨1, 7⟩, ⟨1, 1⟩, ⟨1, 1⟩]
  have whole : Grammar.brackets.closure [⟨1, 7⟩, ⟨1, 1⟩, ⟨1, 1⟩] =
      [⟨1, 7⟩, ⟨1, 1⟩, ⟨1, 1⟩, ⟨1, 0⟩, ⟨2, 0⟩] := by
    decide +kernel
  refine ⟨Grammar.isDefined_brackets, whole, (ends _).2 whole.symm, ?_⟩
  have moved := ((alike [⟨1, 1⟩, ⟨1, 7⟩] (by simp [or_comm])).2 (.terminal 1)).1
  rw [moved, whole]
  decide +kernel

end Lalr
