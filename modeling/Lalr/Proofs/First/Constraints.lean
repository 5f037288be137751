import Lalr.Proofs.Strict.Grammar

/-!
# FIRST sets from constraints

Nullable nonterminals and FIRST sets can be found in another way.  The nonterminals with an empty
alternative are nullable from the start, and each production asks the set of its left-hand side to
take in those of its leading symbols: the symbols up to the first that is not nullable.  A production
asks nothing about its own left-hand side.  Two loops without a bound, over the productions and over
these constraints, end with the same nullable nonterminals and the same FIRST sets.

Left recursion, cycles and nonterminals that derive no terminal string need no special treatment.  The
sets say exactly which sequences derive the empty string, and with which terminals derived forms
begin.
-/

namespace Lalr

/-! ## Nullable nonterminals -/

/-- The nonterminals with an empty alternative. -/
def emptyLefts (g : Grammar) : IdSet :=
  g.productions.toList.foldl
    (fun set production =>
      if production.right.isEmpty then set.insert production.left else set)
    ∅

/-- What a production adds, unless its left-hand side is known to be nullable. -/
def insertNullable (nullable : IdSet) (production : Production) : IdSet :=
  if nullable.contains production.left then nullable
  else if allNullable nullable production.right then nullable.insert production.left
  else nullable

def nullablePass (g : Grammar) (nullable : IdSet) : IdSet :=
  g.productions.toList.foldl insertNullable nullable

theorem nullablePass_eq (g : Grammar) : nullablePass g = nullableRound g := by
  have step : insertNullable = nullableStep := by
    funext nullable production
    unfold insertNullable nullableStep
    split
    · next known =>
        split
        · ext n
          rw [IdSet.contains_insert, Bool.eq_iff_iff, Bool.or_eq_true, decide_eq_true_eq]
          constructor
          · exact .inl
          · rintro (member | rfl)
            · exact member
            · exact known
        · rfl
    · rfl
  funext nullable
  rw [nullablePass, nullableRound_eq, step]

theorem nullableSound_emptyLefts (g : Grammar) : NullableSound g (emptyLefts g) := by
  refine foldl_productions_induction (NullableSound g) ?_ (nullableSound_empty g)
  intro nullable p production listed sound
  split
  · next empty =>
      intro n member
      rw [IdSet.contains_insert, Bool.or_eq_true, decide_eq_true_eq] at member
      rcases member with member | rfl
      · exact sound n member
      · have expanded := Grammar.Derives.expand listed []
        have right : production.right.toList = [] := by simpa using empty
        rwa [List.append_nil, right] at expanded
  · exact sound

/-- The loop over the productions ends with the nullable nonterminals. -/
theorem loopsTo_nullablePass {g : Grammar} (wellFormed : g.WellFormed) :
    LoopsTo (nullablePass g) (emptyLefts g) (nullables g) := by
  rw [nullablePass_eq]
  have start := nullableSound_emptyLefts g
  have loops := LoopsTo.of_stabilize (nullableRound_stabilize wellFormed start)
  have sound := loops.keeps (NullableSound g) (fun _ => nullableSound_round) start
  rwa [sound.eq_nullables wellFormed loops.fixed] at loops

/-! ## Constraints -/

/-- The symbols up to the first that is not nullable. -/
def leading (nullable : IdSet) : List Symbol → List Symbol
  | [] => []
  | .terminal t :: _ => [.terminal t]
  | .nonterminal n :: rest =>
      .nonterminal n :: if nullable.contains n then leading nullable rest else []

/-- The set of the left-hand side takes in that of the symbol. -/
structure Constraint where
  left : NonterminalId
  symbol : Symbol

/-- The constraints of a production leave out its own left-hand side. -/
def Production.constraints (nullable : IdSet) (production : Production) : List Constraint :=
  ((leading nullable production.right.toList).filter (· != .nonterminal production.left)).map
    (⟨production.left, ·⟩)

def Grammar.constraints (g : Grammar) (nullable : IdSet) : List Constraint :=
  g.productions.toList.flatMap (·.constraints nullable)

namespace FirstSets

variable {g : Grammar} {first : FirstSets}

def ofSymbol (first : FirstSets) : Symbol → TerminalSet
  | .terminal t => IdSet.single t
  | .nonterminal n => first.ofNonterminal n

def satisfy (first : FirstSets) (constraint : Constraint) : FirstSets :=
  { first with
    sets := first.sets.modify constraint.left (· ∪ first.ofSymbol constraint.symbol) }

/-- Satisfy the constraints one after another. -/
def constraintPass (constraints : List Constraint) (first : FirstSets) : FirstSets :=
  constraints.foldl satisfy first

/-- The sets of a sequence and of its leading symbols have the same members. -/
theorem contains_ofSequence_iff_leading {symbols : List Symbol} {t : TerminalId} :
    (first.ofSequence symbols).1.contains t = true ↔
      ∃ symbol ∈ leading first.nullable symbols, (first.ofSymbol symbol).contains t = true := by
  induction symbols with
  | nil => simp [ofSequence, leading]
  | cons head tail ih =>
      cases head with
      | terminal s => simp [ofSequence, leading, ofSymbol]
      | nonterminal n =>
          rw [contains_ofSequence_nonterminal, ih]
          by_cases vanishes : first.nullable.contains n = true <;>
            simp [leading, ofSymbol, vanishes]

theorem growsTo_satisfy (first : FirstSets) (constraint : Constraint) :
    GrowsTo first (first.satisfy constraint) :=
  ⟨rfl, .modify _ _ _⟩

theorem growsTo_constraintPass (constraints : List Constraint) (first : FirstSets) :
    GrowsTo first (constraintPass constraints first) := by
  induction constraints generalizing first with
  | nil => exact .refl first
  | cons head tail ih => exact (growsTo_satisfy first head).trans (ih _)

theorem Sound.satisfy (sound : Sound g first) {constraint : Constraint}
    (member : constraint ∈ g.constraints (nullables g)) : Sound g (first.satisfy constraint) := by
  obtain ⟨production, listed, asked⟩ := List.mem_flatMap.1 member
  obtain ⟨symbol, kept, rfl⟩ := List.mem_map.1 asked
  have leads := (List.mem_filter.1 kept).1
  obtain ⟨p, place⟩ := List.mem_iff_getElem?.1 listed
  rw [Array.getElem?_toList] at place
  refine ⟨sound.nullable, by simpa [FirstSets.satisfy] using sound.size, ?_⟩
  intro n t member
  simp only [FirstSets.satisfy, ofNonterminal, Grows.getD_modify] at member
  split at member
  · next here =>
      rw [IdSet.contains_union, Bool.or_eq_true] at member
      rcases member with old | new
      · exact sound.exposes old
      · rw [← here.1]
        apply Grammar.Exposes.expand place
        rw [List.append_nil]
        apply sound.exposes_sequence
        rw [contains_ofSequence_iff_leading, sound.nullable]
        exact ⟨symbol, leads, new⟩
  · exact sound.exposes member

theorem Sound.constraintPass (sound : Sound g first) :
    Sound g (constraintPass (g.constraints (nullables g)) first) := by
  refine List.foldlRecOn _ _ sound ?_
  intro first sound constraint member
  exact sound.satisfy member

/-- Sets that satisfy all constraints take in the sets of right-hand sides. -/
theorem closed_of_fixed (wellFormed : g.WellFormed) (sound : Sound g first)
    (fixed : FirstSets.constraintPass (g.constraints (nullables g)) first = first) :
    Closed g first := by
  intro p production listed t member
  rw [contains_ofSequence_iff_leading, sound.nullable] at member
  obtain ⟨symbol, leads, contained⟩ := member
  by_cases own : symbol = .nonterminal production.left
  · rwa [own] at contained
  · have asked : ⟨production.left, symbol⟩ ∈ g.constraints (nullables g) := by
      refine List.mem_flatMap.2 ⟨production, ?_, List.mem_map.2 ⟨symbol, ?_, rfl⟩⟩
      · simpa using Array.mem_of_getElem? listed
      · exact List.mem_filter.2 ⟨leads, by simpa using own⟩
    have still := foldl_fixed GrowsTo.refl GrowsTo.trans GrowsTo.antisymm growsTo_satisfy fixed
      _ asked
    have inside : production.left < first.sets.size := by
      rw [sound.size]
      exact wellFormed.left_lt listed
    have grown : (first.satisfy ⟨production.left, symbol⟩).ofNonterminal production.left =
        first.ofNonterminal production.left ∪ first.ofSymbol symbol := by
      rw [FirstSets.satisfy, ofNonterminal, Grows.getD_modify, if_pos ⟨rfl, inside⟩]
      rfl
    rw [still] at grown
    rw [grown, IdSet.contains_union, contained, Bool.or_true]

/-- Sound and closed sets of one grammar grow to each other. -/
theorem Sound.growsTo (wellFormed : g.WellFormed) {other : FirstSets} (sound : Sound g first)
    (sound' : Sound g other) (closed : Closed g other) : GrowsTo first other := by
  refine ⟨sound'.nullable.trans sound.nullable.symm, sound'.size.trans sound.size.symm, ?_⟩
  intro n t member
  have contained := closed.contains_of_exposes wellFormed sound'.nullable (sound.exposes member)
  rw [contains_ofSequence_nonterminal] at contained
  rcases contained with here | ⟨_, empty⟩
  · exact here
  · simp [ofSequence] at empty

/-- The loop over the constraints ends with the FIRST sets. -/
theorem loopsTo_constraintPass (wellFormed : g.WellFormed) :
    LoopsTo (FirstSets.constraintPass (g.constraints (nullables g))) (unfilled g)
      (ofGrammar g) := by
  have start := Sound.unfilled g
  have loops := LoopsTo.of_stabilize (start.step_stabilize wellFormed
    (fun _ => Sound.constraintPass) (growsTo_constraintPass _))
  have sound := loops.keeps (Sound g) (fun _ => Sound.constraintPass) start
  have closed := closed_of_fixed wellFormed sound loops.fixed
  have whole := Sound.ofGrammar g
  have same := (sound.growsTo wellFormed whole (closed_ofGrammar wellFormed)).antisymm
    (whole.growsTo wellFormed sound closed)
  rwa [same] at loops

/-- A nonterminal is nullable if it derives the empty string. -/
theorem isNullable_iff (wellFormed : g.WellFormed) {n : NonterminalId} :
    (ofGrammar g).isNullable n = true ↔ g.Derives [.nonterminal n] [] := by
  rw [derives_nil_iff wellFormed, isNullable, (Sound.ofGrammar g).nullable]
  simp [Symbol.IsNullable]

theorem contains_ofNonterminal_iff (wellFormed : g.WellFormed) {n : NonterminalId}
    {t : TerminalId} :
    ((ofGrammar g).ofNonterminal n).contains t = true ↔ g.Begins [.nonterminal n] t := by
  rw [← contains_ofSequence_iff wellFormed, contains_ofSequence_nonterminal]
  simp [ofSequence]

end FirstSets

theorem mem_of_mem_leading {nullable : IdSet} {symbols : List Symbol} {symbol : Symbol}
    (leads : symbol ∈ leading nullable symbols) : symbol ∈ symbols := by
  induction symbols with
  | nil => exact leads
  | cons head tail ih =>
      cases head with
      | terminal t => exact List.mem_cons.2 (.inl (List.mem_singleton.1 leads))
      | nonterminal n =>
          rw [leading] at leads
          rcases List.mem_cons.1 leads with same | later
          · exact List.mem_cons.2 (.inl same)
          · split at later
            · exact List.mem_cons_of_mem _ (ih later)
            · cases later

/-- Constraints are about symbols of the grammar. -/
theorem Grammar.numbers_of_constraint {g : Grammar} (wellFormed : g.WellFormed) {nullable : IdSet}
    {constraint : Constraint} (member : constraint ∈ g.constraints nullable) :
    constraint.left < g.nonterminals.size ∧ g.Numbers constraint.symbol := by
  obtain ⟨production, listed, asked⟩ := List.mem_flatMap.1 member
  obtain ⟨symbol, kept, rfl⟩ := List.mem_map.1 asked
  obtain ⟨p, place⟩ := List.mem_iff_getElem?.1 listed
  rw [Array.getElem?_toList] at place
  have leads := (List.mem_filter.1 kept).1
  exact ⟨wellFormed.left_lt place, wellFormed.numbers place (mem_of_mem_leading leads)⟩

/-- The FIRST sets of a defined grammar are found by two loops that end, without a lookup that
misses, and they say what derivations say. -/
theorem first_sets_are_exact {g : Grammar} (defined : g.IsDefined) :
    Strict.ofGrammar g = some (.ofGrammar g) ∧
    LoopsTo (nullablePass g) (emptyLefts g) (nullables g) ∧
    LoopsTo (FirstSets.constraintPass (g.constraints (nullables g))) (.unfilled g)
      (.ofGrammar g) ∧
    (∀ constraint ∈ g.constraints (nullables g),
      constraint.left < g.nonterminals.size ∧ g.Numbers constraint.symbol) ∧
    (∀ symbols : List Symbol, (∀ symbol ∈ symbols, g.Numbers symbol) →
      ∃ set nullable, Strict.ofSequence (.ofGrammar g) symbols = some (set, nullable) ∧
        (FirstSets.ofGrammar g).ofSequence symbols = (set, nullable) ∧
        (nullable = true ↔ g.Derives symbols []) ∧
        ∀ t, set.contains t = true ↔ g.Begins symbols t) ∧
    ∀ n, ((FirstSets.ofGrammar g).isNullable n = true ↔ g.Derives [.nonterminal n] []) ∧
      ∀ t, ((FirstSets.ofGrammar g).ofNonterminal n).contains t = true ↔
        g.Begins [.nonterminal n] t := by
  have wellFormed := defined.wellFormed
  refine ⟨Strict.ofGrammar_eq wellFormed, loopsTo_nullablePass wellFormed,
    FirstSets.loopsTo_constraintPass wellFormed,
    fun constraint member => Grammar.numbers_of_constraint wellFormed member, ?_, ?_⟩
  · intro symbols numbered
    have found : Strict.ofSequence (.ofGrammar g) symbols =
        some ((FirstSets.ofGrammar g).ofSequence symbols) := by
      apply Strict.ofSequence_eq
      intro n member
      rw [(FirstSets.Sound.ofGrammar g).size]
      exact numbered _ member
    exact ⟨_, _, found, rfl, FirstSets.ofSequence_nullable_iff wellFormed,
      fun t => FirstSets.contains_ofSequence_iff wellFormed⟩
  · intro n
    exact ⟨FirstSets.isNullable_iff wellFormed,
      fun t => FirstSets.contains_ofNonterminal_iff wellFormed⟩

/-- Left recursion `E -> E a` in a cycle `E -> F -> E` with an empty alternative `F ->`, and a
nonterminal `U -> U a` without end. -/
def Grammar.tangled : Grammar where
  terminals := #[⟨"$end", none, none⟩, ⟨"a", none, none⟩]
  nonterminals := #[⟨"$start", none⟩, ⟨"E", none⟩, ⟨"F", none⟩, ⟨"U", none⟩]
  productions := #[
    ⟨startNonterminal, #[.nonterminal 1, .terminal endTerminal], none⟩,
    ⟨1, #[.nonterminal 1, .terminal 1], none⟩,
    ⟨1, #[.nonterminal 2], none⟩,
    ⟨2, #[.nonterminal 1], none⟩,
    ⟨2, #[], none⟩,
    ⟨3, #[.nonterminal 3, .terminal 1], none⟩]
  start := 1
  groups := #[[acceptProduction], [1, 2], [3, 4], [5]]

theorem Grammar.isDefined_tangled : tangled.IsDefined :=
  ⟨[.terminal "a", .nonterminal "E", .nonterminal "F", .nonterminal "U", .rule "E" ["E", "a"] none,
    .rule "E" ["F"] none, .rule "F" ["E"] none, .rule "F" [] none, .rule "U" ["U", "a"] none],
    by decide +kernel⟩

theorem first_sets_are_exact_tangled :
    Grammar.tangled.IsDefined ∧
      (∀ symbol ∈ [Symbol.nonterminal 2, .nonterminal 1], Grammar.tangled.Numbers symbol) ∧
      Grammar.tangled.Derives [.nonterminal 2, .nonterminal 1] [] ∧
      Grammar.tangled.Begins [.nonterminal 2, .nonterminal 1] 1 ∧
      ¬ Grammar.tangled.Derives [.nonterminal 3] [] ∧
      ∀ t, ¬ Grammar.tangled.Begins [.nonterminal 3] t := by
  have numbered : ∀ symbol ∈ [Symbol.nonterminal 2, .nonterminal 1],
      Grammar.tangled.Numbers symbol := by
    simp [Grammar.Numbers, Grammar.tangled]
  obtain ⟨_, _, _, _, sequences, nonterminals⟩ := first_sets_are_exact Grammar.isDefined_tangled
  obtain ⟨set, nullable, _, found, derives, begins⟩ := sequences _ numbered
  have computed : (FirstSets.ofGrammar Grammar.tangled).ofSequence
      [.nonterminal 2, .nonterminal 1] = (.single 1, true) := by
    decide +kernel
  rw [computed] at found
  cases found
  have never : (FirstSets.ofGrammar Grammar.tangled).isNullable 3 = false ∧
      (FirstSets.ofGrammar Grammar.tangled).ofNonterminal 3 = ∅ := by
    decide +kernel
  obtain ⟨nullable, first⟩ := nonterminals 3
  refine ⟨Grammar.isDefined_tangled, numbered, derives.1 rfl, (begins 1).1 rfl, ?_, ?_⟩
  · rw [← nullable, never.1]
    exact Bool.false_ne_true
  · intro t
    rw [← first t, never.2, IdSet.contains_empty]
    exact Bool.false_ne_true

end Lalr
