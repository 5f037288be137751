import Lalr.Proofs.Grammar.Derivation
import Lalr.Proofs.Grammar.WellFormed
import Lalr.Proofs.Saturation

/-!
# FIRST sets are exact

The rounds that compute nullable nonterminals and FIRST sets end in fixed points of the equations.
Whatever a round adds has a derivation, and a fixed point contains whatever a derivation exposes.
Hence the FIRST set of a sequence holds exactly the terminals that its derived forms begin with.
-/

namespace Lalr

/-- The symbol is a nonterminal of the given set. -/
def Symbol.IsNullable (nullable : IdSet) : Symbol → Prop
  | .terminal _ => False
  | .nonterminal n => nullable.contains n = true

theorem allNullable_iff {nullable : IdSet} {symbols : Array Symbol} :
    allNullable nullable symbols = true ↔
      ∀ symbol ∈ symbols.toList, symbol.IsNullable nullable := by
  simp only [allNullable, Array.all_eq_true_iff_forall_mem, Array.mem_toList_iff]
  refine forall₂_congr ?_
  intro symbol _
  cases symbol <;> simp [Symbol.IsNullable]

theorem foldl_productions_induction {g : Grammar} {α : Type} (keep : α → Prop)
    {step : α → Production → α}
    (keeps : ∀ (value : α) (p : ProductionId) (production : Production),
      g.productions[p]? = some production → keep value → keep (step value production))
    {value : α} (start : keep value) : keep (g.productions.toList.foldl step value) := by
  refine List.foldlRecOn _ _ start ?_
  intro value kept production member
  obtain ⟨p, known⟩ := List.mem_iff_getElem?.1 member
  exact keeps value p production (by simpa using known) kept

/-! ## Nullable nonterminals -/

/-- What one production adds to the nullable nonterminals. -/
def nullableStep (nullable : IdSet) (production : Production) : IdSet :=
  if allNullable nullable production.right then nullable.insert production.left else nullable

theorem nullableRound_eq (g : Grammar) (nullable : IdSet) :
    nullableRound g nullable = g.productions.toList.foldl nullableStep nullable := by
  rw [nullableRound, ← Array.foldl_toList]
  rfl

theorem le_nullableStep (nullable : IdSet) (production : Production) :
    nullable ≤ nullableStep nullable production := by
  unfold nullableStep
  split
  · exact IdSet.le_insert _ _
  · exact le_refl _

theorem le_nullableRound (g : Grammar) (nullable : IdSet) : nullable ≤ nullableRound g nullable := by
  rw [nullableRound_eq]
  generalize g.productions.toList = productions
  induction productions generalizing nullable with
  | nil => exact le_refl _
  | cons head tail ih => exact (le_nullableStep nullable head).trans (ih _)

/-- All members of the set derive the empty string. -/
def NullableSound (g : Grammar) (nullable : IdSet) : Prop :=
  ∀ n, nullable.contains n = true → g.Derives [.nonterminal n] []

theorem NullableSound.derives {g : Grammar} {nullable : IdSet} (sound : NullableSound g nullable)
    {symbols : List Symbol} (vanish : ∀ symbol ∈ symbols, symbol.IsNullable nullable) :
    g.Derives symbols [] := by
  induction symbols with
  | nil => exact .refl
  | cons head tail ih =>
      have later := ih fun symbol member => vanish symbol (List.mem_cons_of_mem _ member)
      have first := vanish head (List.mem_cons_self ..)
      cases head with
      | terminal t => exact first.elim
      | nonterminal n => exact (sound n first).append later

theorem nullableSound_round {g : Grammar} {nullable : IdSet} (sound : NullableSound g nullable) :
    NullableSound g (nullableRound g nullable) := by
  rw [nullableRound_eq]
  refine foldl_productions_induction (NullableSound g) ?_ sound
  intro nullable p production listed sound
  unfold nullableStep
  split
  · next vanish =>
      intro n member
      rw [IdSet.contains_insert, Bool.or_eq_true, decide_eq_true_eq] at member
      rcases member with member | rfl
      · exact sound n member
      · have inside := sound.derives (allNullable_iff.1 vanish)
        have expanded := Grammar.Derives.expand listed []
        rw [List.append_nil] at expanded
        exact expanded.trans inside
  · exact sound

theorem nullableSound_empty (g : Grammar) : NullableSound g ∅ := by
  intro n member
  simp at member

theorem nullableSound_nullables (g : Grammar) : NullableSound g (nullables g) :=
  stabilize_induction (NullableSound g) (fun _ => nullableSound_round) _ (nullableSound_empty g)

theorem Grammar.WellFormed.lt_of_derives_nil {g : Grammar} (wellFormed : g.WellFormed)
    {n : NonterminalId} (derived : g.Derives [.nonterminal n] []) : n < g.nonterminals.size := by
  rcases Relation.ReflTransGen.cases_head derived with same | ⟨next, step, _⟩
  · cases same
  · generalize whole : [Symbol.nonterminal n] = form at step
    cases step with
    | @replace p production before after listed =>
        have member : Symbol.nonterminal production.left ∈ [Symbol.nonterminal n] := by
          rw [whole]
          exact List.mem_append_right before (List.mem_cons_self ..)
        have same := Symbol.nonterminal.inj (List.mem_singleton.1 member)
        rw [← same]
        exact wellFormed.left_lt listed

/-- Rounds that start from a sound set end within the number of nonterminals. -/
theorem nullableRound_stabilize {g : Grammar} (wellFormed : g.WellFormed) {nullable : IdSet}
    (sound : NullableSound g nullable) :
    nullableRound g (stabilize (nullableRound g) g.nonterminals.size nullable) =
      stabilize (nullableRound g) g.nonterminals.size nullable := by
  refine stabilize_fixed (NullableSound g)
    (fun nullable => (nullable.below g.nonterminals.size).card)
    (fun _ => nullableSound_round) ?_ (fun nullable _ => nullable.card_below_le _)
    sound (Nat.le_add_right _ _)
  intro nullable sound changed
  refine IdSet.card_below_lt (le_nullableRound g nullable) changed.symm ?_
  intro n member
  exact wellFormed.lt_of_derives_nil (nullableSound_round sound n member)

theorem nullableRound_nullables {g : Grammar} (wellFormed : g.WellFormed) :
    nullableRound g (nullables g) = nullables g :=
  nullableRound_stabilize wellFormed (nullableSound_empty g)

/-- A set that a round does not change is closed under the productions. -/
theorem contains_left_of_fixed {g : Grammar} {nullable : IdSet}
    (fixed : nullableRound g nullable = nullable) {p : ProductionId} {production : Production}
    (listed : g.productions[p]? = some production)
    (vanish : ∀ symbol ∈ production.right.toList, symbol.IsNullable nullable) :
    nullable.contains production.left = true := by
  rw [nullableRound_eq] at fixed
  have member : production ∈ g.productions.toList := by
    simpa using Array.mem_of_getElem? listed
  have still := foldl_fixed le_refl le_trans le_antisymm le_nullableStep fixed production member
  rw [nullableStep, if_pos (allNullable_iff.2 vanish)] at still
  rw [← still]
  simp

theorem isNullable_of_derives_nil {g : Grammar} {nullable : IdSet}
    (fixed : nullableRound g nullable = nullable) {symbols : List Symbol}
    (derived : g.Derives symbols []) : ∀ symbol ∈ symbols, symbol.IsNullable nullable := by
  induction derived using Relation.ReflTransGen.head_induction_on with
  | refl => simp
  | head step _ ih =>
      cases step with
      | replace before after listed =>
          intro symbol member
          have outside : ∀ symbol ∈ before ++ after, symbol.IsNullable nullable := by
            intro symbol member
            apply ih
            simp only [List.mem_append] at member ⊢
            tauto
          rw [List.mem_append, List.mem_cons] at member
          rcases member with member | rfl | member
          · exact outside symbol (List.mem_append_left _ member)
          · apply contains_left_of_fixed fixed listed
            intro symbol inside
            exact ih symbol (by simp [inside])
          · exact outside symbol (List.mem_append_right _ member)

/-- The nullable symbols are those that derive the empty string. -/
theorem derives_nil_iff {g : Grammar} (wellFormed : g.WellFormed) {symbols : List Symbol} :
    g.Derives symbols [] ↔ ∀ symbol ∈ symbols, symbol.IsNullable (nullables g) :=
  ⟨isNullable_of_derives_nil (nullableRound_nullables wellFormed),
    (nullableSound_nullables g).derives⟩

/-- No other sound set is unchanged by a round. -/
theorem NullableSound.eq_nullables {g : Grammar} (wellFormed : g.WellFormed) {nullable : IdSet}
    (sound : NullableSound g nullable) (fixed : nullableRound g nullable = nullable) :
    nullable = nullables g := by
  apply le_antisymm
  · intro n member
    exact (derives_nil_iff wellFormed).1 (sound n member) (.nonterminal n) (List.mem_cons_self ..)
  · intro n member
    have derived := nullableSound_nullables g n member
    exact isNullable_of_derives_nil fixed derived (.nonterminal n) (List.mem_cons_self ..)

/-! ## FIRST sets -/

namespace FirstSets

variable {g : Grammar} {first : FirstSets}

theorem ofSequence_snd {symbols : List Symbol} :
    (first.ofSequence symbols).2 = true ↔
      ∀ symbol ∈ symbols, symbol.IsNullable first.nullable := by
  induction symbols with
  | nil => simp [ofSequence]
  | cons head tail ih =>
      cases head with
      | terminal t => simp [ofSequence, Symbol.IsNullable]
      | nonterminal n =>
          by_cases vanishes : first.nullable.contains n = true
          · simp [ofSequence, isNullable, vanishes, ih, Symbol.IsNullable]
          · simp [ofSequence, isNullable, vanishes, Symbol.IsNullable]

theorem contains_ofSequence_nonterminal {n : NonterminalId} {rest : List Symbol}
    {t : TerminalId} :
    (first.ofSequence (.nonterminal n :: rest)).1.contains t = true ↔
      (first.ofNonterminal n).contains t = true ∨
        first.nullable.contains n = true ∧ (first.ofSequence rest).1.contains t = true := by
  by_cases vanishes : first.nullable.contains n = true <;>
    simp [ofSequence, isNullable, vanishes]

theorem contains_ofSequence_append {front back : List Symbol} {t : TerminalId} :
    (first.ofSequence (front ++ back)).1.contains t = true ↔
      (first.ofSequence front).1.contains t = true ∨
        (∀ symbol ∈ front, symbol.IsNullable first.nullable) ∧
          (first.ofSequence back).1.contains t = true := by
  induction front with
  | nil => simp [ofSequence]
  | cons head tail ih =>
      cases head with
      | terminal s => simp [ofSequence, Symbol.IsNullable]
      | nonterminal n =>
          rw [List.cons_append, contains_ofSequence_nonterminal, contains_ofSequence_nonterminal,
            ih, List.forall_mem_cons, Symbol.IsNullable]
          tauto

/-- What one production adds to the FIRST sets. -/
def roundStep (first : FirstSets) (production : Production) : FirstSets :=
  { first with
    sets := first.sets.modify production.left (· ∪ (first.ofSequence production.right.toList).1) }

theorem round_eq (g : Grammar) (first : FirstSets) :
    round g first = g.productions.toList.foldl roundStep first := by
  rw [round, ← Array.foldl_toList]
  congr 1
  funext first production
  rw [roundStep, ofSuffix_eq, List.drop_zero]

/-- The sets of the first grow to those of the second, for the same nullable nonterminals. -/
structure GrowsTo (small large : FirstSets) : Prop where
  nullable : large.nullable = small.nullable
  sets : Grows small.sets large.sets

theorem GrowsTo.refl (first : FirstSets) : GrowsTo first first := ⟨rfl, .refl _⟩

theorem GrowsTo.trans {small middle large : FirstSets} (left : GrowsTo small middle)
    (right : GrowsTo middle large) : GrowsTo small large :=
  ⟨right.nullable.trans left.nullable, left.sets.trans right.sets⟩

theorem GrowsTo.antisymm {small large : FirstSets} (left : GrowsTo small large)
    (right : GrowsTo large small) : small = large := by
  have nullable := left.nullable
  have sets := left.sets.antisymm right.sets
  cases small
  cases large
  simp_all

theorem growsTo_roundStep (first : FirstSets) (production : Production) :
    GrowsTo first (roundStep first production) :=
  ⟨rfl, .modify _ _ _⟩

theorem growsTo_round (g : Grammar) (first : FirstSets) : GrowsTo first (round g first) := by
  rw [round_eq]
  generalize g.productions.toList = productions
  induction productions generalizing first with
  | nil => exact .refl first
  | cons head tail ih => exact (growsTo_roundStep first head).trans (ih _)

/-- The nullable nonterminals are those of the grammar, and whatever is in a set is exposed. -/
structure Sound (g : Grammar) (first : FirstSets) : Prop where
  nullable : first.nullable = nullables g
  size : first.sets.size = g.nonterminals.size
  exposes : ∀ {n t}, (first.ofNonterminal n).contains t = true → g.Exposes [.nonterminal n] t

theorem Sound.exposes_sequence (sound : Sound g first) {symbols : List Symbol} {t : TerminalId}
    (member : (first.ofSequence symbols).1.contains t = true) : g.Exposes symbols t := by
  induction symbols with
  | nil => simp [ofSequence] at member
  | cons head tail ih =>
      cases head with
      | terminal s =>
          have same : s = t := by simpa [ofSequence] using member
          rw [same]
          exact .front t tail
      | nonterminal n =>
          have split : Symbol.nonterminal n :: tail = [.nonterminal n] ++ tail := rfl
          rw [split, Grammar.exposes_append]
          rcases contains_ofSequence_nonterminal.1 member with here | ⟨vanishes, later⟩
          · exact .inl (sound.exposes here)
          · rw [sound.nullable] at vanishes
            exact .inr ⟨nullableSound_nullables g n vanishes, ih later⟩

theorem Sound.roundStep (sound : Sound g first) {p : ProductionId} {production : Production}
    (listed : g.productions[p]? = some production) : Sound g (roundStep first production) := by
  refine ⟨sound.nullable, by simpa [FirstSets.roundStep] using sound.size, ?_⟩
  intro n t member
  simp only [FirstSets.roundStep, ofNonterminal, Grows.getD_modify] at member
  split at member
  · next here =>
      rw [IdSet.contains_union, Bool.or_eq_true] at member
      rcases member with old | new
      · exact sound.exposes old
      · rw [← here.1]
        apply Grammar.Exposes.expand listed
        rw [List.append_nil]
        exact sound.exposes_sequence new
  · exact sound.exposes member

theorem Sound.round (sound : Sound g first) : Sound g (round g first) := by
  rw [round_eq]
  exact foldl_productions_induction (Sound g) (fun _ _ _ listed sound => sound.roundStep listed)
    sound

/-- The nullable nonterminals, and no terminals yet. -/
def unfilled (g : Grammar) : FirstSets where
  nullable := nullables g
  sets := Array.replicate g.nonterminals.size ∅

theorem Sound.unfilled (g : Grammar) : Sound g (unfilled g) := by
  refine ⟨rfl, by simp [FirstSets.unfilled], ?_⟩
  intro n t member
  by_cases inside : n < g.nonterminals.size <;>
    simp [FirstSets.unfilled, ofNonterminal, inside] at member

theorem Sound.ofGrammar (g : Grammar) : Sound g (ofGrammar g) :=
  stabilize_induction (Sound g) (fun _ => Sound.round) _ (.unfilled g)

theorem Sound.lt_of_contains (wellFormed : g.WellFormed) (sound : Sound g first)
    {n : NonterminalId} {t : TerminalId} (member : (first.ofNonterminal n).contains t = true) :
    t < g.terminals.size := by
  rcases (sound.exposes member).terminal_mem with here | ⟨p, production, listed, inside⟩
  · simp at here
  · exact wellFormed.terminal_lt listed inside

/-- Sound steps that only add to the sets arrive at sets that do not change. -/
theorem Sound.step_stabilize (wellFormed : g.WellFormed) {step : FirstSets → FirstSets}
    (keeps : ∀ first, Sound g first → Sound g (step first))
    (grows : ∀ first, GrowsTo first (step first)) (sound : Sound g first) :
    step (stabilize step (g.nonterminals.size * g.terminals.size) first) =
      stabilize step (g.nonterminals.size * g.terminals.size) first := by
  refine stabilize_fixed (Sound g) (fun first => (Grows.filled g.terminals.size first.sets).card)
    keeps ?_ ?_ sound (Nat.le_add_right _ _)
  · intro first sound changed
    refine Grows.card_filled_lt (grows first).sets ?_ ?_
    · intro same
      apply changed
      have nullable := (grows first).nullable
      revert same nullable
      cases step first
      cases first
      simp_all
    · intro n t member
      exact (keeps first sound).lt_of_contains wellFormed member
  · intro first sound
    have most := Grows.card_filled_le g.terminals.size first.sets
    rwa [sound.size] at most

theorem round_ofGrammar (wellFormed : g.WellFormed) : round g (ofGrammar g) = ofGrammar g :=
  (Sound.unfilled g).step_stabilize wellFormed (fun _ => Sound.round) (growsTo_round g)

/-- The set of a left-hand side takes in those of its right-hand sides. -/
def Closed (g : Grammar) (first : FirstSets) : Prop :=
  ∀ ⦃p : ProductionId⦄ ⦃production : Production⦄, g.productions[p]? = some production →
    (first.ofSequence production.right.toList).1 ≤ first.ofNonterminal production.left

theorem closed_ofGrammar (wellFormed : g.WellFormed) : Closed g (ofGrammar g) := by
  intro p production listed
  have fixed := round_ofGrammar wellFormed
  rw [round_eq] at fixed
  have member : production ∈ g.productions.toList := by
    simpa using Array.mem_of_getElem? listed
  have still := foldl_fixed GrowsTo.refl GrowsTo.trans GrowsTo.antisymm growsTo_roundStep fixed
    production member
  have inside : production.left < (ofGrammar g).sets.size := by
    rw [(Sound.ofGrammar g).size]
    exact wellFormed.left_lt listed
  have grown : (FirstSets.roundStep (ofGrammar g) production).ofNonterminal production.left =
      (ofGrammar g).ofNonterminal production.left ∪
        ((ofGrammar g).ofSequence production.right.toList).1 := by
    rw [FirstSets.roundStep, ofNonterminal, Grows.getD_modify, if_pos ⟨rfl, inside⟩]
    rfl
  rw [still] at grown
  rw [grown]
  exact IdSet.le_union_right _ _

/-- Closed sets contain whatever is exposed. -/
theorem Closed.contains_of_exposes (wellFormed : g.WellFormed) (closed : Closed g first)
    (nullable : first.nullable = nullables g) {symbols : List Symbol} {t : TerminalId}
    (exposed : g.Exposes symbols t) : (first.ofSequence symbols).1.contains t = true := by
  induction exposed with
  | front t rest => simp [ofSequence]
  | @expand p production rest t listed _ ih =>
      rw [contains_ofSequence_nonterminal]
      rcases contains_ofSequence_append.1 ih with here | ⟨vanish, later⟩
      · exact .inl (closed listed t here)
      · rw [nullable] at vanish ⊢
        exact .inr ⟨contains_left_of_fixed (nullableRound_nullables wellFormed) listed vanish, later⟩

/-- The FIRST set of a sequence holds the terminals that derived forms begin with. -/
theorem contains_ofSequence_iff (wellFormed : g.WellFormed) {symbols : List Symbol}
    {t : TerminalId} :
    ((ofGrammar g).ofSequence symbols).1.contains t = true ↔ g.Begins symbols t := by
  rw [Grammar.begins_iff_exposes]
  exact ⟨(Sound.ofGrammar g).exposes_sequence,
    (closed_ofGrammar wellFormed).contains_of_exposes wellFormed (Sound.ofGrammar g).nullable⟩

/-- A sequence counts as nullable when it derives the empty string. -/
theorem ofSequence_nullable_iff (wellFormed : g.WellFormed) {symbols : List Symbol} :
    ((ofGrammar g).ofSequence symbols).2 = true ↔ g.Derives symbols [] := by
  rw [ofSequence_snd, (Sound.ofGrammar g).nullable, derives_nil_iff wellFormed]

end FirstSets

end Lalr
