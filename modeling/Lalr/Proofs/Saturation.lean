import Lalr.First
import Mathlib.Data.Finset.Prod
import Mathlib.Data.Finset.Card

/-!
# Growing sets until they are saturated

Nullable nonterminals, FIRST sets and lookaheads are all found by adding members to sets until
nothing changes.  What can be added is limited by the numbers of symbols and items, so that a bound
computed from them is large enough.  The lemmas below say so once, for one set and for a family of
sets kept in an array.
-/

namespace Lalr

namespace IdSet

/-- Sets are ordered by inclusion. -/
instance : PartialOrder IdSet where
  le small large := ∀ id, small.contains id = true → large.contains id = true
  le_refl _ _ member := member
  le_trans _ _ _ first second id member := second id (first id member)
  le_antisymm _ _ first second := by
    ext id
    exact Bool.eq_iff_iff.2 ⟨first id, second id⟩

theorem le_union_left (left right : IdSet) : left ≤ left ∪ right := by
  intro id member
  simp [member]

theorem le_union_right (left right : IdSet) : right ≤ left ∪ right := by
  intro id member
  simp [member]

theorem union_le {left right large : IdSet} (first : left ≤ large) (second : right ≤ large) :
    left ∪ right ≤ large := by
  intro id member
  rw [contains_union, Bool.or_eq_true] at member
  rcases member with member | member
  · exact first id member
  · exact second id member

theorem le_insert (set : IdSet) (id : Nat) : set ≤ set.insert id := le_union_left _ _

theorem isSuperset_iff_le {large small : IdSet} : large.isSuperset small = true ↔ small ≤ large :=
  isSuperset_iff

theorem empty_le (set : IdSet) : ∅ ≤ set := by
  intro id member
  simp at member

theorem isEmpty_eq_false_iff {set : IdSet} :
    set.isEmpty = false ↔ ∃ id, set.contains id = true := by
  rw [← Bool.not_eq_true, isEmpty_iff]
  constructor
  · intro different
    by_contra none_in
    apply different
    ext id
    rw [contains_empty, ← Bool.not_eq_true]
    exact fun member => none_in ⟨id, member⟩
  · rintro ⟨id, member⟩ rfl
    simp at member

/-- The members below a bound, as a finite set. -/
def below (bound : Nat) (set : IdSet) : Finset Nat :=
  (Finset.range bound).filter fun id => set.contains id = true

theorem card_below_le (bound : Nat) (set : IdSet) : (set.below bound).card ≤ bound := by
  have filtered := Finset.card_filter_le (Finset.range bound) (fun id => set.contains id = true)
  rwa [Finset.card_range] at filtered

theorem card_below_lt {small large : IdSet} {bound : Nat} (included : small ≤ large)
    (different : small ≠ large) (limited : ∀ id, large.contains id = true → id < bound) :
    (small.below bound).card < (large.below bound).card := by
  apply Finset.card_lt_card
  rw [Finset.ssubset_iff_of_subset]
  · by_contra none_new
    push Not at none_new
    apply different
    refine le_antisymm included ?_
    intro id member
    have known := none_new id (by simp [below, limited id member, member])
    simp only [below, Finset.mem_filter] at known
    exact known.2
  · intro id member
    simp only [below, Finset.mem_filter] at member ⊢
    exact ⟨member.1, included id member.2⟩

end IdSet

/-! ## Families of sets -/

/-- The family grows from the first array to the second. -/
structure Grows (small large : Array IdSet) : Prop where
  size : large.size = small.size
  le : ∀ place : Nat, small[place]?.getD ∅ ≤ large[place]?.getD ∅

namespace Grows

theorem refl (sets : Array IdSet) : Grows sets sets := ⟨rfl, fun _ => le_refl _⟩

theorem trans {small middle large : Array IdSet} (first : Grows small middle)
    (second : Grows middle large) : Grows small large :=
  ⟨second.size.trans first.size, fun place => (first.le place).trans (second.le place)⟩

theorem antisymm {small large : Array IdSet} (first : Grows small large)
    (second : Grows large small) : small = large := by
  apply Array.ext first.size.symm
  intro place inside inside'
  have same := le_antisymm (first.le place) (second.le place)
  simpa [inside, inside'] using same

/-- A family that grows to a different one has a place at which a set is enlarged. -/
theorem exists_lt {small large : Array IdSet} (grows : Grows small large)
    (different : small ≠ large) :
    ∃ place < small.size, small[place]?.getD ∅ < large[place]?.getD ∅ := by
  by_contra none_larger
  push Not at none_larger
  refine different (grows.antisymm ⟨grows.size.symm, ?_⟩)
  intro place
  by_cases inside : place < small.size
  · by_contra larger
    exact none_larger place inside (lt_of_le_not_ge (grows.le place) larger)
  · have outside : ¬ place < large.size := by rwa [grows.size]
    simp [inside, outside]

theorem getD_modify (sets : Array IdSet) (target place : Nat) (set : IdSet) :
    (sets.modify target (· ∪ set))[place]?.getD ∅ =
      if target = place ∧ place < sets.size then sets[place]?.getD ∅ ∪ set
      else sets[place]?.getD ∅ := by
  rw [Array.getElem?_modify]
  by_cases here : target = place
  · by_cases inside : place < sets.size <;> simp [here, inside]
  · simp [here]

theorem modify (sets : Array IdSet) (target : Nat) (set : IdSet) :
    Grows sets (sets.modify target (· ∪ set)) := by
  refine ⟨by simp, ?_⟩
  intro place
  rw [getD_modify]
  split
  · exact IdSet.le_union_left _ _
  · exact le_refl _

/-- The places of a family with their members below a bound. -/
def filled (bound : Nat) (sets : Array IdSet) : Finset (Nat × Nat) :=
  (Finset.range sets.size ×ˢ Finset.range bound).filter fun entry =>
    (sets[entry.1]?.getD ∅).contains entry.2 = true

theorem card_filled_le (bound : Nat) (sets : Array IdSet) :
    (filled bound sets).card ≤ sets.size * bound := by
  have filtered := Finset.card_filter_le (Finset.range sets.size ×ˢ Finset.range bound)
    (fun entry => (sets[entry.1]?.getD ∅).contains entry.2 = true)
  rwa [Finset.card_product, Finset.card_range, Finset.card_range] at filtered

theorem card_filled_lt {small large : Array IdSet} {bound : Nat} (grows : Grows small large)
    (different : small ≠ large)
    (limited : ∀ place id : Nat, (large[place]?.getD ∅).contains id = true → id < bound) :
    (filled bound small).card < (filled bound large).card := by
  apply Finset.card_lt_card
  rw [Finset.ssubset_iff_of_subset]
  · by_contra none_new
    push Not at none_new
    apply different
    refine grows.antisymm ⟨grows.size.symm, ?_⟩
    intro place id member
    by_cases inside : place < large.size
    · have known := none_new (place, id) (by
        simp only [filled, Finset.mem_filter, Finset.mem_product, Finset.mem_range]
        exact ⟨⟨inside, limited place id member⟩, member⟩)
      simp only [filled, Finset.mem_filter] at known
      exact known.2
    · simp [inside] at member
  · intro entry member
    simp only [filled, Finset.mem_filter, Finset.mem_product, Finset.mem_range] at member ⊢
    rw [grows.size]
    exact ⟨member.1, grows.le entry.1 _ member.2⟩

end Grows

/-! ## Rounds -/

theorem stabilize_induction {α : Type} [DecidableEq α] {step : α → α} (keep : α → Prop)
    (keeps : ∀ value, keep value → keep (step value)) (bound : Nat) {value : α}
    (start : keep value) : keep (stabilize step bound value) := by
  induction bound generalizing value with
  | zero => exact start
  | succ bound ih =>
      simp only [stabilize]
      split
      · exact start
      · exact ih (keeps value start)

/-- Steps that change a value enlarge a measure; if the measure is limited, enough steps lead to a
value that does not change. -/
theorem stabilize_fixed {α : Type} [DecidableEq α] {step : α → α} (keep : α → Prop)
    (measure : α → Nat) {limit : Nat} (keeps : ∀ value, keep value → keep (step value))
    (grows : ∀ value, keep value → step value ≠ value → measure value < measure (step value))
    (limited : ∀ value, keep value → measure value ≤ limit) {bound : Nat} {value : α}
    (start : keep value) (enough : limit ≤ bound + measure value) :
    step (stabilize step bound value) = stabilize step bound value := by
  induction bound generalizing value with
  | zero =>
      rw [stabilize]
      by_contra changed
      have more := grows value start changed
      have most := limited (step value) (keeps value start)
      omega
  | succ bound ih =>
      simp only [stabilize]
      split
      · assumption
      · next changed =>
          have more := grows value start changed
          exact ih (keeps value start) (by omega)

/-- A loop without a bound repeats the step until it changes nothing, and ends with the result. -/
inductive LoopsTo {α : Type} (step : α → α) : α → α → Prop
  | done {value : α} (still : step value = value) : LoopsTo step value value
  | again {value result : α} (changed : step value ≠ value)
      (later : LoopsTo step (step value) result) : LoopsTo step value result

namespace LoopsTo

variable {α : Type} {step : α → α} {value result : α}

theorem fixed (loops : LoopsTo step value result) : step result = result := by
  induction loops with
  | done still => exact still
  | again _ _ ih => exact ih

theorem keeps (loops : LoopsTo step value result) (keep : α → Prop)
    (each : ∀ value, keep value → keep (step value)) (start : keep value) : keep result := by
  induction loops with
  | done _ => exact start
  | again _ _ ih => exact ih (each _ start)

/-- Where rounds within a bound arrive at a value that does not change, so does the loop. -/
theorem of_stabilize [DecidableEq α] {bound : Nat}
    (fixed : step (stabilize step bound value) = stabilize step bound value) :
    LoopsTo step value (stabilize step bound value) := by
  induction bound generalizing value with
  | zero => exact .done fixed
  | succ bound ih =>
      simp only [stabilize] at fixed ⊢
      split at fixed
      · next still =>
          rw [if_pos still]
          exact .done still
      · next changed =>
          rw [if_neg changed]
          exact .again changed (ih fixed)

end LoopsTo

/-- A step that says whether it has changed anything is repeated until it has not.  The list has the
values after all steps, the last one included. -/
inductive Repeats {α : Type} (step : α → Bool × α) : α → List α → Prop
  | last {value : α} (quiet : (step value).1 = false) : Repeats step value [(step value).2]
  | again {value : α} {values : List α} (changed : (step value).1 = true)
      (later : Repeats step (step value).2 values) : Repeats step value ((step value).2 :: values)

namespace Repeats

variable {α β : Type} {step : α → Bool × α} {value : α} {values : List α}

theorem unique {others : List α} (repeats : Repeats step value values)
    (repeats' : Repeats step value others) : values = others := by
  induction repeats generalizing others with
  | last quiet =>
      cases repeats' with
      | last _ => rfl
      | again changed _ => cases quiet.symm.trans changed
  | again changed _ ih =>
      cases repeats' with
      | last quiet => cases quiet.symm.trans changed
      | again _ later => rw [ih later]

/-- What every step keeps holds of all values. -/
theorem keeps {keep : α → Prop} (each : ∀ value, keep value → keep (step value).2)
    (repeats : Repeats step value values) (start : keep value) : ∀ other ∈ values, keep other := by
  induction repeats with
  | last quiet =>
      intro other member
      rw [List.mem_singleton.1 member]
      exact each _ start
  | again _ _ ih =>
      intro other member
      rcases List.mem_cons.1 member with rfl | later
      · exact each _ start
      · exact ih (each _ start) other later

/-- A step on a view goes along with the step on what is viewed. -/
theorem map (view : α → β) {step' : β → Bool × β}
    (same : ∀ value, step' (view value) = ((step value).1, view (step value).2))
    (repeats : Repeats step value values) : Repeats step' (view value) (values.map view) := by
  induction repeats with
  | @last value quiet =>
      have viewed : (step' (view value)).2 = view (step value).2 := by rw [same]
      rw [List.map_singleton, ← viewed]
      exact .last (by rwa [same])
  | @again value _ changed _ ih =>
      have viewed : (step' (view value)).2 = view (step value).2 := by rw [same]
      rw [← viewed] at ih
      rw [List.map_cons, ← viewed]
      exact .again (by rwa [same]) ih

theorem ne_nil (repeats : Repeats step value values) : values ≠ [] := by
  cases repeats <;> exact List.cons_ne_nil _ _

theorem isChain {related : α → α → Prop} (each : ∀ value, related value (step value).2)
    (repeats : Repeats step value values) : (value :: values).IsChain related := by
  induction repeats with
  | last _ => exact .cons_cons (each _) (.singleton _)
  | again _ _ ih => exact .cons_cons (each _) ih

/-- All steps but the last have changed something. -/
theorem isChain_dropLast {keep : α → Prop} {related : α → α → Prop}
    (each : ∀ value, keep value → keep (step value).2)
    (moves : ∀ value, keep value → (step value).1 = true → related value (step value).2)
    (repeats : Repeats step value values) (start : keep value) :
    (value :: values.dropLast).IsChain related := by
  induction repeats with
  | last _ => exact .singleton _
  | again changed later ih =>
      rw [List.dropLast_cons_of_ne_nil later.ne_nil]
      exact .cons_cons (moves _ start changed) (ih (each _ start))

/-- The last step has changed nothing. -/
theorem getLast?_eq (still : ∀ value, (step value).1 = false → (step value).2 = value)
    (repeats : Repeats step value values) :
    values.getLast? = (value :: values.dropLast).getLast? := by
  induction repeats with
  | last quiet =>
      rw [still _ quiet]
      rfl
  | again _ later ih =>
      rw [List.dropLast_cons_of_ne_nil later.ne_nil, List.getLast?_cons_cons, ← ih]
      exact List.getLast?_cons_of_ne_nil later.ne_nil

theorem of_map (view : α → β) {step' : β → Bool × β}
    (same : ∀ value, step' (view value) = ((step value).1, view (step value).2)) {viewed : β}
    {others : List β} (repeats : Repeats step' viewed others) (start : view value = viewed) :
    ∃ values, Repeats step value values := by
  induction repeats generalizing value with
  | last quiet =>
      subst start
      exact ⟨_, .last (by rwa [same] at quiet)⟩
  | again changed _ ih =>
      subst start
      obtain ⟨values, later⟩ := @ih (step value).2 (by rw [same])
      exact ⟨_, .again (by rwa [same] at changed) later⟩

end Repeats

/-- If inflationary steps over a list change nothing together, none of them does. -/
theorem foldl_fixed {α β : Type} {le : α → α → Prop} (refl : ∀ a, le a a)
    (trans : ∀ {a b c}, le a b → le b c → le a c) (antisymm : ∀ {a b}, le a b → le b a → a = b)
    {step : α → β → α} (inflates : ∀ a b, le a (step a b)) {entries : List β} {value : α}
    (fixed : entries.foldl step value = value) : ∀ entry ∈ entries, step value entry = value := by
  have grown : ∀ (entries : List β) (value : α), le value (entries.foldl step value) := by
    intro entries
    induction entries with
    | nil => exact refl
    | cons head tail ih => exact fun value => trans (inflates value head) (ih _)
  induction entries with
  | nil => simp
  | cons head tail ih =>
      rw [List.foldl_cons] at fixed
      have back : le (step value head) value := by
        have further := grown tail (step value head)
        rwa [fixed] at further
      have here : step value head = value := antisymm back (inflates value head)
      rw [here] at fixed
      intro entry member
      rcases List.mem_cons.1 member with rfl | later
      · exact here
      · exact ih fixed entry later

end Lalr
