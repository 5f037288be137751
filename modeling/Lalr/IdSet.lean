/-!
# Finite sets of small numbers

Terminals and nonterminals are numbered from zero, so a set of them is kept as the bits of one
natural number: the number `id` is a member exactly when bit `id` is set.  Two sets with the same
members are therefore equal as values.
-/

namespace Lalr

/-- A finite set of natural numbers, held as a bit mask. -/
structure IdSet where
  bits : Nat
  deriving DecidableEq

namespace IdSet

def empty : IdSet := ⟨0⟩

instance : EmptyCollection IdSet := ⟨empty⟩

instance : Inhabited IdSet := ⟨∅⟩

def contains (set : IdSet) (id : Nat) : Bool := set.bits.testBit id

def single (id : Nat) : IdSet := ⟨1 <<< id⟩

def union (left right : IdSet) : IdSet := ⟨left.bits ||| right.bits⟩

instance : Union IdSet := ⟨union⟩

def insert (set : IdSet) (id : Nat) : IdSet := set ∪ single id

/-- Whether every member of `small` is a member of `large`. -/
def isSuperset (large small : IdSet) : Bool := large ∪ small == large

def isEmpty (set : IdSet) : Bool := set.bits == 0

/-- The number of bits that are looked through together. -/
def blockSize : Nat := 64

/-- The members in one block of bits, in ascending order.  An empty block is passed over. -/
def blockMembers (set : IdSet) (block : Nat) : List Nat :=
  let word := set.bits >>> (blockSize * block) % (1 <<< blockSize)
  if word = 0 then
    []
  else
    ((List.range blockSize).filter (word.testBit ·)).map (blockSize * block + ·)

def toList (set : IdSet) : List Nat :=
  (List.range (set.bits.log2 / blockSize + 1)).flatMap set.blockMembers

def size (set : IdSet) : Nat := set.toList.length

def ofList (ids : List Nat) : IdSet := ids.foldl insert ∅

@[simp] theorem contains_empty (id : Nat) : (∅ : IdSet).contains id = false :=
  Nat.zero_testBit id

@[simp] theorem contains_single (member id : Nat) :
    (single member).contains id = decide (member = id) := by
  simp [single, contains, Nat.one_shiftLeft, Nat.testBit_two_pow]

@[simp] theorem contains_union (left right : IdSet) (id : Nat) :
    (left ∪ right).contains id = (left.contains id || right.contains id) :=
  Nat.testBit_or left.bits right.bits id

@[simp] theorem contains_insert (set : IdSet) (member id : Nat) :
    (set.insert member).contains id = (set.contains id || decide (member = id)) := by
  simp [insert]

@[ext] theorem ext {left right : IdSet}
    (same : ∀ id, left.contains id = right.contains id) : left = right := by
  cases left
  cases right
  exact congrArg IdSet.mk (Nat.eq_of_testBit_eq same)

theorem isSuperset_iff {large small : IdSet} :
    large.isSuperset small = true ↔ ∀ id, small.contains id = true → large.contains id = true := by
  simp only [isSuperset, beq_iff_eq]
  constructor
  · intro absorbed id member
    rw [← absorbed]
    simp [member]
  · intro included
    ext id
    have := included id
    simp only [contains_union]
    cases h : small.contains id <;> simp_all

theorem isEmpty_iff {set : IdSet} : set.isEmpty = true ↔ set = ∅ := by
  cases set
  simp [isEmpty, EmptyCollection.emptyCollection, empty]

theorem mem_blockMembers {set : IdSet} {block id : Nat} :
    id ∈ set.blockMembers block ↔ set.contains id = true ∧ id / blockSize = block := by
  have inBlock : ∀ place, place < blockSize →
      (set.bits >>> (blockSize * block) % (1 <<< blockSize)).testBit place =
        set.contains (blockSize * block + place) := by
    intro place inside
    simp [Nat.one_shiftLeft, Nat.testBit_mod_two_pow, inside, Nat.testBit_shiftRight, contains]
  have members : id ∈ set.blockMembers block ↔
      ∃ place, place < blockSize ∧ set.contains (blockSize * block + place) = true ∧
        blockSize * block + place = id := by
    simp only [blockMembers]
    split
    · next vanishes =>
        rw [vanishes] at inBlock
        simp only [List.not_mem_nil, false_iff, not_exists, not_and]
        intro place inside member
        rw [← inBlock place inside] at member
        simp at member
    · simp only [List.mem_map, List.mem_filter, List.mem_range, and_assoc]
      constructor
      · rintro ⟨place, inside, member, rfl⟩
        exact ⟨place, inside, inBlock place inside ▸ member, rfl⟩
      · rintro ⟨place, inside, member, rfl⟩
        exact ⟨place, inside, (inBlock place inside).trans member, rfl⟩
  rw [members]
  constructor
  · rintro ⟨place, inside, member, rfl⟩
    refine ⟨member, ?_⟩
    rw [Nat.mul_add_div (by decide), Nat.div_eq_of_lt inside, Nat.add_zero]
  · rintro ⟨member, rfl⟩
    have split : blockSize * (id / blockSize) + id % blockSize = id := Nat.div_add_mod id blockSize
    exact ⟨id % blockSize, Nat.mod_lt _ (by decide), by rw [split]; exact member, split⟩

theorem mem_toList {set : IdSet} {id : Nat} : id ∈ set.toList ↔ set.contains id = true := by
  simp only [toList, List.mem_flatMap, List.mem_range, mem_blockMembers]
  constructor
  · rintro ⟨_, _, member, _⟩
    exact member
  · intro member
    have bound : 2 ^ id ≤ set.bits := Nat.ge_two_pow_of_testBit member
    have positive : set.bits ≠ 0 := by
      have := Nat.two_pow_pos id
      omega
    have below : id ≤ set.bits.log2 := (Nat.le_log2 positive).2 bound
    exact ⟨id / blockSize, Nat.lt_succ_of_le (Nat.div_le_div_right below), member, rfl⟩

/-- Members are listed in strictly ascending order. -/
theorem pairwise_toList (set : IdSet) : set.toList.Pairwise (· < ·) := by
  rw [toList, List.pairwise_flatMap]
  constructor
  · intro block _
    simp only [blockMembers]
    split
    · exact .nil
    · rw [List.pairwise_map]
      exact (List.pairwise_lt_range.filter _).imp fun less => Nat.add_lt_add_left less _
  · refine List.pairwise_lt_range.imp ?_
    intro block later before left leftMember right rightMember
    rw [mem_blockMembers] at leftMember rightMember
    have lower := Nat.div_add_mod left blockSize
    have upper := Nat.div_add_mod right blockSize
    have rest : left % blockSize < blockSize := Nat.mod_lt _ (by decide)
    rw [leftMember.2] at lower
    rw [rightMember.2] at upper
    have apart : blockSize * (block + 1) ≤ blockSize * later := Nat.mul_le_mul_left _ before
    rw [Nat.mul_add] at apart
    omega

theorem contains_ofList {ids : List Nat} {id : Nat} :
    (ofList ids).contains id = true ↔ id ∈ ids := by
  have general : ∀ (ids : List Nat) (set : IdSet),
      (ids.foldl insert set).contains id = true ↔ set.contains id = true ∨ id ∈ ids := by
    intro ids
    induction ids with
    | nil => simp
    | cons head tail ih =>
        intro set
        simp only [List.foldl_cons, ih, contains_insert, Bool.or_eq_true, decide_eq_true_eq,
          List.mem_cons, or_assoc, @eq_comm _ head id]
  simpa [ofList] using general ids ∅

end IdSet

abbrev TerminalSet := IdSet

end Lalr
