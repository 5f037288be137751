import Lalr.FileTree
import Mathlib.Logic.Unique
import Mathlib.Tactic.SplitIfs

/-!
# Writing to a tree of files

A text that was written to a path is found under every path that leads to the same place, and all
other paths keep what they had.

A file is only put where a file stood or where nothing stood, never in the way of a walk.  So the
walks that arrive are the same ones before and after, and they arrive at the same places, while a
walk that fails may fail for another reason.  This needs that a link does not lead to a link or to
nothing, since a walk follows one link only and may make an entry at its end.
-/

namespace Lalr.FileTree

/-- Two steps of a computation that may be refused arrive if both of them do. -/
theorem bind_eq_ok_iff {α β : Type} {first : Except Refusal α} {next : α → Except Refusal β}
    {result : β} : (first >>= next) = .ok result ↔ ∃ a, first = .ok a ∧ next a = .ok result := by
  cases first <;> simp [bind, Except.bind]

theorem toOption_congr {α : Type} {first second : Except Refusal α}
    (same : ∀ a, first = .ok a ↔ second = .ok a) : first.toOption = second.toOption := by
  cases second with
  | ok a => rw [(same a).2 rfl]
  | error refusal =>
      cases first with
      | ok a => cases (same a).1 rfl
      | error refusal => rfl

/-! ## Links that lead somewhere -/

/-- Whether something other than a link stands at a place. -/
def ends (tree : FileTree) (place : Place) : Bool :=
  (tree.lookup? place).any (·.target?.isNone)

/-- Every link leads to something that is not a link. -/
def Sound (tree : FileTree) : Prop :=
  ∀ entry ∈ tree.entries, ∀ target ∈ entry.2.target?, tree.ends target

instance (tree : FileTree) : Decidable tree.Sound :=
  inferInstanceAs (Decidable (∀ entry ∈ tree.entries, ∀ target ∈ entry.2.target?, tree.ends target))

theorem usual_sound : usual.Sound := by
  decide +kernel

/-- A file can be put at a place: a file stands there or nothing does, and it is a file if the
directory is fixed. -/
structure Takes (tree : FileTree) (place : Place) : Prop where
  entry : ∀ entry, tree.lookup? place = some entry → ∃ text, entry = .file text
  fixed : place.tail ∈ tree.fixed → (tree.lookup? place).isSome

variable {tree : FileTree} {place : Place}

theorem Takes.ne_nil (takes : tree.Takes place) : place ≠ [] := by
  rintro rfl
  obtain ⟨text, same⟩ := takes.entry .directory (by simp [lookup?])
  cases same

theorem enter_eq_ok_iff : tree.enter place = .ok () ↔ tree.lookup? place = some .directory := by
  unfold enter
  split <;> simp_all

theorem ends_iff :
    tree.ends place ↔ ∃ entry, tree.lookup? place = some entry ∧ entry.target? = none := by
  simp [ends, Option.any_eq_true]

theorem Sound.ends_of_target? (sound : tree.Sound) {entry : Entry} {target : Place}
    (found : tree.lookup? place = some entry) (points : entry.target? = some target) :
    tree.ends target := by
  unfold lookup? at found
  split at found
  case isTrue =>
      cases found
      cases points
  case isFalse =>
      obtain ⟨front, back, split, -⟩ := List.lookup_eq_some_iff.1 found
      exact sound (place, entry) (by simp [split]) target points

/-! ## After a file was put -/

@[simp]
theorem put_fixed (text : String) : (tree.put place text).fixed = tree.fixed :=
  rfl

@[simp]
theorem start_put (text path : String) : (tree.put place text).start path = tree.start path :=
  rfl

section

variable (takes : tree.Takes place) (text : String)
include takes

theorem lookup?_put (other : Place) :
    (tree.put place text).lookup? other =
      if other = place then some (.file text) else tree.lookup? other := by
  have named := takes.ne_nil
  by_cases same : other = place
  · subst same
    simp [lookup?, put, named]
  · have differ : (other == place) = false := by simpa using same
    simp [lookup?, put, List.lookup_cons, same, differ]

theorem ends_put (other : Place) :
    (tree.put place text).ends other = (decide (other = place) || tree.ends other) := by
  unfold ends
  rw [lookup?_put takes]
  split <;> simp_all [Entry.target?]

theorem Sound.put (sound : tree.Sound) : (tree.put place text).Sound := by
  intro entry member target leads
  rw [ends_put takes]
  rcases List.mem_cons.1 member with rfl | old
  · simp [Entry.target?] at leads
  · simp [sound entry old target leads]

/-- What is the same for a file and for nothing stays the same everywhere. -/
theorem apply_lookup?_put {α : Type} (answer : Option Entry → α)
    (alike : ∀ text, answer (some (.file text)) = answer none) (other : Place) :
    answer ((tree.put place text).lookup? other) = answer (tree.lookup? other) := by
  rw [lookup?_put takes]
  split_ifs with same
  · subst same
    cases here : tree.lookup? other with
    | none => exact alike text
    | some entry =>
        obtain ⟨old, rfl⟩ := takes.entry entry here
        rw [alike, alike]
  · rfl

theorem follow_put (other : Place) : (tree.put place text).follow other = tree.follow other :=
  apply_lookup?_put takes text (fun entry => (entry.bind Entry.target?).getD other)
    (fun _ => rfl) other

theorem enter_put (other : Place) :
    (tree.put place text).enter other = .ok () ↔ tree.enter other = .ok () := by
  simp only [enter_eq_ok_iff]
  exact iff_of_eq (apply_lookup?_put takes text (fun entry => entry = some .directory)
    (fun _ => by simp) other)

end

/-! ## Steps and walks -/

/-- A step that arrives stays, goes up, or goes to what has the name. -/
theorem step_eq_ok_iff {directory next : Place} {name : String} :
    tree.step directory name = .ok next ↔
      tree.enter directory = .ok () ∧
        if name = "" ∨ name = "." then next = directory
        else if name = ".." then next = directory.tail
        else
          (directory ∈ tree.fixed → (tree.lookup? (name :: directory)).isSome) ∧
            name.utf8ByteSize ≤ nameLimit ∧ next = tree.follow (name :: directory) := by
  unfold step
  rw [bind_eq_ok_iff, Unique.exists_iff]
  refine and_congr_right fun _ => ?_
  simp only [pure, Except.pure, throw, throwThe, MonadExceptOf.throw, Bool.or_eq_true, beq_iff_eq,
    Bool.and_eq_true, List.contains_iff_mem, Option.isNone_iff_eq_none, Option.isSome_iff_ne_none]
  split_ifs with stays up missing long
  · simp [eq_comm]
  · simp [eq_comm]
  · simp [missing]
  · simp [Nat.not_le_of_lt long]
  · simp only [not_and] at missing
    rw [and_iff_right missing, and_iff_right (Nat.le_of_not_lt long), Except.ok.injEq, eq_comm]

theorem step_put (takes : tree.Takes place) (text : String) {directory next : Place}
    {name : String} :
    (tree.put place text).step directory name = .ok next ↔ tree.step directory name = .ok next := by
  have found : (directory ∈ tree.fixed →
      ((tree.put place text).lookup? (name :: directory)).isSome) ↔
      (directory ∈ tree.fixed → (tree.lookup? (name :: directory)).isSome) := by
    rw [lookup?_put takes]
    split_ifs with same
    · have fixed := takes.fixed
      subst same
      simpa using fixed
    · rfl
  simp only [step_eq_ok_iff, enter_put takes, follow_put takes, put_fixed, found]

theorem walk_put (takes : tree.Takes place) (text : String) {first last : Place}
    {names : List String} :
    (tree.put place text).walk first names = .ok last ↔ tree.walk first names = .ok last := by
  unfold walk
  induction names generalizing first with
  | nil => rfl
  | cons name names ih => simp only [List.foldlM_cons, bind_eq_ok_iff, step_put takes, ih]

theorem locate_put (takes : tree.Takes place) (text : String) {path : String} {last : Place} :
    (tree.put place text).locate path = .ok last ↔ tree.locate path = .ok last := by
  simp only [locate, bind_eq_ok_iff, walk_put takes, start_put]

/-! ## Where a path leads -/

/-- Of names the last of which is not empty nothing is dropped. -/
theorem eq_append_of_dropWhile {steps before : List String} {last : String}
    (dropped : steps.reverse.dropWhile (·.isEmpty) = last :: before)
    (named : steps.getLast? ≠ some "") : steps = before.reverse ++ [last] ∧ last ≠ "" := by
  rcases List.eq_nil_or_concat steps with rfl | ⟨front, name, rfl⟩
  · cases dropped
  · rw [List.concat_eq_append] at dropped named ⊢
    have some : name ≠ "" := by simpa using named
    rw [List.reverse_append, List.reverse_singleton, List.singleton_append,
      List.dropWhile_cons_of_neg (by simpa using some)] at dropped
    obtain ⟨rfl, rfl⟩ := List.cons.inj dropped
    simpa using some

/-- A text goes to a path by way of its names but the last, and then by its last name, which is
the name of an entry. -/
theorem destination_eq_ok_iff {path : String} {goal : Destination} :
    tree.destination path = .ok goal ↔
      ∃ before last directory place, names path = .ok (before ++ [last]) ∧
        (last ≠ "" ∧ last ≠ "." ∧ last ≠ "..") ∧
        tree.walk (tree.start path) before = .ok directory ∧
        tree.step directory last = .ok place ∧ place.receiver (tree.lookup? place) = .ok goal := by
  unfold destination
  rw [bind_eq_ok_iff]
  constructor
  · rintro ⟨steps, named, reached⟩
    cases split : steps.reverse.dropWhile (·.isEmpty) with
    | nil => simp [split, throw, throwThe, MonadExceptOf.throw] at reached
    | cons last before =>
        simp only [split] at reached
        rw [bind_eq_ok_iff] at reached
        obtain ⟨directory, walked, reached⟩ := reached
        rw [bind_eq_ok_iff] at reached
        obtain ⟨_, entered, reached⟩ := reached
        split at reached
        case isTrue => simp [throw, throwThe, MonadExceptOf.throw, bind, Except.bind] at reached
        case isFalse proper =>
            simp only [Bool.or_eq_true, beq_iff_eq, not_or] at proper
            obtain ⟨rfl, some⟩ := eq_append_of_dropWhile split proper.1.1
            obtain ⟨place, stepped, received⟩ := bind_eq_ok_iff.1 reached
            exact ⟨before.reverse, last, directory, place, named, ⟨some, proper.1.2, proper.2⟩,
              walked, stepped, received⟩
  · rintro ⟨before, last, directory, place, named, ⟨some, other, up⟩, walked, stepped, received⟩
    refine ⟨before ++ [last], named, ?_⟩
    have entered := (step_eq_ok_iff.1 stepped).1
    simp [some, other, up, walked, entered, stepped, received, bind_eq_ok_iff]

theorem destination_put (takes : tree.Takes place) (text : String) {path : String}
    {goal : Destination} :
    (tree.put place text).destination path = .ok goal ↔ tree.destination path = .ok goal := by
  have received (other : Place) :
      other.receiver ((tree.put place text).lookup? other) = other.receiver (tree.lookup? other) :=
    apply_lookup?_put takes text other.receiver (fun _ => rfl) other
  simp only [destination_eq_ok_iff, walk_put takes, step_put takes, received, start_put]

theorem receiver_eq_file {entry : Option Entry} {goal : Place}
    (file : place.receiver entry = .ok (.file goal)) :
    goal = place ∧ ∀ e, entry = some e → e.target? = none → ∃ text, e = .file text := by
  unfold Place.receiver at file
  split at file <;> simp_all [Entry.target?]

theorem takes_follow (sound : tree.Sound) {directory : Place} {name : String}
    (fixed : directory ∈ tree.fixed → (tree.lookup? (name :: directory)).isSome)
    (file : ∀ entry, tree.lookup? (tree.follow (name :: directory)) = some entry →
      entry.target? = none → ∃ text, entry = .file text) :
    tree.Takes (tree.follow (name :: directory)) := by
  unfold follow at file ⊢
  cases leads : (tree.lookup? (name :: directory)).bind Entry.target? with
  | none =>
      rw [leads, Option.getD_none] at file
      have plain := Option.bind_eq_none_iff.1 leads
      exact ⟨fun entry found => file entry found (plain entry found), fixed⟩
  | some target =>
      rw [leads, Option.getD_some] at file
      obtain ⟨link, found, points⟩ := Option.bind_eq_some_iff.1 leads
      obtain ⟨entry, there, plain⟩ := ends_iff.1 (sound.ends_of_target? found points)
      refine ⟨fun other same => ?_, fun _ => by simp [there]⟩
      obtain rfl : other = entry := Option.some.inj (same.symm.trans there)
      exact file other there plain

/-- A path by which a text goes into a file leads to that file, and the file can be put there. -/
theorem takes_of_destination (sound : tree.Sound) {path : String}
    (file : tree.destination path = .ok (.file place)) :
    tree.locate path = .ok place ∧ tree.Takes place := by
  obtain ⟨before, last, directory, reached, named, ⟨some, other, up⟩, walked, stepped, received⟩ :=
    destination_eq_ok_iff.1 file
  obtain ⟨rfl, plain⟩ := receiver_eq_file received
  constructor
  · refine bind_eq_ok_iff.2 ⟨_, named, ?_⟩
    rw [walk, List.foldlM_append]
    exact bind_eq_ok_iff.2 ⟨directory, walked, by simpa [List.foldlM] using stepped⟩
  · rw [step_eq_ok_iff, if_neg (by simp [some, other]), if_neg up] at stepped
    obtain ⟨-, fixed, -, rfl⟩ := stepped
    exact takes_follow sound fixed plain

/-- What was written to a path is found under all paths to the same place, and under every other
path what was there. -/
theorem text?_put (sound : tree.Sound) {path : String}
    (file : tree.destination path = .ok (.file place)) (text other : String) :
    (tree.put place text).text? other =
      if (tree.locate other).toOption = some place then some text else tree.text? other := by
  obtain ⟨-, takes⟩ := takes_of_destination sound file
  unfold text?
  rw [toOption_congr fun _ => locate_put takes text]
  cases (tree.locate other).toOption with
  | none => simp
  | some last =>
      simp only [Option.bind_eq_bind, Option.bind_some, lookup?_put takes, Option.some.injEq]
      split_ifs with same <;> rfl

theorem text?_put_self (sound : tree.Sound) {path : String}
    (file : tree.destination path = .ok (.file place)) (text : String) :
    (tree.put place text).text? path = some text := by
  rw [text?_put sound file, (takes_of_destination sound file).1]
  exact if_pos rfl

end Lalr.FileTree
