import Lalr.Command
import Lalr.Proofs.FileTree
import Mathlib.Data.List.Induction

/-!
# What a run of the command does

The words of a command line can ask for every invocation, except for one that writes to a path
without a name.  Of what was asked for, a run leaves behind an exit code, two printed texts and at
most one changed file, and the code tells whether the listing got to where it should go.

Files are found again over any number of runs: under a path stands the listing of the last run that
wrote to its place, and what a path leads to is read off the tree as it was before the first run.
-/

namespace Lalr.Command

open FileTree

/-! ## Words and invocations -/

namespace Invocation

/-- A way to ask for an invocation. -/
def words (invocation : Invocation) : List String :=
  (if invocation.noDefaultReductions then ["--no-default-reductions"] else []) ++
    (if invocation.denyConflicts then ["--deny-conflicts"] else []) ++
    (invocation.output.toList.map ("--output=" ++ ·)) ++
    "--" :: invocation.grammar.toList

theorem attached_ne (path word : String)
    (other : ¬ "--output=".toList <+: word.toList) : "--output=" ++ path ≠ word := by
  rintro rfl
  simp at other

theorem withWord_output (invocation : Invocation) (path : String) :
    invocation.withWord ("--output=" ++ path) = invocation.withOutput path := by
  have starts : ("--output=" ++ path).startsWith "--output=" := by
    rw [String.startsWith_string_iff, String.toList_append]
    exact List.prefix_append ..
  have value : (("--output=" ++ path).drop 9).copy = path := by
    rw [← String.toList_inj, String.toList_copy_drop, String.toList_append]
    exact List.drop_left' rfl
  have defaults := attached_ne path "--no-default-reductions" (by decide)
  have conflicts := attached_ne path "--deny-conflicts" (by decide)
  simp [withWord, starts, value, defaults, conflicts]

theorem read_cons (invocation : Invocation) {word : String} (rest : List String)
    (dashes : word ≠ "--") (short : word ≠ "-o") (long : word ≠ "--output") :
    invocation.read (word :: rest) = (invocation.withWord word).bind (·.read rest) := by
  conv => lhs; unfold read
  split <;> simp_all

section

variable {invocation : Invocation}

theorem read_noDefaultReductions (rest : List String)
    (absent : invocation.noDefaultReductions = false) :
    invocation.read ("--no-default-reductions" :: rest) =
      { invocation with noDefaultReductions := true }.read rest := by
  have taken : invocation.withWord "--no-default-reductions" =
      some { invocation with noDefaultReductions := true } := by
    simp only [withWord, beq_self_eq_true, if_true, absent, Bool.false_eq_true, if_false]
  rw [read_cons _ _ (by decide) (by decide) (by decide), taken, Option.bind_some]

theorem read_denyConflicts (rest : List String) (absent : invocation.denyConflicts = false) :
    invocation.read ("--deny-conflicts" :: rest) =
      { invocation with denyConflicts := true }.read rest := by
  have taken : invocation.withWord "--deny-conflicts" =
      some { invocation with denyConflicts := true } := by
    simp only [withWord, beq_iff_eq, String.reduceEq, if_true, absent, Bool.false_eq_true, if_false]
  rw [read_cons _ _ (by decide) (by decide) (by decide), taken, Option.bind_some]

theorem read_output {path : String} (rest : List String) (absent : invocation.output = none)
    (named : path ≠ "") :
    invocation.read (("--output=" ++ path) :: rest) =
      { invocation with output := some path }.read rest := by
  rw [read_cons _ _ (attached_ne path _ (by decide)) (attached_ne path _ (by decide))
    (attached_ne path _ (by decide)), withWord_output]
  simp [withOutput, absent, named]

theorem read_grammar (grammar : Option String) (absent : invocation.grammar = none) :
    invocation.read ("--" :: grammar.toList) = some { invocation with grammar } := by
  obtain ⟨_, _, _, _⟩ := invocation
  cases grammar <;> simp_all [read, withGrammar]

end

theorem read_words {invocation : Invocation} (named : invocation.output ≠ some "") :
    ({} : Invocation).read invocation.words = some invocation := by
  obtain ⟨grammar, output, noDefaultReductions, denyConflicts⟩ := invocation
  cases noDefaultReductions <;> cases denyConflicts <;> cases output <;>
    simp_all [words, read_noDefaultReductions, read_denyConflicts, read_output, read_grammar]

theorem output_ne_of_withOutput {invocation result : Invocation} {path : String}
    (taken : invocation.withOutput path = some result) :
    result.output ≠ some "" := by
  simp only [withOutput, Option.ite_none_left_eq_some, Option.some.injEq, Bool.or_eq_true,
    not_or, String.isEmpty_iff] at taken
  obtain ⟨⟨-, some⟩, rfl⟩ := taken
  simpa using some

section

variable {invocation result : Invocation} (named : invocation.output ≠ some "")
include named

theorem output_ne_of_withGrammar {name : String}
    (taken : invocation.withGrammar name = some result) : result.output ≠ some "" := by
  simp only [withGrammar, Option.ite_none_left_eq_some, Option.some.injEq] at taken
  obtain ⟨-, rfl⟩ := taken
  exact named

theorem output_ne_of_withWord {word : String} (taken : invocation.withWord word = some result) :
    result.output ≠ some "" := by
  unfold withWord at taken
  split_ifs at taken
  -- A flag leaves the path alone; an option with its value goes one way, a name the other.
  · obtain rfl := Option.some.inj taken
    exact named
  · obtain rfl := Option.some.inj taken
    exact named
  · exact output_ne_of_withOutput taken
  · exact output_ne_of_withOutput taken
  · exact output_ne_of_withOutput taken
  · exact output_ne_of_withGrammar named taken

theorem output_ne_of_names {names : List String}
    (taken : names.foldlM withGrammar invocation = some result) : result.output ≠ some "" := by
  induction names generalizing invocation with
  | nil =>
      obtain rfl := Option.some.inj taken
      exact named
  | cons name names ih =>
      obtain ⟨next, first, rest⟩ := Option.bind_eq_some_iff.1 taken
      exact ih (output_ne_of_withGrammar named first) rest

theorem output_ne_of_read {words : List String} (taken : invocation.read words = some result) :
    result.output ≠ some "" := by
  fun_induction read invocation words with
  | case1 =>
      obtain rfl := Option.some.inj taken
      exact named
  | case2 _ names => exact output_ne_of_names named taken
  | case3 | case5 | case6 | case8 => cases taken
  | case4 _ _ _ _ ih | case7 _ _ _ _ ih =>
      obtain ⟨next, first, rest⟩ := Option.bind_eq_some_iff.1 taken
      exact ih next (output_ne_of_withOutput first) rest
  | case9 _ _ _ _ _ _ ih =>
      obtain ⟨next, first, rest⟩ := Option.bind_eq_some_iff.1 taken
      exact ih next (output_ne_of_withWord named first) rest

end

/-- What the words of a command line can ask for. -/
theorem exists_words_iff {invocation : Invocation} :
    (∃ words, ({} : Invocation).read words = some invocation) ↔ invocation.output ≠ some "" :=
  ⟨fun ⟨_, taken⟩ => output_ne_of_read (by simp) taken, fun named => ⟨_, read_words named⟩⟩

end Invocation

/-! ## How a run ends -/

/-- What traces come to if there is nothing left to do but to complain, if there is a reason. -/
def Traces.concluded (traces : Traces) : Option String → Outcome
  | none => { traces with code := 0 }
  | some reason => { traces.complained s!"Error: {reason}\n" with code := 1 }

/-- The ways in which a run ends. -/
inductive Run (files : FileTree) : Plan → Outcome → Prop
  /-- The words made no sense. -/
  | misused : Run files .misuse { ({ files } : Traces).complained s!"{usage}\n" with code := 2 }
  /-- There was nothing to write. -/
  | rejected (reason : String) :
      Run files (.reject reason) (({ files } : Traces).concluded (some reason))
  /-- The listing was printed. -/
  | printed (warnings listing : String) (complaint : Option String) :
      Run files (.produce warnings listing none complaint)
        (((({ files } : Traces).printed warnings).printed listing).concluded complaint)
  /-- The listing got to where the path leads. -/
  | written {warnings listing path : String} {traces : Traces} (complaint : Option String)
      (write : (({ files } : Traces).printed warnings).written path listing = .ok traces) :
      Run files (.produce warnings listing (some path) complaint) (traces.concluded complaint)
  /-- The listing did not get there. -/
  | refused {warnings listing path : String} {refusal : Refusal} (complaint : Option String)
      (write : (({ files } : Traces).printed warnings).written path listing = .error refusal) :
      Run files (.produce warnings listing (some path) complaint)
        ((({ files } : Traces).printed warnings).concluded (writeFailure path refusal.message))

theorem outcome_produce (files : FileTree) (warnings listing path : String)
    (complaint : Option String) :
    (Plan.produce warnings listing (some path) complaint).outcome files =
      match (({ files } : Traces).printed warnings).written path listing with
      | .ok traces => traces.concluded complaint
      | .error refusal =>
          (({ files } : Traces).printed warnings).concluded
            (writeFailure path refusal.message) := by
  simp only [Plan.outcome, Plan.perform, Surroundings.traced, bind, StateT.bind]
  cases (({ files } : Traces).printed warnings).written path listing with
  | ok traces => cases complaint <;> rfl
  | error refusal => rfl

theorem run_outcome (plan : Plan) (files : FileTree) : Run files plan (plan.outcome files) := by
  cases plan with
  | misuse => exact .misused
  | reject reason => exact .rejected reason
  | produce warnings listing target complaint =>
      cases target with
      | none => cases complaint <;> exact .printed ..
      | some path =>
          rw [outcome_produce]
          split
          case h_1 traces write => exact .written complaint write
          case h_2 refusal write => exact .refused complaint write

/-! ## Exit codes -/

/-- Whether a text that is written to a path gets to where it leads. -/
def Accepts (files : FileTree) (path : String) : Prop :=
  ∃ goal, files.destination path = .ok goal ∧ goal ≠ .device .full ∧ goal ≠ .device .terminal

theorem accepts_of_written {traces after : Traces} {path text : String}
    (write : traces.written path text = .ok after) : Accepts traces.files path := by
  obtain ⟨goal, leads, received⟩ := bind_eq_ok_iff.1 write
  refine ⟨goal, leads, ?_, ?_⟩
  · rintro rfl
    cases received
  · rintro rfl
    cases received

theorem not_accepts_of_refused {traces : Traces} {path text : String} {refusal : Refusal}
    (write : traces.written path text = .error refusal) : ¬ Accepts traces.files path := by
  rintro ⟨goal, leads, full, terminal⟩
  simp only [Traces.written, leads, bind, Except.bind] at write
  cases goal with
  | file place => cases write
  | device device => cases device <;> simp_all [Traces.received]

theorem code_concluded_eq_zero_iff {traces : Traces} {complaint : Option String} :
    (traces.concluded complaint).code = 0 ↔ complaint = none := by
  cases complaint <;> simp [Traces.concluded]

theorem code_concluded_ne_two (traces : Traces) (complaint : Option String) :
    (traces.concluded complaint).code ≠ 2 := by
  cases complaint <;> simp [Traces.concluded]

section

variable {files : FileTree} {plan : Plan} {outcome : Outcome}

theorem Run.code_eq_two_iff (run : Run files plan outcome) : outcome.code = 2 ↔ plan = .misuse := by
  cases run with
  | misused => simp
  | rejected | printed | written | refused => simp [code_concluded_ne_two]

/-- A run succeeds if there is a listing, nothing speaks against it and it gets to its target. -/
theorem Run.code_eq_zero_iff (run : Run files plan outcome) :
    outcome.code = 0 ↔
      ∃ warnings listing target, plan = .produce warnings listing target none ∧
        ∀ path ∈ target, Accepts files path := by
  cases run with
  | misused => simp
  | rejected => simp [code_concluded_eq_zero_iff]
  | printed => simp [code_concluded_eq_zero_iff]
  | written complaint write =>
      have accepts : Accepts files _ := accepts_of_written write
      simp [code_concluded_eq_zero_iff, accepts]
  | refused complaint write =>
      have refuses : ¬ Accepts files _ := not_accepts_of_refused write
      simp [code_concluded_eq_zero_iff, refuses]

/-- A run that fails ends with a complaint. -/
theorem Run.exists_complaint (run : Run files plan outcome) (failed : outcome.code = 1) :
    ∃ said reason : String, outcome.stderr = said ++ s!"Error: {reason}\n" := by
  cases run with
  | misused => cases failed
  | rejected | refused => exact ⟨_, _, rfl⟩
  | printed _ _ complaint | written complaint =>
      cases complaint with
      | none => cases failed
      | some reason => exact ⟨_, reason, rfl⟩

end

theorem complaint?_eq_none_iff (output : Output) :
    complaint? output = none ↔ output.table.unresolved = [] := by
  unfold complaint?
  rw [← List.length_eq_zero_iff]
  split <;> simp_all

/-- What a command line has to ask for so that it succeeds: a sample that is a grammar, without
conflicts that were decided by default if these are denied, and a target that takes the listing. -/
theorem code_plan_eq_zero_iff (words : List String) (files : FileTree) :
    ((plan words).outcome files).code = 0 ↔
      ∃ invocation name calls g, ({} : Invocation).read words = some invocation ∧
        invocation.grammar = some name ∧ Catalogue.sample? name = some calls ∧
        Grammar.define calls = .ok g ∧
        (invocation.denyConflicts = true →
          (g.generate (!invocation.noDefaultReductions)).table.unresolved = []) ∧
        ∀ path ∈ invocation.output, Accepts files path := by
  rw [(run_outcome _ _).code_eq_zero_iff]
  unfold plan planFor
  cases read : ({} : Invocation).read words with
  | none => simp
  | some invocation =>
      cases asked : invocation.grammar with
      | none => simp [asked]
      | some name =>
          cases found : Catalogue.sample? name with
          | none => simp [asked, found]
          | some calls =>
              cases defined : Grammar.define calls with
              | error fault => simp [asked, found, defined]
              | ok g => simp [asked, found, defined, complaint?_eq_none_iff]

/-! ## Files -/

/-- The place of the file that a plan changes, and what it puts there. -/
def Plan.deposit? (files : FileTree) : Plan → Option (Place × String)
  | .produce _ listing (some path) _ =>
      match files.destination path with
      | .ok (.file place) => some (place, listing)
      | _ => none
  | _ => none

theorem files_concluded (traces : Traces) (complaint : Option String) :
    (traces.concluded complaint).files = traces.files := by
  cases complaint <;> rfl

theorem files_written {traces after : Traces} {path text : String}
    (write : traces.written path text = .ok after) :
    after.files =
      match traces.files.destination path with
      | .ok (.file place) => traces.files.put place text
      | _ => traces.files := by
  obtain ⟨goal, leads, received⟩ := bind_eq_ok_iff.1 write
  rw [leads]
  cases goal with
  | file place =>
      cases received
      rfl
  | device device =>
      cases device <;> cases received <;> rfl

/-- A run changes no file but the one that takes the listing. -/
theorem Run.files_eq {files : FileTree} {plan : Plan} {outcome : Outcome}
    (run : Run files plan outcome) :
    outcome.files =
      match plan.deposit? files with
      | some (place, listing) => files.put place listing
      | none => files := by
  cases run with
  | misused | rejected => rfl
  | printed => exact files_concluded ..
  | written complaint write =>
      rw [files_concluded, files_written write]
      simp only [Plan.deposit?, Traces.printed]
      split <;> simp_all
  | @refused _ listing path _ complaint write =>
      have refuses : ¬ Accepts files path := not_accepts_of_refused write
      rw [files_concluded]
      simp only [Plan.deposit?, Traces.printed]
      cases leads : files.destination path with
      | error refusal => rfl
      | ok goal =>
          cases goal with
          | device device => rfl
          | file place => exact (refuses ⟨_, leads, nofun, nofun⟩).elim

/-- A listing with a file for its target stands in that file, and only the warnings are printed. -/
theorem Run.text?_target {files : FileTree} {warnings listing path : String} {place : Place}
    {complaint : Option String} {outcome : Outcome}
    (run : Run files (.produce warnings listing (some path) complaint) outcome)
    (sound : files.Sound) (file : files.destination path = .ok (.file place)) :
    outcome.files.text? path = some listing ∧ outcome.stdout = warnings := by
  constructor
  · rw [run.files_eq]
    simp only [Plan.deposit?, file]
    exact text?_put_self sound file listing
  · cases run with
    | written complaint write =>
        simp only [Traces.written, Traces.printed, file, bind, Except.bind, Traces.received,
          Except.ok.injEq] at write
        subst write
        cases complaint <;> simp [Traces.concluded, Traces.complained]
    | refused complaint write =>
        simp [Traces.written, Traces.printed, file, bind, Except.bind, Traces.received] at write

theorem exists_path_of_deposit? {files : FileTree} {plan : Plan} {place : Place} {listing : String}
    (deposits : plan.deposit? files = some (place, listing)) :
    ∃ path, files.destination path = .ok (.file place) := by
  unfold Plan.deposit? at deposits
  split at deposits
  case h_1 warnings written path complaint =>
      split at deposits
      case h_1 leads =>
          cases deposits
          exact ⟨path, leads⟩
      case h_2 => cases deposits
  case h_2 => cases deposits

theorem deposit?_congr {files others : FileTree}
    (alike : ∀ path goal, files.destination path = .ok goal ↔ others.destination path = .ok goal)
    (plan : Plan) : plan.deposit? files = plan.deposit? others := by
  unfold Plan.deposit?
  split
  case h_1 warnings listing path complaint =>
      cases leads : others.destination path with
      | ok goal => rw [(alike path goal).2 leads]
      | error refusal =>
          cases other : files.destination path with
          | ok goal => simp [(alike path goal).1 other] at leads
          | error refusal => rfl
  case h_2 => rfl

/-! ## One run after the other -/

/-- What a run puts under a path. -/
def Plan.textFor? (files : FileTree) (path : String) (plan : Plan) : Option String :=
  (plan.deposit? files).bind fun (place, listing) =>
    if (files.locate path).toOption = some place then some listing else none

/-- The files after some runs. -/
def filesAfter (files : FileTree) (plans : List Plan) : FileTree :=
  plans.foldl (fun files plan => (plan.outcome files).files) files

/-- What holds after some runs: every path leads to where it led at first, and under it stands what
the last of the runs put there that put something there. -/
structure Reads (files after : FileTree) (plans : List Plan) : Prop where
  sound : after.Sound
  destination (path : String) (goal : Destination) :
    after.destination path = .ok goal ↔ files.destination path = .ok goal
  locate (path : String) : (after.locate path).toOption = (files.locate path).toOption
  text? (path : String) :
    after.text? path = (plans.reverse.findSome? (·.textFor? files path)).or (files.text? path)

variable {files after : FileTree} {plans : List Plan}

theorem Reads.nil (sound : files.Sound) : Reads files files [] where
  sound := sound
  destination _ _ := Iff.rfl
  locate _ := rfl
  text? _ := rfl

theorem Reads.run (reads : Reads files after plans) (plan : Plan) :
    Reads files (plan.outcome after).files (plans ++ [plan]) := by
  rw [(run_outcome plan after).files_eq, deposit?_congr reads.destination]
  cases deposits : plan.deposit? files with
  | none =>
      refine { reads with text? := fun path => ?_ }
      simp [reads.text? path, Plan.textFor?, deposits]
  | some deposit =>
      obtain ⟨place, listing⟩ := deposit
      obtain ⟨path, leads⟩ := exists_path_of_deposit? deposits
      have file := (reads.destination path _).2 leads
      obtain ⟨-, takes⟩ := takes_of_destination reads.sound file
      constructor
      case sound => exact reads.sound.put takes listing
      case destination =>
          exact fun path goal => (destination_put takes listing).trans (reads.destination path goal)
      case locate =>
          intro path
          rw [toOption_congr fun _ => locate_put takes listing, reads.locate path]
      case text? =>
          intro path
          rw [text?_put reads.sound file, reads.locate path, reads.text? path]
          simp only [List.reverse_append, List.reverse_singleton, List.singleton_append,
            List.findSome?_cons, Plan.textFor?, deposits, Option.bind_some]
          split <;> rfl

theorem reads_filesAfter (sound : files.Sound) (plans : List Plan) :
    Reads files (filesAfter files plans) plans := by
  induction plans using List.reverseRecOn with
  | nil => exact .nil sound
  | append_singleton plans plan ih =>
      rw [filesAfter, List.foldl_append]
      exact ih.run plan

/-- Under a path stands the listing of the last run that wrote to where the path leads, or what was
there at first. -/
theorem text?_filesAfter (sound : files.Sound) (plans : List Plan) (path : String) :
    (filesAfter files plans).text? path =
      (plans.reverse.findSome? (·.textFor? files path)).or (files.text? path) :=
  (reads_filesAfter sound plans).text? path

example (plans : List Plan) (path : String) :
    (filesAfter usual plans).text? path =
      (plans.reverse.findSome? (·.textFor? usual path)).or (usual.text? path) :=
  text?_filesAfter usual_sound plans path

end Lalr.Command
