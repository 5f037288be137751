import Lalr.FileTree
import Lalr.Grammar.Catalogue
import Lalr.Listing

/-!
# The command line

The command takes the name of a sample grammar and produces its listing, on the standard output or
in a file.  Warnings about the grammar go to the standard output before it.  Options are

* `-o FILE`, `--output FILE`: where to write the listing;
* `--no-default-reductions`: keep the explicit errors in states that only reduce;
* `--deny-conflicts`: fail if a conflict was decided by default.

Every option may be given once.  A value may be attached to its option, and all that follows `--` is
taken for a name.
-/

namespace Lalr.Command

/-- What the command is asked to do. -/
structure Invocation where
  grammar : Option String := none
  output : Option String := none
  noDefaultReductions : Bool := false
  denyConflicts : Bool := false
  deriving DecidableEq, Inhabited

namespace Invocation

/-- Whether a word can be the value of an option when it stands apart from it.  A lone dash can. -/
def standsForValue (word : String) : Bool :=
  !word.startsWith "-" || word == "-"

def withGrammar (invocation : Invocation) (name : String) : Option Invocation :=
  if invocation.grammar.isSome then none else some { invocation with grammar := some name }

/-- Take the name of the output file, which is not empty. -/
def withOutput (invocation : Invocation) (path : String) : Option Invocation :=
  if invocation.output.isSome || path.isEmpty then
    none
  else
    some { invocation with output := some path }

/-- Take a word that is complete in itself: an option without a value, an option with its value
attached, or the name of the grammar. -/
def withWord (invocation : Invocation) (word : String) : Option Invocation :=
  if word == "--no-default-reductions" then
    if invocation.noDefaultReductions then none
    else some { invocation with noDefaultReductions := true }
  else if word == "--deny-conflicts" then
    if invocation.denyConflicts then none else some { invocation with denyConflicts := true }
  else if word.startsWith "--output=" then
    invocation.withOutput (word.drop 9).toString
  else if word.startsWith "-o=" then
    invocation.withOutput (word.drop 3).toString
  else if word.startsWith "-o" then
    invocation.withOutput (word.drop 2).toString
  else if standsForValue word then
    invocation.withGrammar word
  else
    none

/-- Take the words of a command line one after the other. -/
def read (invocation : Invocation) : List String → Option Invocation
  | [] => some invocation
  | "--" :: names => names.foldlM withGrammar invocation
  | "-o" :: rest | "--output" :: rest =>
      match rest with
      | [] => none
      | value :: rest =>
          if standsForValue value then
            (invocation.withOutput value).bind (·.read rest)
          else
            none
  | word :: rest => (invocation.withWord word).bind (·.read rest)

end Invocation

/-- What the command has to do. -/
inductive Plan where
  /-- The words make no sense; say how they are used. -/
  | misuse
  /-- Nothing can be done for the given reason. -/
  | reject (reason : String)
  /-- Print the warnings, put the listing into the target or print it, and then complain if there
  is a reason to. -/
  | produce (warnings listing : String) (target : Option String) (complaint : Option String)
  deriving DecidableEq, Inhabited

/-- The remarks on a grammar that are warnings, in lines. -/
def warnings (g : Grammar) (output : Output) : String :=
  Text.lines ((output.diagnostics.filter (·.severity == .warning)).map (·.render g))

def complaint? (output : Output) : Option String :=
  match output.table.unresolved.length with
  | 0 => none
  | 1 => some "the grammar has 1 unresolved conflict"
  | count => some s!"the grammar has {count} unresolved conflicts"

/-- The reason for which a listing could not be put into a file. -/
def writeFailure (path cause : String) : String :=
  s!"failed to write the listing to {path}\n\nCaused by:\n    {cause}"

def planFor (invocation : Invocation) (name : String) : Plan :=
  match Catalogue.sample? name with
  | none =>
      let names := ", ".intercalate (Catalogue.samples.map (·.1))
      .reject s!"unknown grammar `{name}' (available: {names})"
  | some calls =>
      match Grammar.define calls with
      | .error fault => .reject s!"invalid grammar `{name}'\n\nCaused by:\n    {fault.message}"
      | .ok g =>
          let output := g.generate (!invocation.noDefaultReductions)
          .produce (warnings g output) (output.listing g) invocation.output
            (if invocation.denyConflicts then complaint? output else none)

/-- What to do on the given command line. -/
def plan (words : List String) : Plan :=
  match ({} : Invocation).read words with
  | none => .misuse
  | some invocation =>
      match invocation.grammar with
      | none => .misuse
      | some name => planFor invocation name

/-! ## Doing what was planned -/

def usage : String := "usage: [-o FILE] [--no-default-reductions] [--deny-conflicts] GRAMMAR"

/-- What a run acts on. -/
structure Surroundings (m : Type → Type) where
  print : String → m Unit
  /-- Print to the standard error stream. -/
  complain : String → m Unit
  /-- Put a text into the file at a path.  The answer is the cause if that failed. -/
  write : (path text : String) → m (Option String)

section

variable {m : Type → Type} [Monad m] (around : Surroundings m)

def Surroundings.fail (reason : String) : m Nat := do
  around.complain s!"Error: {reason}\n"
  return 1

def Surroundings.conclude : Option String → m Nat
  | none => return 0
  | some reason => around.fail reason

/-- Do what a plan says.  The answer is the exit code: 0, or 1 after a failure, or 2 if the words
made no sense. -/
def Plan.perform : Plan → m Nat
  | .misuse => do
      around.complain s!"{usage}\n"
      return 2
  | .reject reason => around.fail reason
  | .produce warnings listing target complaint => do
      around.print warnings
      match target with
      | none =>
          around.print listing
          around.conclude complaint
      | some path =>
          match ← around.write path listing with
          | some cause => around.fail (writeFailure path cause)
          | none => around.conclude complaint

end

/-! ## Among the files of a tree -/

/-- What a run changes. -/
structure Traces where
  stdout : String := ""
  stderr : String := ""
  files : FileTree
  deriving DecidableEq, Inhabited

namespace Traces

def printed (traces : Traces) (text : String) : Traces :=
  { traces with stdout := traces.stdout ++ text }

def complained (traces : Traces) (text : String) : Traces :=
  { traces with stderr := traces.stderr ++ text }

/-- What a text leaves behind where it goes. -/
def received (traces : Traces) (text : String) : Destination → Except Refusal Traces
  | .file place => .ok { traces with files := traces.files.put place text }
  | .device .null => .ok traces
  | .device .full => .error .noSpace
  | .device .terminal => .error .noDevice
  | .device .stdout => .ok (traces.printed text)
  | .device .stderr => .ok (traces.complained text)

def written (traces : Traces) (path text : String) : Except Refusal Traces := do
  traces.received text (← traces.files.destination path)

end Traces

/-- The files of a tree, and two streams that take what is printed. -/
def Surroundings.traced : Surroundings (StateM Traces) where
  print text traces := ((), traces.printed text)
  complain text traces := ((), traces.complained text)
  write path text traces :=
    match traces.written path text with
    | .ok traces => (none, traces)
    | .error refusal => (some refusal.message, traces)

/-- What a run of the command leaves behind, and its exit code. -/
structure Outcome extends Traces where
  code : Nat
  deriving DecidableEq, Inhabited

/-- The outcome of a plan among the given files. -/
def Plan.outcome (files : FileTree) (plan : Plan) : Outcome :=
  let (code, traces) := plan.perform Surroundings.traced { files }
  { traces with code }

end Lalr.Command
