/-!
# Files and paths

A tree of named entries with a working directory, in which paths are looked up.  A path is a walk:
it starts at the root if it begins with a slash and in the working directory otherwise, and takes
one step for every name between slashes.  An empty name and `.` stay, `..` goes to the directory
above, and any other name goes to the entry of that name, or to where that entry leads if it is a
link.  No step leaves anything but a directory.
-/

namespace Lalr

/-- A place in the tree: the names that lead there from the root, the last one first. -/
abbrev Place := List String

/-- The place that names lead to from the root. -/
def Place.ofNames (names : List String) : Place := names.reverse

/-- What takes written text without being a file. -/
inductive Device where
  /-- Drops the text. -/
  | null
  /-- Has never room for the text. -/
  | full
  /-- Stands for a terminal, and none is attached. -/
  | terminal
  /-- Passes the text to the standard output. -/
  | stdout
  /-- Passes the text to the standard error stream. -/
  | stderr
  deriving DecidableEq, Inhabited

inductive Entry where
  | directory
  | file (text : String)
  | device (device : Device)
  /-- Leads to another place. -/
  | link (target : Place)
  deriving DecidableEq, Inhabited

def Entry.target? : Entry → Option Place
  | .link target => some target
  | _ => none

/-- The text that is read from an entry. -/
def Entry.text? : Entry → Option String
  | .file text => some text
  | .device .null => some ""
  | _ => none

inductive Refusal where
  | missing
  | noDevice
  | notDirectory
  | isDirectory
  | noSpace
  | nameTooLong
  deriving DecidableEq, Inhabited

def Refusal.message : Refusal → String
  | .missing => "No such file or directory (os error 2)"
  | .noDevice => "No such device or address (os error 6)"
  | .notDirectory => "Not a directory (os error 20)"
  | .isDirectory => "Is a directory (os error 21)"
  | .noSpace => "No space left on device (os error 28)"
  | .nameTooLong => "File name too long (os error 36)"

inductive Destination where
  | file (place : Place)
  | device (device : Device)
  deriving DecidableEq, Inhabited

/-- What takes a text that is written to a place where the given entry stands. -/
def Place.receiver (place : Place) : Option Entry → Except Refusal Destination
  | some .directory => .error .isDirectory
  | some (.device device) => .ok (.device device)
  | some (.file _) | some (.link _) | none => .ok (.file place)

/-- What stands where, and the working directory.  The first entry for a place counts, and the root
is always a directory. -/
structure FileTree where
  entries : List (Place × Entry)
  /-- The directories in which no entry can be made. -/
  fixed : List Place
  workingDirectory : Place
  deriving DecidableEq, Inhabited

namespace FileTree

def nameLimit : Nat := 255

/-- The greatest length of a path in bytes. -/
def pathLimit : Nat := 4095

def lookup? (tree : FileTree) (place : Place) : Option Entry :=
  if place.isEmpty then some .directory else tree.entries.lookup place

def put (tree : FileTree) (place : Place) (text : String) : FileTree :=
  { tree with entries := (place, .file text) :: tree.entries }

/-- Check that a place is that of a directory. -/
def enter (tree : FileTree) (place : Place) : Except Refusal Unit :=
  match tree.lookup? place with
  | none => .error .missing
  | some .directory => .ok ()
  | some _ => .error .notDirectory

/-- Where a link leads, and any other place itself. -/
def follow (tree : FileTree) (place : Place) : Place :=
  ((tree.lookup? place).bind Entry.target?).getD place

/-- Take one step from a directory.  Nothing needs to stand where it leads, unless the directory is
fixed. -/
def step (tree : FileTree) (place : Place) (name : String) : Except Refusal Place := do
  tree.enter place
  if name == "" || name == "." then
    return place
  else if name == ".." then
    return place.tail
  else if tree.fixed.contains place && (tree.lookup? (name :: place)).isNone then
    throw .missing
  else if name.utf8ByteSize > nameLimit then
    throw .nameTooLong
  else
    return tree.follow (name :: place)

/-- Take one step after the other. -/
def walk (tree : FileTree) (place : Place) (names : List String) : Except Refusal Place :=
  names.foldlM tree.step place

def start (tree : FileTree) (path : String) : Place :=
  if path.startsWith "/" then [] else tree.workingDirectory

/-- The names of a path, if it is not too long and not empty. -/
def names (path : String) : Except Refusal (List String) :=
  if path.utf8ByteSize > pathLimit then
    .error .nameTooLong
  else if path.isEmpty then
    .error .missing
  else
    .ok (path.splitOn "/")

/-- The place that a path leads to. -/
def locate (tree : FileTree) (path : String) : Except Refusal Place := do
  tree.walk (tree.start path) (← names path)

/-- What takes the text that is written to a path.  A new file may appear in a directory that
exists.  A path that ends in a slash, in `.` or in `..` is that of a directory, whatever stands
there. -/
def destination (tree : FileTree) (path : String) : Except Refusal Destination := do
  let steps ← names path
  match steps.reverse.dropWhile (·.isEmpty) with
  | [] => throw .isDirectory
  | last :: before =>
      let directory ← tree.walk (tree.start path) before.reverse
      tree.enter directory
      if steps.getLast? == some "" || last == "." || last == ".." then
        throw .isDirectory
      let place ← tree.step directory last
      place.receiver (tree.lookup? place)

/-- The text that stands under a path. -/
def text? (tree : FileTree) (path : String) : Option String := do
  let place ← (tree.locate path).toOption
  (← tree.lookup? place).text?

def directories : List (List String) :=
  [["bin"], ["boot"], ["dev"], ["dev", "mqueue"], ["dev", "pts"], ["dev", "shm"], ["etc"],
    ["home"], ["lib"], ["lib64"], ["media"], ["mnt"], ["opt"], ["root"], ["run"], ["sbin"],
    ["srv"], ["sys"], ["tmp"], ["tmp", "work"], ["usr"], ["usr", "bin"], ["usr", "lib"],
    ["usr", "local"], ["usr", "sbin"], ["usr", "share"], ["var"], ["var", "lib"], ["var", "log"],
    ["var", "tmp"]]

/-- The directories that tell about the running program, in which no entry can be made. -/
def programDirectories : List (List String) := [["proc"], ["proc", "self"], ["proc", "self", "fd"]]

/-- Some usual files, taken to be empty. -/
def files : List (List String) :=
  [["bin", "ls"], ["bin", "sh"], ["etc", "group"], ["etc", "hostname"], ["etc", "hosts"],
    ["etc", "passwd"], ["usr", "bin", "env"]]

/-- The usual devices.  The program has nothing on its standard input. -/
def devices : List (List String × Device) :=
  [(["dev", "null"], .null), (["dev", "zero"], .null), (["dev", "random"], .null),
    (["dev", "urandom"], .null), (["dev", "full"], .full), (["dev", "tty"], .terminal),
    (["proc", "self", "fd", "0"], .null), (["proc", "self", "fd", "1"], .stdout),
    (["proc", "self", "fd", "2"], .stderr)]

def links : List (List String × List String) :=
  [(["dev", "fd"], ["proc", "self", "fd"]), (["dev", "stdin"], ["proc", "self", "fd", "0"]),
    (["dev", "stdout"], ["proc", "self", "fd", "1"]),
    (["dev", "stderr"], ["proc", "self", "fd", "2"]), (["proc", "self", "cwd"], ["tmp", "work"]),
    (["proc", "self", "root"], [])]

/-- A tree with the usual entries and an empty working directory. -/
def usual : FileTree where
  entries :=
    (directories ++ programDirectories).map (fun names => (Place.ofNames names, .directory)) ++
    files.map (fun names => (Place.ofNames names, .file "")) ++
    devices.map (fun (names, device) => (Place.ofNames names, .device device)) ++
    links.map (fun (names, target) => (Place.ofNames names, .link (Place.ofNames target)))
  fixed := programDirectories.map Place.ofNames
  workingDirectory := Place.ofNames ["tmp", "work"]

end FileTree

end Lalr
