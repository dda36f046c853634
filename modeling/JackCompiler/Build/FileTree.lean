import JackCompiler.Build.Console
import JackCompiler.Build.Host

/-!
Files and directories in memory. A path names an entry by the way that leads to it from the top:
empty steps and `.` stay where they are, `..` goes back, and every step but the last must be a
directory.
-/

namespace JackCompiler

inductive Entry where
  | directory
  | file (bytes : ByteArray)

instance : DecidableEq Entry
  | .directory, .directory => isTrue rfl
  | .directory, .file _ => isFalse nofun
  | .file _, .directory => isFalse nofun
  | .file x, .file y =>
    if h : x.data = y.data then isTrue (congrArg Entry.file (ByteArray.ext h))
    else isFalse fun heq => h (by injection heq with heq; rw [heq])

def Entry.kind : Entry → EntryKind
  | directory => .directory
  | file _ => .file

/-- The entries below the top, each with the names on the way to it. -/
structure FileTree where
  entries : List (List String × Entry)

namespace FileTree

def get? (tree : FileTree) (way : List String) : Option Entry :=
  if way = [] then some .directory else tree.entries.lookup way

def isDirectory (tree : FileTree) (way : List String) : Bool :=
  tree.get? way = some .directory

/-- Puts an entry at the end of a way, in place of an earlier one. -/
def insert (tree : FileTree) (way : List String) (entry : Entry) : FileTree :=
  if tree.entries.any (·.1 = way) then
    ⟨tree.entries.map fun old => if old.1 = way then (way, entry) else old⟩
  else ⟨tree.entries ++ [(way, entry)]⟩

def erase (tree : FileTree) (way : List String) : FileTree :=
  ⟨tree.entries.filter (·.1 ≠ way)⟩

/-- Adds an entry below a directory, together with the directories on the way to it. A directory
that is there already stays as it is. -/
def plantBelow (tree : FileTree) (way : List String) : List String → Entry → FileTree
  | [], _ => tree
  | [name], .file bytes => tree.insert (way ++ [name]) (.file bytes)
  | name :: rest, entry =>
    let grown :=
      if tree.isDirectory (way ++ [name]) then tree else tree.insert (way ++ [name]) .directory
    grown.plantBelow (way ++ [name]) rest entry

def plant (tree : FileTree) (way : List String) (entry : Entry) : FileTree :=
  tree.plantBelow [] way entry

/-- The names directly inside a directory. -/
def names (tree : FileTree) (directory : List String) : List String :=
  tree.entries.filterMap fun (way, _) =>
    if way.dropLast = directory then way.getLast? else none

/-- The steps of a path, which are what its slashes separate. -/
def stepsFrom (step : List Char) : List Char → List String
  | [] => [String.ofList step.reverse]
  | '/' :: rest => String.ofList step.reverse :: stepsFrom [] rest
  | c :: rest => stepsFrom (c :: step) rest

def steps (path : String) : List String :=
  stepsFrom [] path.toList

/-- Follows steps from an entry on. -/
def follow (tree : FileTree) (way : List String) : List String → Option (List String)
  | [] => some way
  | step :: rest =>
    if tree.isDirectory way then
      if step = "" ∨ step = "." then tree.follow way rest
      else if step = ".." then
        if way = [] then none else tree.follow way.dropLast rest
      else tree.follow (way ++ [step]) rest
    else none

/-- The way that a path describes. Only the end of it may be missing from the tree. -/
def resolve? (tree : FileTree) (path : String) : Option (List String) :=
  match path.toList with
  | [] | '/' :: _ => none
  | _ => tree.follow [] (steps path)

def read (tree : FileTree) (path : String) : Except IoFault ByteArray :=
  match (tree.resolve? path).bind tree.get? with
  | some (.file bytes) => .ok bytes
  | some .directory => .error .isDirectory
  | none => .error .notFound

def write (tree : FileTree) (path : String) (bytes : ByteArray) : Except IoFault FileTree :=
  match tree.resolve? path with
  | some way =>
    if tree.isDirectory way then .error .isDirectory
    else .ok (tree.insert way (.file bytes))
  | none => .error .notFound

def remove (tree : FileTree) (path : String) : Except IoFault FileTree :=
  match tree.resolve? path with
  | some way =>
    match tree.get? way with
    | some (.file _) => .ok (tree.erase way)
    | some .directory => .error .isDirectory
    | none => .error .notFound
  | none => .error .notFound

end FileTree

/-- A run on files in memory. -/
structure Session where
  files : FileTree
  /-- What was printed, apart from the log. -/
  text : String := ""
  verbosity : Verbosity := .silent
  /-- All records that the log was told, latest first. -/
  log : List LogRecord := []
  /-- What the clock will show, if there is one. -/
  clock? : Option Nat := none

namespace Session

/-- What a console shows of the session. -/
def printed (session : Session) : String :=
  let shown := session.log.reverse.filter (·.isShown session.verbosity)
  session.text ++ String.join (shown.map LogRecord.line)

def replaceFiles (result : Except IoFault FileTree) : StateM Session (Except IoFault Unit) :=
  match result with
  | .ok files => do
    modify ({ · with files })
    return .ok ()
  | .error fault => return .error fault

instance : Host (StateM Session) where
  entry? path := do
    let tree := (← get).files
    return ((tree.resolve? path).bind tree.get?).map Entry.kind
  names directory := do
    let tree := (← get).files
    return ((tree.resolve? directory).map tree.names).getD []
  read path := return (← get).files.read path
  create path := do replaceFiles ((← get).files.write path .empty)
  write path bytes := do replaceFiles ((← get).files.write path bytes)
  remove path := do replaceFiles ((← get).files.remove path)
  print text := modify fun session => { session with text := session.text ++ text }
  openLog verbosity := modify ({ · with verbosity })
  log record := modify fun session => { session with log := record :: session.log }
  startClock := return ()
  elapsed? := return (← get).clock?

end Session

end JackCompiler
