import JackCompiler.Diagnostic
import JackCompiler.Log

/-!
What a run of the program needs from outside: files, a console, a log and a clock. The same run
works on the files of a machine and on a tree of files in memory.
-/

namespace JackCompiler

inductive EntryKind where
  | directory
  | file
deriving DecidableEq

class Host (m : Type → Type) where
  /-- What is found at a path, if anything is. -/
  entry? (path : String) : m (Option EntryKind)
  /-- The names of everything directly inside a directory, in any order. -/
  names (directory : String) : m (List String)
  read (path : String) : m (Except IoFault ByteArray)
  /-- Makes an empty file, in place of any earlier file at the path. -/
  create (path : String) : m (Except IoFault Unit)
  /-- Replaces the contents of a file. -/
  write (path : String) (bytes : ByteArray) : m (Except IoFault Unit)
  remove (path : String) : m (Except IoFault Unit)
  print (text : String) : m Unit
  /-- Opens the log. From then on it is told all records, and keeps those that are important
  enough. -/
  openLog (verbosity : Verbosity) : m Unit
  log (record : LogRecord) : m Unit
  startClock : m Unit
  /-- Nanoseconds since the clock was started, if there is a clock. -/
  elapsed? : m (Option Nat)

end JackCompiler
