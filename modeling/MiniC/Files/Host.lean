import MiniC.Files.Path
import MiniC.Text.Quoted

/-!
What a program asks of the machine it runs on: to read and write files, to make directories and to run
commands. The files may be real ones or a tree in memory.
-/

namespace MiniC

inductive FileFault
  | notFound
  | notDirectory
  | isDirectory
  | alreadyThere
  | nameTooLong
  | invalid
  | other (text : Bytes)
  deriving DecidableEq, Repr

def FileFault.text : FileFault → Bytes
  | .notFound => "no such file or directory"
  | .notDirectory => "not a directory"
  | .isDirectory => "is a directory"
  | .alreadyThere => "file exists"
  | .nameTooLong => "file name too long"
  | .invalid => "invalid argument"
  | .other text => text

inductive FileAction
  | openFile
  | readFile
  | makeDirectory
  deriving DecidableEq, Repr

def FileAction.text : FileAction → Bytes
  | .openFile => "open"
  | .readFile => "read"
  | .makeDirectory => "mkdir"

/-- What could not be done, to which file, and why. -/
structure FileError where
  action : FileAction
  path : Bytes
  fault : FileFault
  deriving DecidableEq, Repr

def FileError.message (e : FileError) : Bytes :=
  e.action.text ++ " " ++ e.path ++ ": " ++ e.fault.text

structure FileSystem (m : Type → Type) where
  read : (path : Bytes) → m (Except FileError Bytes)
  write : (path content : Bytes) → m (Except FileError Unit)
  makeDirectories : (path : Bytes) → m (Except FileError Unit)
  isThere : (path : Bytes) → m Bool

/-- A command to run in a directory, for at most so many nanoseconds. -/
structure Launch where
  dir : Bytes
  name : Bytes
  args : List Bytes
  limit : Int64
  deriving DecidableEq, Repr

inductive StartError
  | noName
  | notFound (name : Bytes)
  | noFile (path : Bytes)
  | notExecutable (path : Bytes)
  | noTime
  deriving DecidableEq, Repr

def StartError.message : StartError → Bytes
  | .noName => "exec: no command"
  | .notFound name => "exec: " ++ Text.Quoted.double name ++ ": executable file not found in $PATH"
  | .noFile path => "fork/exec " ++ path ++ ": no such file or directory"
  | .notExecutable path => "fork/exec " ++ path ++ ": permission denied"
  | .noTime => "context deadline exceeded"

/-- How a command ended, and whether something held its outputs open for too long after that. -/
structure Ending where
  timedOut : Bool
  exit : Int
  stdout : Bytes
  stderr : Bytes
  outputOpen : Bool
  deriving DecidableEq, Repr

structure Host (m : Type → Type) extends FileSystem m where
  execute : Launch → m (Except StartError Ending)

end MiniC
