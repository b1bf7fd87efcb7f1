import MiniC.CommandLine.Run
import MiniC.Shell.Host

namespace MiniC

def faultOf : IO.Error → FileFault
  | .noFileOrDirectory .. => .notFound
  | .noSuchThing .. => .notFound
  | .inappropriateType .. => .isDirectory
  | .alreadyExists .. => .alreadyThere
  | .invalidArgument .. => .invalid
  | e => .other (Bytes.ofString (toString e))

def pathText (path : Bytes) : String :=
  (String.fromUTF8? (ByteArray.mk path.toArray)).getD ""

def attempt {α : Type} (action : FileAction) (path : Bytes) (act : String → IO α) :
    IO (Except FileError α) := do
  try
    return .ok (← act (pathText path))
  catch e =>
    return .error ⟨action, path, faultOf e⟩

def disk : FileSystem IO where
  read path := attempt .openFile path fun name => do
    return (← IO.FS.readBinFile name).toList
  write path content := attempt .openFile path fun name =>
    IO.FS.writeBinFile name (ByteArray.mk content.toArray)
  makeDirectories path := attempt .makeDirectory path fun name => IO.FS.createDirAll name
  isThere path := do
    let opened ← attempt .openFile path fun name => IO.FS.readBinFile name
    match opened with
    | .ok _ => return true
    | .error e => return e.fault != .notFound

end MiniC

open MiniC in
def main (args : List String) : IO UInt32 := do
  let outcome ← CommandLine.run (Shell.host disk) (args.map Bytes.ofString)
  let stdout ← IO.getStdout
  stdout.write (ByteArray.mk outcome.stdout.toArray)
  let stderr ← IO.getStderr
  stderr.write (ByteArray.mk outcome.messages.toArray)
  return UInt32.ofNat outcome.exit
