import MiniC.Emulator.Result
import MiniC.Files.Host
import MiniC.Settings

namespace MiniC.Emulator

inductive Error
  | emptyCommand
  | write (error : FileError)
  | start (error : StartError)
  | outputOpen
  deriving DecidableEq, Repr

def Error.message : Error → Bytes
  | .emptyCommand => "empty command"
  | .write error => "write asm: " ++ error.message
  | .start error => "start: " ++ error.message
  | .outputOpen => "wait: exec: WaitDelay expired before I/O complete"

/-- What a run leaves. One that would have ended well is an error if its outputs stay open. -/
def outcome (banner : Bytes) (e : Ending) : Except Error Result :=
  let result : Result := ⟨e.timedOut, e.exit, e.stdout, withoutBanner banner e.stderr⟩
  if result.ok && e.outputOpen then .error .outputOpen else .ok result

def run {m : Type → Type} [Monad m] (host : Host m) (s : EmulatorSettings) (assembly : Bytes) :
    m (Except Error Result) := do
  match s.command with
  | [] => return .error .emptyCommand
  | name :: args =>
    match ← host.write (Path.join s.dir s.file) assembly with
    | .error e => return .error (.write e)
    | .ok _ =>
      match ← host.execute ⟨s.dir, name, args, s.timeout.nanoseconds⟩ with
      | .error e => return .error (.start e)
      | .ok ending => return outcome s.banner ending

end MiniC.Emulator
