import MiniC.Shell.Run

namespace MiniC.Shell

def exitCode (s : State) : Int :=
  match s.flow with
  | .killed => -1
  | _ => s.lastStatus

/-- How a program ended. Outputs that are still open by then are waited for, but not for long. -/
def ending (limit : Nat) (s : State) : Ending :=
  let latest := s.elapsed + grace
  let last := if s.timedOut then s.elapsed else min s.closed latest
  ⟨s.timedOut || limit ≤ last, exitCode s, s.written false last, s.written true last, latest < s.closed⟩

variable {m : Type → Type} [Monad m] (disk : FileSystem m)

def startError (dir name : Bytes) : m StartError := do
  if !name.contains Path.slash then return .notFound name
  if ← disk.isThere (inDirectory dir name) then return .notExecutable name else return .noFile name

def execute (l : Launch) : m (Except StartError Ending) := do
  let known := programs.contains (programName l.name)
  if l.name.isEmpty then return .error .noName
  else if !known && !l.name.contains Path.slash then return .error (.notFound l.name)
  else if l.limit ≤ 0 then return .error .noTime
  else
    let limit := l.limit.toInt.toNat
    match ← launch disk limit l.dir l.name l.args with
    | none => return .error (← startError disk l.dir l.name)
    | some s => return .ok (ending limit s)

/-- The machine with these files whose programs are the ones here. -/
def host : Host m := { disk with execute := execute disk }

end MiniC.Shell
