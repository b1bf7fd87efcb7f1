import MiniC.Shell.State

namespace MiniC.Shell

section

variable {m : Type → Type} [Monad m] (disk : FileSystem m) (env : Env)
variable (nested : Env → Bytes → State → m State)

def deliver (target : Target) (text : Bytes) (s : State) : m State :=
  match target with
  | .out => return s.write false text
  | .err => return s.write true text
  | .captured level =>
    return { s with captured := s.captured.mapIdx fun n old => if n = level then old ++ text else old }
  | .file path => do
    match ← disk.read path with
    | .ok content =>
      let _ ← disk.write path (content ++ text)
      return s
    | .error _ => return s

def grace : Nat := 1000000000

def timeOut (s : State) : m State :=
  let s := { s with timedOut := true, elapsed := max s.elapsed env.limit }
  match s.onTerm with
  | .default => return s.kill
  | .ignore => return s
  | .run script => do
    let s ← nested env script (s.withStatus 143)
    return s.withStatus 143

def wait (running : Bool) (time : Nat) (s : State) : m State := do
  let later := s.elapsed + time
  if later < env.limit then return { s with elapsed := later }
  else if s.timedOut || s.onTerm == .ignore then
    let s := { s with timedOut := true, elapsed := min later (env.limit + grace) }
    return if env.limit + grace ≤ later then s.kill else s
  else
    let told := running && s.onTerm != .default
    timeOut env nested (if told then { s with elapsed := env.limit }.write true "Terminated\n" else s)

def overrun (s : State) : State :=
  { s with timedOut := true, elapsed := max s.elapsed env.limit }.kill

def runAtExit (s : State) : m State := do
  if s.atExit.isEmpty || s.flow == .killed then return s
  let status := s.lastStatus
  let s ← nested env s.atExit { s with atExit := [], status, flow := .next }
  return match s.flow with
    | .exit _ => s
    | .killed => s
    | _ => { s with status }

def subshell (act : State → m State) (s : State) : m State := do
  let onTerm := if s.onTerm = .ignore then .ignore else .default
  let inner ← runAtExit env nested (← act { s with onTerm, atExit := [], flow := .next })
  let after := { s with
    status := inner.lastStatus, elapsed := inner.elapsed, timedOut := inner.timedOut
    writes := inner.writes, captured := inner.captured }
  if inner.flow = .killed ∧ inner.timedOut ∧ !s.timedOut then timeOut env nested after else return after

def capture (act : Env → State → m State) (s : State) : m (Bytes × State) := do
  let level := s.captured.length
  let s ← act { env with out := .captured level } { s with captured := s.captured ++ [[]] }
  return ((s.captured[level]?).getD [], { s with captured := s.captured.take level })

end

end MiniC.Shell
