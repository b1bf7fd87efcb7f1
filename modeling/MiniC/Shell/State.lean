import MiniC.Shell.Program
import MiniC.Shell.Script

namespace MiniC.Shell

inductive Target
  | out
  | err
  | file (path : Bytes)
  | captured (level : Nat)
  deriving DecidableEq, Repr

structure Env where
  name : Bytes
  limit : Nat
  out : Target
  err : Target
  tested : Bool
  loops : Nat
  deriving DecidableEq, Repr

inductive Trap
  | default
  | ignore
  | run (script : Bytes)
  deriving DecidableEq, Repr

/-- How a script goes on after a command. -/
inductive Flow
  | next
  | leaveLoop (levels : Nat)
  | nextRound (levels : Nat)
  | leaveFunction
  | exit (status : Nat)
  | killed
  deriving DecidableEq, Repr

structure Write where
  time : Nat
  job : Nat
  isError : Bool
  text : Bytes
  deriving DecidableEq, Repr

structure Job where
  number : Nat
  finish : Nat
  status : Nat
  holds : Bool
  deriving DecidableEq, Repr

structure State where
  vars : List (Bytes × Bytes)
  exported : List Bytes
  functions : List (Bytes × Command)
  args : List Bytes
  dir : Bytes
  stdin : Bytes
  status : Nat
  onTerm : Trap
  atExit : Bytes
  writes : List Write
  captured : List Bytes
  elapsed : Nat
  timedOut : Bool
  jobs : List Job
  job : Nat
  strict : Bool
  flow : Flow
  deriving Repr

namespace State

def start (dir : Bytes) (args : List Bytes) : State where
  vars := []
  exported := []
  functions := []
  args := args
  dir := dir
  stdin := []
  status := 0
  onTerm := .default
  atExit := []
  writes := []
  captured := []
  elapsed := 0
  timedOut := false
  jobs := []
  job := 0
  strict := false
  flow := .next

def withStatus (status : Nat) (s : State) : State := { s with status }

def kill (s : State) : State := { s with flow := .killed }

def goesOn (s : State) : Bool := s.flow == .next

def lastStatus (s : State) : Nat :=
  match s.flow with
  | .exit status => status
  | .killed => 143
  | _ => s.status

def write (isError : Bool) (text : Bytes) (s : State) : State :=
  { s with writes := ⟨s.elapsed, s.job, isError, text⟩ :: s.writes }

def lead (env : Env) (line : Nat) : Bytes :=
  env.name ++ ": " ++ Bytes.ofNat line ++ ": "

def complain (env : Env) (line : Nat) (message : Bytes) (status : Nat) (s : State) : State :=
  let text := lead env line ++ message ++ "\n"
  let told := match env.err with
    | .err => s.write true text
    | .out => s.write false text
    | _ => s
  { told with status }

def abort (env : Env) (line : Nat) (message : Bytes) (s : State) : State :=
  { s.complain env line message 2 with flow := .exit 2 }

def setVar (name value : Bytes) (s : State) : State :=
  { s with vars := (name, value) :: s.vars.filter (·.1 ≠ name) }

def written (isError : Bool) (time : Nat) (s : State) : Bytes :=
  let writes := s.writes.reverse.filter fun w => w.isError = isError ∧ w.time ≤ time
  (writes.mergeSort fun a b => a.time ≤ b.time).flatMap Write.text

def closed (s : State) : Nat :=
  (s.jobs.filter Job.holds).foldl (fun time job => max time job.finish) s.elapsed

end State

def processNumber : Nat := 2

def lookUp? (env : Env) (s : State) (name : Bytes) : Option Bytes :=
  if name = "?" then some (Bytes.ofNat s.status)
  else if name = "$" then some (Bytes.ofNat processNumber)
  else if name = "#" then some (Bytes.ofNat s.args.length)
  else if name = "@" ∨ name = "*" then some (spaced s.args)
  else if name = "!" then s.jobs.getLast?.map fun job => Bytes.ofNat job.number
  else if name = "0" then some env.name
  else
    match number? name with
    | some n => s.args[n - 1]?
    | none => s.vars.lookup name

end MiniC.Shell
