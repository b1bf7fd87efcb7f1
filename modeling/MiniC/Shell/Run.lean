import MiniC.Shell.Expand

namespace MiniC.Shell

section

variable {m : Type → Type} [Monad m] (disk : FileSystem m) (env : Env)
variable (nested : Env → Bytes → State → m State) (run : Env → Command → State → m State) (line : Nat)

def setTarget (descriptor : Nat) (target : Target) (env : Env) : Env :=
  if descriptor = 1 then { env with out := target }
  else if descriptor = 2 then { env with err := target }
  else env

def redirect : List Redirection → Env → State → m (Except Bytes Env × State)
  | [], inner, s => return (.ok inner, s)
  | .input _ w :: rs, inner, s => do
    let (path, s) ← expandWhole env nested line w s
    match ← disk.read (inDirectory s.dir path) with
    | .ok content => redirect rs inner { s with stdin := content }
    | .error _ => return (.error ("cannot open " ++ path ++ ": No such file"), s)
  | .same descriptor w :: rs, inner, s => do
    let (other, s) ← expandWhole env nested line w s
    redirect rs (setTarget descriptor (if other = "2" then inner.err else inner.out) inner) s
  | .output descriptor append w :: rs, inner, s => do
    let (name, s) ← expandWhole env nested line w s
    let path := inDirectory s.dir name
    let kept ← if append then disk.isThere path else pure false
    let opened ← if kept then pure (.ok ()) else disk.write path []
    match opened with
    | .ok _ => redirect rs (setTarget descriptor (.file path) inner) s
    | .error e =>
      let reason : Bytes := if e.fault = .isDirectory then "Is a directory" else "Directory nonexistent"
      return (.error ("cannot create " ++ name ++ ": " ++ reason), s)

def underRedirections (rs : List Redirection) (act : Env → State → m State) (s : State) : m State := do
  let stdin := s.stdin
  match ← redirect disk env nested line rs env s with
  | (.error message, s) => return { s.complain env line message 2 with stdin }
  | (.ok inner, s) =>
    if rs.isEmpty then act inner s
    else
      let s ← act inner s
      return { s with stdin }

def programName (command : Bytes) : Bytes :=
  let name := Path.base command
  if command = "/bin/" ++ name ∨ command = "/usr/bin/" ++ name then name else command

/-- A script that the shell is to run, and what it is called. -/
structure Task where
  name : Bytes
  args : List Bytes
  script : Bytes
  deriving DecidableEq, Repr

def task (dir : Bytes) (args : List Bytes) : m (Except Bytes Task) := do
  match args with
  | [] => return .ok ⟨"sh", [], []⟩
  | path :: rest =>
    if path = "-c" then
      match rest with
      | [] => return .error "sh: 0: -c requires an argument\n"
      | script :: rest => return .ok ⟨rest.headD "sh", rest.drop 1, script⟩
    match ← disk.read (inDirectory dir path) with
    | .ok script => return .ok ⟨path, rest, script⟩
    | .error _ => return .error ("sh: 0: cannot open " ++ path ++ ": No such file\n")

def runShell (args : List Bytes) (s : State) : m State := do
  match ← task disk s.dir args with
  | .error message => return (← deliver disk env.err message s).withStatus 2
  | .ok t =>
    let act (s : State) : m State :=
      nested { env with name := t.name, tested := false, loops := 0 } t.script
        { s with
          vars := s.vars.filter fun v => s.exported.contains v.1
          functions := [], args := t.args, strict := false }
    subshell env nested act s

def runByName (line : Nat) (name : Bytes) (args : List Bytes) (s : State) : m (Option State) := do
  let name := programName name
  if name = "sh" then return some (← runShell disk env nested args s)
  match ← runProgram disk s.dir (State.lead env line) name args s.stdin with
  | none => return none
  | some output =>
    let s ← deliver disk env.out output.out (s.withStatus output.status)
    let s ← deliver disk env.err output.err s
    if output.waits = 0 then return some s
    return some (← wait env nested true output.waits s)

def runNamed (about name : Bytes) (args : List Bytes) (s : State) : m State := do
  match ← runByName disk env nested line name args s with
  | some s => return s
  | none =>
    let isFile ← if name.contains Path.slash then disk.isThere (inDirectory s.dir name) else pure false
    let (reason, status) : Bytes × Nat := if isFile then ("Permission denied", 126) else ("not found", 127)
    return s.complain env line (about ++ name ++ ": " ++ reason) status

def isTerm (signal : Bytes) : Bool :=
  signal = "TERM" || signal = "SIGTERM" || signal = "15"

def isExit (signal : Bytes) : Bool :=
  signal = "EXIT" || signal = "0"

def setTrap (action : Bytes) (s : State) (signal : Bytes) : State :=
  if isTerm signal then
    { s with onTerm := if action = "-" then .default else if action.isEmpty then .ignore else .run action }
  else if isExit signal then { s with atExit := if action = "-" then [] else action }
  else s

def endJob (number : Nat) (s : State) : State :=
  let ended (job : Job) : Bool := job.number = number && s.elapsed < job.finish
  let job (job : Job) : Job :=
    if ended job then { job with finish := s.elapsed, status := 143 } else job
  { s with
    jobs := s.jobs.map job
    writes := s.writes.filter fun w => !(w.job = number && s.elapsed < w.time) }

def signalTo (signal target : Bytes) (s : State) : m State :=
  match number? target with
  | none => return s.withStatus 1
  | some number =>
    let isJob := s.jobs.any fun job => job.number = number
    if number ≠ processNumber ∧ !isJob then return s.withStatus 1
    else if signal = "0" then return s.withStatus 0
    else if isJob then return (endJob number s).withStatus 0
    else if isTerm signal then
      match s.onTerm with
      | .default => return s.kill
      | .ignore => return s.withStatus 0
      | .run script => nested env script (s.withStatus 0)
    else return s.kill

def killArgs : List Bytes → State → m State
  | [0x2d, 0x73] :: signal :: target :: _, s => signalTo env nested signal target s
  | (0x2d :: signal) :: target :: _, s => signalTo env nested signal target s
  | target :: _, s => signalTo env nested "TERM" target s
  | [], s => return s.withStatus 2

def waitArgs (args : List Bytes) (s : State) : m State := do
  let numbers := args.filterMap number?
  let jobs := s.jobs.filter fun job => args.isEmpty || numbers.contains job.number
  let status := if args.isEmpty then 0 else (jobs.getLast?.map Job.status).getD 127
  let s := if !args.isEmpty && status = 143 then s.write true "Terminated\n" else s
  let finish := jobs.foldl (fun time job => max time job.finish) s.elapsed
  if finish = s.elapsed then return s.withStatus status
  let limited := env.limit ≤ finish
  let s ← wait env nested false (finish - s.elapsed) (s.withStatus status)
  return if limited then { s with jobs := s.jobs.map fun job => { job with finish := min job.finish env.limit } }
    else s

def levelOf (args : List Bytes) : Nat :=
  ((args.head?.bind number?).getD 1).max 1

def withoutBlanks (text : Bytes) : Bytes :=
  ((text.dropWhile isBlank).reverse.dropWhile isBlank).reverse

def setFields (text : Bytes) : List Bytes → State → State
  | [], s => s
  | [name], s => s.setVar name (withoutBlanks text)
  | name :: names, s =>
    let text := text.dropWhile isBlank
    setFields (text.dropWhile fun c => !isBlank c) names
      (s.setVar name (text.takeWhile fun c => !isBlank c))

def readLine (args : List Bytes) (s : State) : State :=
  let names := args.filter fun arg => arg != Bytes.ofString "-r"
  let line := s.stdin.takeWhile (· != Ascii.newline)
  let rest := s.stdin.dropWhile (· != Ascii.newline)
  let s := setFields line names s
  { s with stdin := rest.drop 1, status := if rest.isEmpty then 1 else 0 }

def changeDirectory (path : Bytes) (s : State) : m State := do
  let dir := inDirectory s.dir path
  match ← disk.read dir with
  | .error e =>
    if e.fault = .isDirectory then return { s with dir, status := 0 }
    else return s.complain env line ("cd: can't cd to " ++ path) 2
  | .ok _ => return s.complain env line ("cd: can't cd to " ++ path) 2

def exitWith (name : Bytes) (flow : Nat → Flow) (args : List Bytes) (s : State) : State :=
  match args with
  | [] => { s with flow := flow s.status }
  | arg :: _ =>
    match number? arg with
    | some status => { s with status := status % 256, flow := flow (status % 256) }
    | none => s.abort env line (name ++ ": Illegal number: " ++ arg)

def setOptions (args : List Bytes) (s : State) : State :=
  match args with
  | [] => s.withStatus 0
  | arg :: rest =>
    if arg = "--" then { s with args := rest, status := 0 }
    else if arg = "-e" then { s with strict := true, status := 0 }
    else if arg = "+e" then { s with strict := false, status := 0 }
    else if arg.head? = some 0x2d ∨ arg.head? = some 0x2b then s.withStatus 0
    else { s with args, status := 0 }

def runFile (path : Bytes) (s : State) : m State := do
  match ← disk.read (inDirectory s.dir path) with
  | .ok script => nested env script s
  | .error _ =>
    let reason : Bytes :=
      if path.contains Path.slash then "cannot open " ++ path ++ ": No such file" else path ++ ": not found"
    return s.abort env line (".: " ++ reason)

def setVars (args : List Bytes) (s : State) : State :=
  args.foldl (fun s arg =>
    if arg.contains 0x3d then
      s.setVar (arg.takeWhile (· != 0x3d)) ((arg.dropWhile (· != 0x3d)).drop 1)
    else s) (s.withStatus 0)

def runInstead (args : List Bytes) (s : State) : m State := do
  match args with
  | [] => return s.withStatus 0
  | program :: args =>
    let onTerm := if s.onTerm = .ignore then .ignore else .default
    let s ← runNamed disk env nested line "exec: " program args { s with onTerm, atExit := [] }
    return if s.goesOn then { s with flow := .exit s.status } else s

def leave (flow : Nat → Flow) (args : List Bytes) (s : State) : State :=
  { s with status := 0, flow := if env.loops = 0 then .next else flow (min (levelOf args) env.loops) }

def call (body : Command) (args : List Bytes) (s : State) : m State := do
  let outer := s.args
  let s ← run { env with loops := 0 } body { s with args }
  return { s with args := outer, flow := if s.flow = .leaveFunction then .next else s.flow }

def runWords (words : List Bytes) (s : State) : m State := do
  match words with
  | [] => return s
  | name :: args =>
    match s.functions.lookup name with
    | some body => call env run body args s
    | none =>
      if name = ":" then return s.withStatus 0
      else if name = "echo" then deliver disk env.out (echo true args).out (s.withStatus 0)
      else if name = "exit" then return exitWith env line name .exit args s
      else if name = "return" then return exitWith env line name (fun _ => .leaveFunction) args s
      else if name = "break" then return leave env .leaveLoop args s
      else if name = "continue" then return leave env .nextRound args s
      else if name = "trap" then
        match args with
        | action :: signals => return signals.foldl (setTrap action) (s.withStatus 0)
        | [] => return s.withStatus 0
      else if name = "kill" then killArgs env nested args s
      else if name = "wait" then waitArgs env nested args s
      else if name = "exec" then runInstead disk env nested line args s
      else if name = "eval" then nested env (spaced args) (s.withStatus 0)
      else if name = "read" then return readLine args s
      else if name = "cd" then changeDirectory disk env line (args.headD "/") s
      else if name = "shift" then return { s with args := s.args.drop (levelOf args), status := 0 }
      else if name = "set" then return setOptions args s
      else if name = "." then runFile disk env nested line (args.headD []) s
      else if name = "export" then
        let names := args.map fun arg => arg.takeWhile (· != 0x3d)
        return { setVars args s with exported := names ++ s.exported }
      else if name = "readonly" ∨ name = "local" then return setVars args s
      else if name = "unset" then
        return { s with vars := s.vars.filter fun v => !args.contains v.1, status := 0 }
      else runNamed disk env nested line [] name args s

def assignAll : List Word → State → m (State × List Word)
  | [], s => return (s, [])
  | w :: ws, s => do
    match assignment? w with
    | some (name, value) =>
      let (value, s) ← expandWhole env nested line value s
      assignAll ws (s.setVar name value)
    | none => return (s, w :: ws)

def runSimple (words : List Word) (rs : List Redirection) (s : State) : m State := do
  let (assigned, words) ← assignAll env nested line words (s.withStatus 0)
  let (fields, expanded) ← expandAll env nested line words { assigned with status := s.status }
  if !expanded.goesOn then return expanded
  let act (inner : Env) (s : State) : m State := runWords disk inner nested run line fields s
  if fields.isEmpty then
    let ran := if words.isEmpty then assigned.status else expanded.status
    underRedirections disk env nested line rs act (expanded.withStatus ran)
  else
    let names := (assigned.vars.filter fun v => !s.vars.contains v).map Prod.fst
    let told := { expanded with exported := names ++ expanded.exported }
    let done ← underRedirections disk env nested line rs act told
    return if names.isEmpty then done else { done with vars := s.vars, exported := s.exported }

def runSequence : List Command → State → m State
  | [], s => return s
  | c :: cs, s => do
    let s ← run env c s
    if s.goesOn then runSequence cs s else return s

def runPiped (start : Nat) : List Command → State → m State
  | [], s => return s
  | [c], s => subshell env nested (run env c) { s with elapsed := start }
  | c :: cs, s => do
    let act (env : Env) (s : State) : m State := subshell env nested (run env c) s
    let (text, left) ← capture env act { s with elapsed := start }
    if !left.goesOn then return left
    let s ← runPiped start cs { left with stdin := text }
    return { s with elapsed := max left.elapsed s.elapsed }

def isDetached (c : Command) : Bool :=
  let leadsAway (rs : List Redirection) : Bool :=
    rs.any (fun r => match r with | .output 1 _ _ => true | _ => false) &&
      rs.any (fun r => match r with | .output 2 _ _ => true | .same 2 _ => true | _ => false)
  match c with
  | .simple _ _ rs => leadsAway rs
  | .redirected _ _ rs => leadsAway rs
  | _ => false

def forever : Nat := 0xffffffffffffffff

def runBackground (c : Command) (s : State) : m State := do
  let number := processNumber + 1 + s.jobs.length
  let free := { env with limit := forever }
  let inner ← subshell free nested (run free c) { s with job := number, stdin := [] }
  let holds := !isDetached c && (env.out = .out || env.err = .err)
  return { s with
    writes := inner.writes, captured := inner.captured, status := 0
    jobs := s.jobs ++ [⟨number, inner.elapsed, inner.status, holds⟩] }

def afterRound (s : State) : Bool × State :=
  match s.flow with
  | .next => (true, s)
  | .leaveLoop levels => (false, { s with flow := if levels ≤ 1 then .next else .leaveLoop (levels - 1) })
  | .nextRound levels =>
    if levels ≤ 1 then (true, { s with flow := .next })
    else (false, { s with flow := .nextRound (levels - 1) })
  | _ => (false, s)

def runLoop (isUntil : Bool) (condition body : Command) : (rounds : Nat) → Nat → State → m State
  | 0, _, s => return overrun env s
  | rounds + 1, last, s => do
    let tested ← run { env with tested := true } condition s
    if !tested.goesOn then
      let (_, s) := afterRound tested
      return s
    if (tested.status = 0) = isUntil then return tested.withStatus last
    let (more, s) := afterRound (← run env body tested)
    if more then runLoop isUntil condition body rounds s.status s else return s

def runFor (name : Bytes) (body : Command) : List Bytes → State → m State
  | [], s => return s
  | word :: words, s => do
    let (more, s) := afterRound (← run env body (s.setVar name word))
    if more then runFor name body words s else return s

def matchesAny (text : Bytes) : List Word → State → m (Bool × State)
  | [], s => return (false, s)
  | w :: ws, s => do
    let (pattern, s) ← expandPattern env nested line w s
    if matchesPattern pattern text then return (true, s) else matchesAny text ws s

def runArms (text : Bytes) : List (List Word × Command) → State → m State
  | [], s => return s.withStatus 0
  | (ws, body) :: arms, s => do
    let (found, s) ← matchesAny env nested line text ws s
    if found then run env body (s.withStatus 0) else runArms text arms s

def maxRounds : Nat := 10000

def checked (s : State) : State :=
  if s.strict && s.goesOn && s.status != 0 && !env.tested then { s with flow := .exit s.status } else s

def runCommand (c : Command) (s : State) : m State := do
  match c with
  | .simple line words rs => return checked env (← runSimple disk env nested run line words rs s)
  | .redirected line body rs => underRedirections disk env nested line rs (fun inner => run inner body) s
  | .pipe cs => do
    let s' ← runPiped env nested run s.elapsed cs s
    return checked env { s' with stdin := s.stdin }
  | .not c => do
    let s ← run { env with tested := true } c s
    return if s.goesOn then s.withStatus (if s.status = 0 then 1 else 0) else s
  | .and first second => do
    let s ← run { env with tested := true } first s
    if s.goesOn && s.status == 0 then run env second s else return s
  | .or first second => do
    let s ← run { env with tested := true } first s
    if s.goesOn && s.status != 0 then run env second s else return s
  | .background c => runBackground env nested run c s
  | .sequence cs => runSequence env run cs s
  | .subshell body => return checked env (← subshell env nested (run env body) s)
  | .branch condition yes no => do
    let s ← run { env with tested := true } condition s
    if !s.goesOn then return s
    if s.status = 0 then run env yes s else run env no (s.withStatus 0)
  | .loop isUntil condition body =>
    runLoop { env with loops := env.loops + 1 } run isUntil condition body maxRounds 0 s
  | .forEach name words body => do
    let (values, s) ← match words with
      | some words => expandAll env nested line words s
      | none => pure (s.args, s)
    runFor { env with loops := env.loops + 1 } run name body values (s.withStatus 0)
  | .choice subject arms => do
    let (text, s) ← expandWhole env nested line subject s
    runArms env nested run line text arms s
  | .define name body => return { s with functions := (name, body) :: s.functions, status := 0 }

end

def runLines {m : Type → Type} [Monad m] (run : Env → Command → State → m State) (env : Env)
    (refusal : Option Refusal) : List Command → State → m State
  | [], s =>
    match refusal with
    | some r => return s.abort env r.line ("Syntax error: " ++ r.error.message)
    | none => return s
  | c :: cs, s => do
    let s ← run env c s
    if s.goesOn then runLines run env refusal cs s else return s

mutual

def runAt {m : Type → Type} [Monad m] (disk : FileSystem m) (fuel : Nat) (env : Env) (c : Command) (s : State) :
    m State :=
  match fuel with
  | 0 => return overrun env s
  | fuel + 1 => runCommand disk env (runScript disk fuel) (runAt disk fuel) 1 c s

def runScript {m : Type → Type} [Monad m] (disk : FileSystem m) (fuel : Nat) (env : Env) (text : Bytes)
    (s : State) : m State :=
  match fuel with
  | 0 => return overrun env s
  | fuel + 1 =>
    let script := Script.ofText text
    runLines (runAt disk fuel) env script.refusal script.lines s

end

def depth : Nat := 500

/-- Runs a program by its name, outside any script. The result is nothing if there is no such program. -/
def launch {m : Type → Type} [Monad m] (disk : FileSystem m) (limit : Nat) (dir name : Bytes) (args : List Bytes) :
    m (Option State) := do
  let nested := runScript disk depth
  let env : Env := ⟨name, limit, .out, .err, false, 0⟩
  if programName name = "sh" then
    match ← task disk dir args with
    | .ok t =>
      let env := { env with name := t.name }
      return some (← runAtExit env nested (← nested env t.script (.start dir t.args)))
    | .error message => return some (((State.start dir []).write true message).withStatus 2)
  else runByName disk env nested 1 name args (.start dir [])

end MiniC.Shell
