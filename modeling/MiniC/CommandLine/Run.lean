import MiniC.CommandLine.Flag
import MiniC.Compile
import MiniC.Emulator.Run
import MiniC.Snapshot.OfCode
import MiniC.Snapshot.Packed
import MiniC.Source.Printer

namespace MiniC.CommandLine

inductive LoadError
  | file (path : Bytes) (error : FileError)
  | decode (path : Bytes)
  | settings (error : Settings.Error)
  deriving DecidableEq, Repr

def LoadError.message : LoadError → Bytes
  | .file path error => "decode " ++ path ++ ": " ++ error.message
  | .decode path => "decode " ++ path ++ ": malformed"
  | .settings error => error.message

inductive Cause
  | read (error : FileError)
  | parse (error : Source.SyntaxError)
  | format (error : Source.Printer.Error)
  | lower (error : LowerError)
  | create (error : FileError)
  | pack (error : Snapshot.PackError)
  | openSnapshot (error : FileError)
  | readSnapshot (error : FileError)
  | unpack (error : Snapshot.UnpackError)
  | compile (error : CompileError)
  deriving DecidableEq, Repr

def Cause.message (file : Bytes) : Cause → Bytes
  | .read error => "read file: " ++ error.message
  | .parse error => error.message file
  | .format error => Source.Printer.Error.message error
  | .lower error => error.message file
  | .create error => "create: " ++ error.message
  | .pack error => Snapshot.PackError.message error
  | .openSnapshot error => "open: " ++ error.message
  | .readSnapshot error => "unpack: decode: " ++ error.message
  | .unpack error => "unpack: " ++ error.message
  | .compile error => error.message file

inductive Task
  | parse
  | format
  | lower
  | pack
  | compile
  deriving DecidableEq, Repr

def Task.name : Task → Bytes
  | .parse => "parse"
  | .format => "format"
  | .lower => "lower"
  | .pack => "pack"
  | .compile => "compile"

inductive Failure
  | file (task : Task) (file : Bytes) (cause : Cause)
  | write (error : FileError)
  | fileCount (count : Nat)
  | run (error : Emulator.Error)
  | exited (code : Int)
  deriving DecidableEq, Repr

def Failure.message : Failure → Bytes
  | .file task path cause => task.name ++ " " ++ path ++ ": " ++ cause.message path
  | .write error => "write output: " ++ error.message
  | .fileCount count => "expected one file, got " ++ Bytes.ofNat count
  | .run error => "run: " ++ error.message
  | .exited code => "emulator exited with " ++ Bytes.ofInt code

inductive Error
  | arguments (error : ArgumentError)
  | load (command : Option Command) (error : LoadError)
  | command (command : Command) (failure : Failure)
  deriving DecidableEq, Repr

def Error.message : Error → Bytes
  | .arguments error => error.message
  | .load (some c) error => c.name ++ ": before: crv: load config: " ++ error.message
  | .load none error => "before: load config: " ++ error.message
  | .command c failure => c.name ++ ": " ++ failure.message

structure Printed where
  stdout : Bytes
  notice : Bytes
  failure : Option Failure
  deriving DecidableEq, Repr

namespace Printed

def nothing : Printed := ⟨[], [], none⟩

def text (stdout : Bytes) : Printed := ⟨stdout, [], none⟩

def failed (failure : Failure) : Printed := ⟨[], [], some failure⟩

end Printed

section

variable {m : Type → Type} [Monad m] (disk : FileSystem m)

def forFiles (one : Bytes → m Printed) : List Bytes → m Printed
  | [] => return .nothing
  | file :: files => do
    let printed ← one file
    if printed.failure.isSome then return printed
    let rest ← forFiles one files
    return { rest with stdout := printed.stdout ++ rest.stdout }

def parseFile (file : Bytes) : m Printed := do
  match ← disk.read file with
  | .error e => return .failed (.file .parse file (.read e))
  | .ok text =>
    match Source.parse text with
    | .error e => return .failed (.file .parse file (.parse e))
    | .ok program =>
      match program.format with
      | .error e => return .failed (.file .format file (.format e))
      | .ok formatted => return .text formatted

def packFile (file : Bytes) (p : Code.Program) : m Printed := do
  let target := Path.withoutExtension file ++ ".irpack"
  match ← disk.write target [] with
  | .error e => return .failed (.file .pack file (.create e))
  | .ok _ =>
    match Snapshot.pack Snapshot.messagePack p with
    | .error e => return .failed (.file .pack file (.pack e))
    | .ok bytes =>
      match ← disk.write target bytes with
      | .error e => return .failed (.file .pack file (.create e))
      | .ok _ => return .nothing

def lowerFile (pack : Bool) (file : Bytes) : m Printed := do
  match ← disk.read file with
  | .error e => return .failed (.file .lower file (.read e))
  | .ok text =>
    match lower text with
    | .error e => return .failed (.file .lower file (.lower e))
    | .ok p => if pack then packFile disk file p else return .text p.text

def compileFile (startup : Assembly.Startup) (file : Bytes) : m (Except Cause Bytes) := do
  let asText (result : Except CompileError (List Assembly.Line)) : Except Cause Bytes :=
    match result with
    | .ok lines => .ok (Assembly.text lines)
    | .error e => .error (.compile e)
  if Path.extension file = ".irpack" then
    match ← disk.read file with
    | .error e => return .error (if e.action = .openFile then .openSnapshot e else .readSnapshot e)
    | .ok bytes =>
      match Snapshot.unpack Snapshot.messagePack bytes with
      | .error e => return .error (.unpack e)
      | .ok p => return asText (compileCode startup p)
  else
    match ← disk.read file with
    | .error e => return .error (.read e)
    | .ok text => return asText (compile startup text)

def compileFiles (startup : Assembly.Startup) : List Bytes → m (Except Failure (List (Bytes × Bytes)))
  | [] => return .ok []
  | file :: files => do
    match ← compileFile disk startup file with
    | .error cause => return .error (.file .compile file cause)
    | .ok assembly =>
      match ← compileFiles startup files with
      | .error e => return .error e
      | .ok rest => return .ok ((file, assembly) :: rest)

def writeAll (dir : Bytes) : List (Bytes × Bytes) → m (Except FileError Unit)
  | [] => return .ok ()
  | (file, assembly) :: rest => do
    let name := Path.withoutEnding (Path.extension file) (Path.base file) ++ ".s"
    match ← disk.write (Path.join dir name) assembly with
    | .error e => return .error e
    | .ok _ => writeAll dir rest

def writeOutput (output : Bytes) (compiled : List (Bytes × Bytes)) : m (Except FileError Unit) := do
  match compiled with
  | [(_, assembly)] => disk.write output assembly
  | compiled =>
    match ← disk.makeDirectories output with
    | .error e => return .error e
    | .ok _ => writeAll disk output compiled

def compileCommand (startup : Assembly.Startup) (output : Bytes) (files : List Bytes) : m Printed := do
  match ← compileFiles disk startup files with
  | .error failure => return .failed failure
  | .ok compiled =>
    if output.isEmpty then return .text (compiled.flatMap Prod.snd)
    match ← writeOutput disk output compiled with
    | .error e => return .failed (.write e)
    | .ok _ => return .nothing

end

section

variable {m : Type → Type} [Monad m] (host : Host m)

def runCommand (settings : Settings) (files : List Bytes) : m Printed := do
  match files with
  | [file] =>
    match ← compileFile host.toFileSystem settings.startup file with
    | .error cause => return .failed (.file .compile file cause)
    | .ok assembly =>
      match ← Emulator.run host settings.emulator assembly with
      | .error e => return .failed (.run e)
      | .ok result =>
        if result.timedOut then
          let notice := "emulator stopped after " ++ settings.emulator.timeout.text ++ "\n"
          return ⟨result.output, notice, none⟩
        else if result.ok then return .text result.output
        else return ⟨result.output, [], some (.exited result.exit)⟩
  | files => return .failed (.fileCount files.length)

def perform (settings : Settings) (o : Options) (files : List Bytes) : Command → m Printed
  | .parse => forFiles (parseFile host.toFileSystem) files
  | .ir => forFiles (lowerFile host.toFileSystem o.pack) files
  | .compile => compileCommand host.toFileSystem settings.startup o.output files
  | .run => runCommand host settings files

def load (path : Bytes) : m (Except LoadError Settings) := do
  if path.isEmpty then return .ok .default
  match ← host.read path with
  | .error e => return .error (.file path e)
  | .ok text =>
    match Settings.read text with
    | .ok settings => return .ok settings
    | .error .decode => return .error (.decode path)
    | .error e => return .error (.settings e)

structure Outcome where
  stdout : Bytes
  notice : Bytes
  error : Option Error
  deriving DecidableEq, Repr

def Outcome.exit (o : Outcome) : Nat := if o.error.isSome then 1 else 0

def Outcome.messages (o : Outcome) : Bytes :=
  match o.error with
  | some e => o.notice ++ "error: " ++ e.message ++ "\n"
  | none => o.notice

def run (args : List Bytes) : m Outcome := do
  match readArguments none [] .default args with
  | .error e => return ⟨[], [], some (.arguments e)⟩
  | .ok (.help about, o) => return ⟨helpText o about, [], none⟩
  | .ok (.nothing, o) =>
    match ← load host o.config with
    | .error e => return ⟨[], [], some (.load none e)⟩
    | .ok _ => return ⟨helpText o none, [], none⟩
  | .ok (.files command files, o) =>
    match ← load host o.config with
    | .error e => return ⟨[], [], some (.load (some command) e)⟩
    | .ok settings =>
      let printed ← perform host settings o files command
      return ⟨printed.stdout, printed.notice, printed.failure.map (.command command)⟩

end

end MiniC.CommandLine
