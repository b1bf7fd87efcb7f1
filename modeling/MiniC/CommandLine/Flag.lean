import MiniC.Text.Numeral

namespace MiniC.CommandLine

inductive Command
  | parse
  | ir
  | compile
  | run
  deriving DecidableEq, Repr

namespace Command

def all : List Command := [.parse, .ir, .compile, .run]

def name : Command → Bytes
  | .parse => "parse"
  | .ir => "ir"
  | .compile => "compile"
  | .run => "run"

def description : Command → Bytes
  | .parse => "parse files and print them back formatted"
  | .ir => "print lowered intermediate representation"
  | .compile => "compile source (or .irpack) files into RV64 assembly"
  | .run => "compile file and run it under the emulator"

def ofName? (name : Bytes) : Option Command :=
  all.find? fun command => command.name = name

end Command

inductive Flag
  | config
  | verbosity
  | color
  | help
  | pack
  | output
  | jobs
  deriving DecidableEq, Repr

namespace Flag

def shared : List Flag := [.config, .verbosity, .color, .help]

def own : Command → List Flag
  | .ir => [.pack]
  | .compile => [.output, .jobs]
  | _ => []

def known : Option Command → List Flag
  | some command => own command ++ shared
  | none => shared

def names : Flag → List Bytes
  | .config => ["config", "c"]
  | .verbosity => ["verbosity", "v"]
  | .color => ["color"]
  | .help => ["help", "h"]
  | .pack => ["pack"]
  | .output => ["output", "o"]
  | .jobs => ["jobs", "j"]

def description : Flag → Bytes
  | .config => "TOML config file"
  | .verbosity => "logger verbosity topics (dump_ast, dump_ir, dump_hir, moves, frame)"
  | .color => "colored error output"
  | .help => "print command help end exit"
  | .pack => "write msgpack snapshot <file>.irpack instead of text"
  | .output => "output file, or directory for several inputs"
  | .jobs => "files compiled concurrently"

def usage : Flag → Bytes
  | .help => "=[hidden]"
  | _ => []

def takesNext : Flag → Bool
  | .config => true
  | .verbosity => true
  | .output => true
  | .jobs => true
  | _ => false

def ofName? (command : Option Command) (name : Bytes) : Option Flag :=
  (known command).find? fun flag => flag.names.contains name

end Flag

structure Options where
  config : Bytes
  verbosity : Bytes
  color : Bool
  pack : Bool
  output : Bytes
  jobs : Int64
  deriving DecidableEq, Repr

def Options.default : Options := ⟨[], [], true, false, [], 4⟩

inductive FlagError
  | unknown
  | noValue
  | notBool
  | notNumber (text : Bytes) (error : Numeral.Error)
  deriving DecidableEq, Repr

def FlagError.message : FlagError → Bytes
  | .unknown => "no such flag"
  | .noValue => "flag value is required"
  | .notBool => "not a bool value"
  | .notNumber text error =>
    "strconv.ParseInt: parsing " ++ Text.Quoted.double text ++ ": " ++ error.message

def readBool (text : Bytes) : Except FlagError Bool :=
  let word := text.map Ascii.lower
  let yes : List Bytes := ["", "true", "t", "yes", "y", "1"]
  let no : List Bytes := ["false", "f", "no", "n", "0"]
  if yes.contains word then .ok true
  else if no.contains word then .ok false
  else .error .notBool

def readInt (text : Bytes) : Except FlagError Int64 :=
  let read := match text with
    | 0x2d :: digits => do
      let n ← Numeral.readIn 10 0xffffffffffffffff digits
      if 0x8000000000000000 < n then .error .tooLarge else .ok (Int64.ofInt (-n))
    | 0x2b :: digits => do
      let n ← Numeral.readIn 10 0xffffffffffffffff digits
      if 0x8000000000000000 ≤ n then .error .tooLarge else .ok (Int64.ofNat n)
    | digits => do
      let n ← Numeral.readIn 10 0xffffffffffffffff digits
      if 0x8000000000000000 ≤ n then .error .tooLarge else .ok (Int64.ofNat n)
  read.mapError (.notNumber text)

def Options.set (o : Options) (text : Bytes) : Flag → Except FlagError Options
  | .config => .ok { o with config := text }
  | .verbosity => .ok { o with verbosity := text }
  | .color => (readBool text).map fun color => { o with color }
  | .help => .ok o
  | .pack => (readBool text).map fun pack => { o with pack }
  | .output => .ok { o with output := text }
  | .jobs => (readInt text).map fun jobs => { o with jobs }

def Options.text (o : Options) : Flag → Bytes
  | .config => o.config
  | .verbosity => o.verbosity
  | .color => if o.color then "true" else "false"
  | .help => []
  | .pack => if o.pack then "true" else "false"
  | .output => o.output
  | .jobs => Bytes.ofInt o.jobs.toInt

inductive Argument
  | flag (name : Bytes) (value : Option Bytes)
  | endOfFlags
  | word

def isNameEnd (c : UInt8) : Bool := c == 0x3d || c == Ascii.space

def flagArgument (text : Bytes) : Argument :=
  match text.dropWhile fun c => !isNameEnd c with
  | [] => .flag text none
  | _ :: value => .flag (text.takeWhile fun c => !isNameEnd c) (some value)

def Argument.ofText : Bytes → Argument
  | [0x2d] => .word
  | [0x2d, 0x2d] => .endOfFlags
  | 0x2d :: 0x2d :: text => flagArgument text
  | 0x2d :: text => flagArgument text
  | _ => .word

inductive Request
  | help (about : Option Command)
  | files (command : Command) (files : List Bytes)
  | nothing
  deriving DecidableEq, Repr

inductive ArgumentError
  | unexpected (argument : Bytes)
  | flag (command : Option Command) (argument : Bytes) (error : FlagError)
  deriving DecidableEq, Repr

def underCommand (command : Option Command) (message : Bytes) : Bytes :=
  match command with
  | some command => command.name ++ ": " ++ message
  | none => message

def ArgumentError.message : ArgumentError → Bytes
  | .unexpected argument => "no args expected, got " ++ argument
  | .flag command argument error =>
    underCommand command ("parse flag: " ++ argument ++ ": " ++ error.message)

/-- Reads arguments. `command` is the command if there was one, and `files` are the words after it.
Nothing after a flag that asks for help is read. -/
def readArguments (command : Option Command) (files : List Bytes) (o : Options) :
    List Bytes → Except ArgumentError (Request × Options)
  | [] =>
    match command with
    | some command => .ok (.files command files, o)
    | none => .ok (.nothing, o)
  | argument :: rest =>
    let refuse (e : FlagError) : ArgumentError := .flag command argument e
    match Argument.ofText argument, command with
    | .word, some _ => readArguments command (files ++ [argument]) o rest
    | .word, none =>
      match Command.ofName? argument with
      | some found => readArguments (some found) files o rest
      | none => .error (.unexpected argument)
    | .endOfFlags, some command => .ok (.files command (files ++ rest), o)
    | .endOfFlags, none => .error (.unexpected argument)
    | .flag name value, _ =>
      match Flag.ofName? command name with
      | none => .error (refuse .unknown)
      | some .help => .ok (.help command, o)
      | some flag =>
        match value with
        | some text => do
          let o ← (o.set text flag).mapError refuse
          readArguments command files o rest
        | none =>
          if flag.takesNext then
            match rest with
            | [] => .error (refuse .noValue)
            | text :: rest => do
              let o ← (o.set text flag).mapError refuse
              readArguments command files o rest
          else do
            let o ← (o.set [] flag).mapError refuse
            readArguments command files o rest

def listLine (name description : Bytes) : Bytes :=
  "    " ++ name ++ List.replicate (20 - name.length) Ascii.space ++ " - " ++ description ++ "\n"

def valueNote (value : Bytes) : Bytes :=
  if value.isEmpty then [] else " (default " ++ value ++ ")"

def flagLine (o : Options) (flag : Flag) : Bytes :=
  listLine (List.intercalate "," flag.names ++ flag.usage) (flag.description ++ valueNote (o.text flag))

def ownFlagsText (o : Options) (command : Command) : Bytes :=
  if (Flag.own command).isEmpty then []
  else "Flags\n" ++ (Flag.own command).flatMap (flagLine o) ++ "\n"

def helpText (o : Options) : Option Command → Bytes
  | none =>
    "crv [flags] - crv is a C-like language compiler for RISC-V 64\n\nSubcommands\n" ++
      Command.all.flatMap (fun c => listLine c.name c.description) ++
      "\nFlags\n" ++ Flag.shared.flatMap (flagLine o)
  | some command =>
    command.name ++ " [flags_and_args] - " ++ command.description ++ "\n\n" ++
      ownFlagsText o command ++
      "Flags of parent command crv\n" ++ Flag.shared.flatMap (flagLine o)

end MiniC.CommandLine
