import MiniC.Assembly.OfProgram
import MiniC.Duration
import MiniC.Toml.Document

namespace MiniC

/-- How the emulator is run: the assembly is written to `file` in `dir`, and `command` is run there. -/
structure EmulatorSettings where
  command : List Bytes
  dir : Bytes
  file : Bytes
  timeout : Duration
  banner : Bytes
  deriving DecidableEq, Repr

structure Settings where
  startup : Assembly.Startup
  emulator : EmulatorSettings
  deriving DecidableEq, Repr

namespace Settings

def default : Settings where
  startup := .default
  emulator :=
    { command := ["make", "-s", "qemu"]
      dir := "."
      file := "kernel.s"
      timeout := ⟨1000000000⟩
      banner := "qemu-system-riscv64" }

inductive Error
  | decode
  | unknownKeys (paths : List Toml.Path)
  | emptyEntry
  | stackSize (size : Int64)
  | emptyCommand
  | timeout
  deriving DecidableEq, Repr

def Error.message : Error → Bytes
  | .decode => "decode"
  | .unknownKeys paths => "unknown keys: " ++ List.intercalate ", " (paths.map Toml.pathText)
  | .emptyEntry => "empty entry"
  | .stackSize size =>
    "stack_size must be a positive multiple of 16: " ++ Bytes.ofInt size.toInt
  | .emptyCommand => "empty emulator command"
  | .timeout => "emulator timeout must be positive"

inductive Field
  | entry
  | stackSize
  | emulator
  deriving DecidableEq, Repr

inductive EmulatorField
  | command
  | dir
  | file
  | timeout
  | banner
  deriving DecidableEq, Repr

def folded : Bytes → Bytes
  | 0xc5 :: 0xbf :: key => 0x73 :: folded key
  | 0xe2 :: 0x84 :: 0xaa :: key => 0x6b :: folded key
  | c :: key => Ascii.lower c :: folded key
  | [] => []

def field? (key : Toml.Key) : Option Field :=
  let fields : List (Bytes × Field) :=
    [("entry", .entry), ("stack_size", .stackSize), ("emulator", .emulator)]
  fields.lookup (folded key)

def emulatorField? (key : Toml.Key) : Option EmulatorField :=
  let fields : List (Bytes × EmulatorField) :=
    [("command", .command), ("dir", .dir), ("file", .file), ("timeout", .timeout), ("banner", .banner)]
  fields.lookup (folded key)

def isKnown : Toml.Path → Bool
  | [key] => (field? key).isSome
  | [table, key] => field? table = some .emulator && (emulatorField? key).isSome
  | _ => false

def string? : Toml.Value → Option Bytes
  | .scalar (.string text) => some text
  | _ => none

def strings? : Toml.Value → Option (List Bytes)
  | .array items => items.mapM string?
  | _ => none

def integer? : Toml.Value → Option Int64
  | .scalar (.integer n) => some n
  | _ => none

def duration? : Toml.Value → Option Duration
  | .scalar (.string text) => (Duration.ofText text).toOption
  | .scalar (.integer n) => (Duration.ofText (Bytes.ofInt n.toInt)).toOption
  | _ => none

def setEmulatorField (s : EmulatorSettings) (value : Toml.Value) :
    EmulatorField → Option EmulatorSettings
  | .command => (strings? value).map fun command => { s with command }
  | .dir => (string? value).map fun dir => { s with dir }
  | .file => (string? value).map fun file => { s with file }
  | .timeout => (duration? value).map fun timeout => { s with timeout }
  | .banner => (string? value).map fun banner => { s with banner }

def setEmulator (s : EmulatorSettings) : Toml.Table → Option EmulatorSettings
  | [] => some s
  | (key, value) :: table =>
    match emulatorField? key with
    | some field => do
      let s ← setEmulatorField s value field
      setEmulator s table
    | none => setEmulator s table

def table? : Toml.Value → Option Toml.Table
  | .table entries => some entries
  | _ => none

def setField (s : Settings) (value : Toml.Value) : Field → Option Settings
  | .entry => (string? value).map fun entry => { s with startup.entry := entry }
  | .stackSize => (integer? value).map fun size => { s with startup.stackSize := size }
  | .emulator => do
    let table ← table? value
    let emulator ← setEmulator s.emulator table
    some { s with emulator }

def set (s : Settings) : Toml.Table → Option Settings
  | [] => some s
  | (key, value) :: table =>
    match field? key with
    | some field => do
      let s ← setField s value field
      set s table
    | none => set s table

def check (s : Settings) : Except Error Settings :=
  if s.startup.entry.isEmpty then .error .emptyEntry
  else if s.startup.stackSize ≤ 0 ∨ s.startup.stackSize % 16 ≠ 0 then
    .error (.stackSize s.startup.stackSize)
  else if s.emulator.command.isEmpty then .error .emptyCommand
  else if s.emulator.timeout.nanoseconds ≤ 0 then .error .timeout
  else .ok s

def read (text : Bytes) : Except Error Settings :=
  match Toml.Document.read? text with
  | none => .error .decode
  | some document =>
    match set default document.root with
    | none => .error .decode
    | some settings =>
      let unknown := document.order.filter fun path => !isKnown path
      if unknown.isEmpty then check settings else .error (.unknownKeys unknown)

end Settings

end MiniC
