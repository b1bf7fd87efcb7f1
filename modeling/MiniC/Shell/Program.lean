import MiniC.Emulator.Result
import MiniC.Files.Host
import MiniC.Shell.Format

namespace MiniC.Shell

section

variable {m : Type → Type} [Monad m] (disk : FileSystem m) (dir : Bytes)

def inDirectory (path : Bytes) : Bytes :=
  if path.isEmpty || Path.isAbsolute path || dir.isEmpty then path else dir ++ Path.slash :: path

def faultText : FileFault → Bytes
  | .notFound => "No such file or directory"
  | .notDirectory => "Not a directory"
  | .isDirectory => "Is a directory"
  | .alreadyThere => "File exists"
  | .nameTooLong => "File name too long"
  | .invalid => "Invalid argument"
  | .other text => text

def content (stdin path : Bytes) : m (Except FileFault Bytes) := do
  if path = "-" then return .ok stdin
  match ← disk.read (inDirectory dir path) with
  | .ok content => return .ok content
  | .error e => return .error e.fault

def cat (stdin : Bytes) : List Bytes → m Output
  | [] => return .quiet 0
  | path :: paths => do
    let here ← content disk dir stdin path
    let rest ← cat stdin paths
    match here with
    | .ok text => return { rest with out := text ++ rest.out }
    | .error fault =>
      return { rest with err := "cat: " ++ path ++ ": " ++ faultText fault ++ "\n" ++ rest.err, status := 1 }

/-- What part of a text is asked for: so many lines or bytes from one of its ends. -/
structure Extent where
  bytes : Bool
  count : Nat
  starts : Bool
  deriving DecidableEq, Repr

def Extent.ofCount (bytes : Bool) : Bytes → Extent
  | 0x2b :: digits => ⟨bytes, (number? digits).getD 0, true⟩
  | 0x2d :: digits => ⟨bytes, (number? digits).getD 0, false⟩
  | digits => ⟨bytes, (number? digits).getD 0, false⟩

def extentArgs : List Bytes → Extent × List Bytes
  | [0x2d, 0x6e] :: count :: files => (.ofCount false count, files)
  | [0x2d, 0x63] :: count :: files => (.ofCount true count, files)
  | (0x2d :: 0x6e :: count) :: files => (.ofCount false count, files)
  | (0x2d :: 0x63 :: count) :: files => (.ofCount true count, files)
  | (0x2d :: d :: count) :: files =>
    if Ascii.isDigit d then (.ofCount false (d :: count), files)
    else (⟨false, 10, false⟩, (0x2d :: d :: count) :: files)
  | files => (⟨false, 10, false⟩, files)

def Extent.ofHead (e : Extent) (text : Bytes) : Bytes :=
  if e.bytes then text.take e.count else ((Emulator.lines text).take e.count).flatten

def Extent.ofTail (e : Extent) (text : Bytes) : Bytes :=
  let units := if e.bytes then text.map fun c => [c] else Emulator.lines text
  (units.drop (if e.starts then e.count - 1 else units.length - e.count)).flatten

def excerpt (name : Bytes) (cut : Extent → Bytes → Bytes) (stdin : Bytes) (args : List Bytes) :
    m Output := do
  let (extent, files) := extentArgs args
  let path := files.headD "-"
  match ← content disk dir stdin path with
  | .ok text => return .written (cut extent text)
  | .error fault =>
    return .refused (name ++ ": cannot open '" ++ path ++ "' for reading: " ++ faultText fault ++ "\n") 1

def wordCount (text : Bytes) : Nat :=
  let isBreak (c : UInt8) : Bool := c == Ascii.space || (Ascii.tab ≤ c && c ≤ Ascii.carriageReturn)
  let starts := text.zip (Ascii.space :: text)
  (starts.filter fun (c, before) => !isBreak c && isBreak before).length

/-- Counts the lines, words and bytes of the first file, or of the input if there are no files. Several
counts stand in columns. -/
def count (stdin : Bytes) (args : List Bytes) : m Output := do
  let isOption (arg : Bytes) : Bool := arg.head? = some 0x2d && 1 < arg.length
  let options := (args.filter isOption).flatten
  let files := args.filter fun arg => !isOption arg
  let path := files.headD "-"
  match ← content disk dir stdin path with
  | .error fault => return .refused ("wc: " ++ path ++ ": " ++ faultText fault ++ "\n") 1
  | .ok text =>
    let all := !(options.contains 0x6c || options.contains 0x77 || options.contains 0x63)
    let counts :=
      (if all || options.contains 0x6c then [text.count Ascii.newline] else []) ++
      (if all || options.contains 0x77 then [wordCount text] else []) ++
      (if all || options.contains 0x63 then [text.length] else [])
    let width := if counts.length = 1 then 1 else if files.isEmpty then 7 else (Bytes.ofNat text.length).length
    let column (n : Nat) : Bytes := Shape.pad ⟨false, false, false, width, none⟩ (Bytes.ofNat n)
    let label : Bytes := if files.isEmpty then [] else " " ++ path
    return .written (spaced (counts.map column) ++ label ++ "\n")

/-- The nanoseconds that a program is asked to wait: a decimal number with a unit, which is the second if
none is given. -/
def waitTime (arg : Bytes) : Nat :=
  let whole := arg.takeWhile Ascii.isDigit
  let rest := arg.dropWhile Ascii.isDigit
  let (part, unit) := match rest with
    | 0x2e :: rest => (rest.takeWhile Ascii.isDigit, rest.dropWhile Ascii.isDigit)
    | rest => ([], rest)
  let second := 1000000000
  let scale :=
    if unit = "m" then 60 * second
    else if unit = "h" then 3600 * second
    else if unit = "d" then 86400 * second
    else second
  (number? whole).getD 0 * scale + (number? part).getD 0 * scale / Nat.pow 10 part.length

def isDirectory (path : Bytes) : m Bool := do
  match ← disk.read (inDirectory dir path) with
  | .ok _ => return false
  | .error e => return e.fault = .isDirectory

abbrev Finding := Except Bytes Bool

def compareNumbers (a b : Bytes) (f : Int → Int → Bool) : Finding :=
  match numeric? a, numeric? b with
  | some x, some y => .ok (f x y)
  | none, _ => .error ("Illegal number: " ++ a)
  | _, none => .error ("Illegal number: " ++ b)

def testTwo (a operator b : Bytes) : Finding :=
  if operator = "=" then .ok (a == b)
  else if operator = "!=" then .ok (a != b)
  else if operator = "-eq" then compareNumbers a b (· == ·)
  else if operator = "-ne" then compareNumbers a b (· != ·)
  else if operator = "-lt" then compareNumbers a b (· < ·)
  else if operator = "-le" then compareNumbers a b (· ≤ ·)
  else if operator = "-gt" then compareNumbers a b (· > ·)
  else if operator = "-ge" then compareNumbers a b (· ≥ ·)
  else .error (a ++ ": unexpected operator")

def test : List Bytes → m Finding
  | [] => return .ok false
  | [value] => return .ok !value.isEmpty
  | [0x21] :: args => do return (← test args).map (!·)
  | [option, value] =>
    if option = "-e" ∨ option = "-r" then do return .ok (← disk.isThere (inDirectory dir value))
    else if option = "-f" then do
      let there ← disk.isThere (inDirectory dir value)
      return .ok (there && !(← isDirectory disk dir value))
    else if option = "-d" then do return .ok (← isDirectory disk dir value)
    else if option = "-s" then do
      match ← disk.read (inDirectory dir value) with
      | .ok content => return .ok !content.isEmpty
      | .error e => return .ok (e.fault = .isDirectory)
    else if option = "-z" then return .ok value.isEmpty
    else if option = "-n" then return .ok !value.isEmpty
    else return .error (option ++ ": unexpected operator")
  | [a, operator, b] => return testTwo a operator b
  | _ => return .error "too many arguments"

def verdict (about : Bytes) : Finding → Output
  | .ok b => .quiet (if b then 0 else 1)
  | .error message => .refused (about ++ message ++ "\n") 2

def bracketed (about : Bytes) (args : List Bytes) : m Output := do
  if args.getLast? = some "]" then return verdict about (← test disk dir args.dropLast)
  else return .refused (about ++ "missing ]\n") 2

def sleep (args : List Bytes) : Output :=
  let hint : Bytes := "\nTry 'sleep --help' for more information.\n"
  match args.find? fun arg => !((arg.head?.map fun c => Ascii.isDigit c || c == 0x2e).getD false) with
  | some arg => .refused ("sleep: invalid time interval '" ++ arg ++ "'" ++ hint) 1
  | none =>
    if args.isEmpty then .refused ("sleep: missing operand" ++ hint) 1
    else { Output.quiet 0 with waits := args.foldl (fun n arg => n + waitTime arg) 0 }

def programs : List Bytes :=
  ["true", "false", "echo", "printf", "seq", "cat", "head", "tail", "wc", "sleep", "test", "[", "sh"]

/-- Runs a program other than the shell. There is none with another name. `about` starts the messages of
those that the shell has for its own. -/
def runProgram (about name : Bytes) (args : List Bytes) (stdin : Bytes) : m (Option Output) := do
  let about := about ++ name ++ ": "
  if name = "true" then return some (.quiet 0)
  else if name = "false" then return some (.quiet 1)
  else if name = "echo" then return some (echo false args)
  else if name = "printf" then return some (printf about args)
  else if name = "seq" then return some (seq args)
  else if name = "cat" then return some (← cat disk dir stdin (if args.isEmpty then ["-"] else args))
  else if name = "head" then return some (← excerpt disk dir name Extent.ofHead stdin args)
  else if name = "tail" then return some (← excerpt disk dir name Extent.ofTail stdin args)
  else if name = "wc" then return some (← count disk dir stdin args)
  else if name = "sleep" then return some (sleep args)
  else if name = "test" then return some (verdict about (← test disk dir args))
  else if name = "[" then return some (← bracketed disk dir about args)
  else return none

end

end MiniC.Shell
