import MiniC.Text.Numeral

namespace MiniC.Shell.Expression

inductive Error
  | expectingPrimary
  | expectingEnd
  | divisionByZero
  deriving DecidableEq, Repr

def Error.message : Error → Bytes
  | .expectingPrimary => "expecting primary"
  | .expectingEnd => "expecting EOF"
  | .divisionByZero => "division by zero"

def skipBlanks (input : Bytes) : Bytes :=
  input.dropWhile fun c => c == Ascii.space || c == Ascii.tab || c == Ascii.newline

def ofBool (b : Bool) : Int64 := if b then 1 else 0

abbrev Operation := Int64 → Int64 → Except Error Int64

def total (f : Int64 → Int64 → Int64) : Operation := fun a b => .ok (f a b)

def nonzero (f : Int64 → Int64 → Int64) : Operation := fun a b =>
  if b = 0 then .error .divisionByZero else .ok (f a b)

def levels : List (List (Bytes × Operation)) := [
  [("||", total fun a b => ofBool (a != 0 || b != 0))],
  [("&&", total fun a b => ofBool (a != 0 && b != 0))],
  [("|", total (· ||| ·))],
  [("^", total (· ^^^ ·))],
  [("&", total (· &&& ·))],
  [("==", total fun a b => ofBool (a == b)), ("!=", total fun a b => ofBool (a != b))],
  [("<=", total fun a b => ofBool (a ≤ b)), (">=", total fun a b => ofBool (b ≤ a)),
    ("<", total fun a b => ofBool (a < b)), (">", total fun a b => ofBool (b < a))],
  [("<<", total (· <<< ·)), (">>", total (· >>> ·))],
  [("+", total (· + ·)), ("-", total (· - ·))],
  [("*", total (· * ·)), ("/", nonzero (· / ·)), ("%", nonzero (· % ·))]]

def longer : List Bytes := ["||", "&&", "<<", ">>"]

def operator? (operators : List (Bytes × Operation)) (input : Bytes) : Option (Operation × Bytes) :=
  let here := longer.find? fun mark => mark.isPrefixOf input
  operators.findSome? fun (mark, operation) =>
    if mark.isPrefixOf input && (here.all fun long => long.length ≤ mark.length) then
      some (operation, input.drop mark.length)
    else none

def number (digits : Bytes) : Except Error Int64 :=
  match Numeral.read 0x7fffffffffffffff digits with
  | .ok n => .ok (Int64.ofNat n)
  | .error _ => .error .expectingPrimary

section

variable (lookUp : Bytes → Bytes)

def variableValue (name : Bytes) : Except Error Int64 :=
  match lookUp name with
  | [] => .ok 0
  | 0x2d :: digits => (number digits).map fun n => -n
  | digits => number digits

mutual

def value (fuel : Nat) (level : List (List (Bytes × Operation))) (input : Bytes) :
    Except Error (Int64 × Bytes) :=
  match fuel with
  | 0 => .error .expectingPrimary
  | fuel + 1 =>
    match level with
    | [] => primary fuel (skipBlanks input)
    | operators :: tighter => do
      let (first, rest) ← value fuel tighter input
      chain fuel operators tighter first rest

def chain (fuel : Nat) (operators : List (Bytes × Operation)) (tighter : List (List (Bytes × Operation)))
    (first : Int64) (input : Bytes) : Except Error (Int64 × Bytes) :=
  match fuel with
  | 0 => .error .expectingPrimary
  | fuel + 1 =>
    match operator? operators (skipBlanks input) with
    | none => .ok (first, input)
    | some (operation, rest) => do
      let (second, rest) ← value fuel tighter rest
      chain fuel operators tighter (← operation first second) rest

def primary (fuel : Nat) (input : Bytes) : Except Error (Int64 × Bytes) :=
  match fuel with
  | 0 => .error .expectingPrimary
  | fuel + 1 =>
    match input with
    | [] => .error .expectingPrimary
    | c :: rest =>
      let signed (f : Int64 → Int64) : Except Error (Int64 × Bytes) :=
        (primary fuel (skipBlanks rest)).map fun (n, left) => (f n, left)
      if c = 0x2d then signed (fun n => -n)
      else if c = 0x2b then signed id
      else if c = 0x21 then signed (fun n => ofBool (n == 0))
      else if c = 0x7e then signed (fun n => ~~~n)
      else if c = 0x28 then do
        let (n, left) ← value fuel levels rest
        match skipBlanks left with
        | 0x29 :: left => .ok (n, left)
        | _ => .error .expectingPrimary
      else if Ascii.isWord c then do
        let word := input.takeWhile Ascii.isWord
        let n ← if Ascii.isDigit c then number word else variableValue lookUp word
        .ok (n, input.dropWhile Ascii.isWord)
      else .error .expectingPrimary

end

def evaluate (text : Bytes) : Except Error Int64 :=
  if (skipBlanks text).isEmpty then .ok 0
  else do
    let (n, rest) ← value lookUp ((levels.length + 2) * (text.length + 2)) levels text
    if (skipBlanks rest).isEmpty then .ok n else .error .expectingEnd

end

end MiniC.Shell.Expression
