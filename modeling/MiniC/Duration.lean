import MiniC.Bytes

namespace MiniC

structure Duration where
  nanoseconds : Int64
  deriving DecidableEq, Repr

namespace Duration

def second : Nat := 1000000000

/-- The units and how many nanoseconds they take. The micro sign is written as either of two letters. -/
def units : List (Bytes × Nat) :=
  [("ns", 1), ("us", 1000), ("µs", 1000), ("μs", 1000), ("ms", 1000000), ("s", second),
    ("m", 60 * second), ("h", 3600 * second)]

def fraction (places n : Nat) : Bytes :=
  let digits := (Bytes.ofNat (Nat.pow 10 places + n % Nat.pow 10 places)).drop 1
  let shown := (digits.reverse.dropWhile (· == Ascii.zero)).reverse
  if shown.isEmpty then [] else "." ++ shown

def decimal (places n : Nat) : Bytes :=
  Bytes.ofNat (n / Nat.pow 10 places) ++ fraction places n

def longText (n : Nat) : Bytes :=
  let minutes := n / (60 * second)
  let seconds := decimal 9 (n % (60 * second)) ++ "s"
  if minutes = 0 then seconds
  else if minutes < 60 then Bytes.ofNat minutes ++ "m" ++ seconds
  else Bytes.ofNat (minutes / 60) ++ "h" ++ Bytes.ofNat (minutes % 60) ++ "m" ++ seconds

def magnitudeText (n : Nat) : Bytes :=
  if n = 0 then "0s"
  else if n < 1000 then Bytes.ofNat n ++ "ns"
  else if n < 1000000 then decimal 3 n ++ "µs"
  else if n < second then decimal 6 n ++ "ms"
  else longText n

def text (d : Duration) : Bytes :=
  if d.nanoseconds < 0 then "-" ++ magnitudeText d.nanoseconds.toInt.natAbs
  else magnitudeText d.nanoseconds.toInt.natAbs

inductive Cause
  | invalid
  | missingUnit
  | unknownUnit (unit : Bytes)
  deriving DecidableEq, Repr

structure Error where
  text : Bytes
  cause : Cause
  deriving DecidableEq, Repr

def quoteByte (c : UInt8) : Bytes :=
  if c < 0x20 ∨ 0x80 ≤ c then "\\x" ++ Bytes.hex 2 c.toNat
  else if c = Ascii.quote ∨ c = Ascii.backslash then [Ascii.backslash, c]
  else [c]

def quote (s : Bytes) : Bytes :=
  "\"" ++ s.flatMap quoteByte ++ "\""

def Error.message (e : Error) : Bytes :=
  match e.cause with
  | .invalid => "duration: time: invalid duration " ++ quote e.text
  | .missingUnit => "duration: time: missing unit in duration " ++ quote e.text
  | .unknownUnit unit =>
    "duration: time: unknown unit " ++ quote unit ++ " in duration " ++ quote e.text

def limit : Nat := 0x8000000000000000

def digit (c : UInt8) : Nat := c.toNat - 0x30

def whole (digits : Bytes) : Option Nat :=
  digits.foldlM (fun n c => if limit < n * 10 + digit c then none else some (n * 10 + digit c)) 0

/-- The value of digits after a point as a quotient. Digits after one that is too many are dropped.
Zeros in front are never too many, so the divisor is a floating point number. -/
def quotient (n : Nat) (scale : Float) : Bytes → Nat × Float
  | [] => (n, scale)
  | c :: digits =>
    if limit < n * 10 + digit c then (n, scale) else quotient (n * 10 + digit c) (scale * 10) digits

def partOfUnit (n : Nat) (scale : Float) (unit : Nat) : Nat :=
  if n = 0 then 0
  else (n.toUInt64.toFloat * (unit.toUInt64.toFloat / scale)).toUInt64.toNat

def readPart (input : Bytes) : Except Cause (Nat × Bytes) :=
  let before := input.takeWhile Ascii.isDigit
  let rest := input.dropWhile Ascii.isDigit
  let (after, rest) := match rest with
    | 0x2e :: rest => (rest.takeWhile Ascii.isDigit, rest.dropWhile Ascii.isDigit)
    | _ => ([], rest)
  match whole before with
  | none => .error .invalid
  | some n =>
    if before.isEmpty ∧ after.isEmpty then .error .invalid
    else
      let isUnit (c : UInt8) := !(c == 0x2e || Ascii.isDigit c)
      let unit := rest.takeWhile isUnit
      if unit.isEmpty then .error .missingUnit
      else
        match units.lookup unit with
        | none => .error (.unknownUnit unit)
        | some size =>
          let (part, scale) := quotient 0 1 after
          let total := n * size + partOfUnit part scale size
          if limit / size < n ∨ limit < total then .error .invalid
          else .ok (total, rest.dropWhile isUnit)

/-- The sum of the parts of a text, each read from where the last one ended. There are no more parts
than bytes. -/
def readParts : (fuel : Nat) → Nat → Bytes → Except Cause Nat
  | _, sum, [] => .ok sum
  | 0, _, _ => .error .invalid
  | fuel + 1, sum, input => do
    let (n, rest) ← readPart input
    if limit < sum + n then .error .invalid else readParts fuel (sum + n) rest

def readMagnitude (input : Bytes) : Except Cause Nat :=
  if input = [Ascii.zero] then .ok 0
  else if input.isEmpty then .error .invalid
  else readParts input.length 0 input

def readPositive (input : Bytes) : Except Cause Duration := do
  let n ← readMagnitude input
  if limit ≤ n then .error .invalid else .ok ⟨Int64.ofNat n⟩

def readNegative (input : Bytes) : Except Cause Duration := do
  let n ← readMagnitude input
  .ok ⟨Int64.ofInt (-n)⟩

def ofText (text : Bytes) : Except Error Duration :=
  let read := match text with
    | 0x2d :: rest => readNegative rest
    | 0x2b :: rest => readPositive rest
    | rest => readPositive rest
  read.mapError fun cause => ⟨text, cause⟩

end Duration

end MiniC
