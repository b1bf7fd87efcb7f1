import MiniC.Text.Quoted

namespace MiniC.Numeral

inductive Error
  | malformed
  | tooLarge
  deriving DecidableEq, Repr

def Error.message : Error → Bytes
  | .malformed => "invalid syntax"
  | .tooLarge => "value out of range"

def digit? (c : UInt8) : Option Nat :=
  if Ascii.isDigit c then some (c.toNat - 0x30)
  else
    let c := Ascii.lower c
    if 0x61 ≤ c ∧ c ≤ 0x7a then some (c.toNat - 0x61 + 10) else none

/-- The value of the digits after a value `n`; a value above `most` is refused where it arises. -/
def digits (base most : Nat) (underscores : Bool) : Nat → Bytes → Except Error Nat
  | n, [] => .ok n
  | n, c :: text =>
    if underscores && c == Ascii.underscore then digits base most underscores n text
    else
      match digit? c with
      | none => .error .malformed
      | some d =>
        if base ≤ d then .error .malformed
        else if most < n * base + d then .error .tooLarge
        else digits base most underscores (n * base + d) text

def base : Bytes → Nat × Bytes
  | Ascii.zero :: c :: d :: text =>
    if Ascii.lower c = 0x62 then (2, d :: text)
    else if Ascii.lower c = 0x6f then (8, d :: text)
    else if Ascii.lower c = 0x78 then (16, d :: text)
    else (8, c :: d :: text)
  | Ascii.zero :: text => (8, text)
  | text => (10, text)

/-- What stands before a place in a numeral: a digit or the lead, an underscore, or neither. -/
inductive Before
  | digit
  | underscore
  | other
  deriving DecidableEq

def separated (isDigit : UInt8 → Bool) : Before → Bytes → Bool
  | before, [] => before != .underscore
  | before, c :: text =>
    if isDigit c then separated isDigit .digit text
    else if c == Ascii.underscore then before == .digit && separated isDigit .underscore text
    else before != .underscore && separated isDigit .other text

def isHexDigit (c : UInt8) : Bool :=
  Ascii.isDigit c || (0x61 ≤ Ascii.lower c && Ascii.lower c ≤ 0x66)

def underscoresPlaced : Bytes → Bool
  | Ascii.zero :: c :: text =>
    if Ascii.lower c = 0x78 then separated isHexDigit .digit text
    else if Ascii.lower c = 0x62 ∨ Ascii.lower c = 0x6f then separated Ascii.isDigit .digit text
    else separated Ascii.isDigit .other (Ascii.zero :: c :: text)
  | text => separated Ascii.isDigit .other text

def read (most : Nat) (text : Bytes) : Except Error Nat :=
  if text.isEmpty then .error .malformed
  else do
    let (base, body) := base text
    let n ← digits base most true 0 body
    if text.contains Ascii.underscore && !underscoresPlaced text then .error .malformed
    else .ok n

def readIn (base most : Nat) (text : Bytes) : Except Error Nat :=
  if text.isEmpty then .error .malformed else digits base most false 0 text

def Error.unsignedMessage (text : Bytes) (e : Error) : Bytes :=
  "strconv.ParseUint: parsing " ++ Text.Quoted.double text ++ ": " ++ e.message

end MiniC.Numeral
