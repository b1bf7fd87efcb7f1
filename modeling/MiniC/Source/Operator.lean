import MiniC.Bytes

namespace MiniC.Source

/-- The operators before or after one operand. -/
inductive UnOp
  | not
  | invert
  | negate
  | increment
  | decrement
  | unknown (code : Int64) (outside : ¬(0 ≤ code ∧ code < 5))
  deriving DecidableEq, Repr

namespace UnOp

def all : List UnOp :=
  [.not, .invert, .negate, .increment, .decrement]

def code : UnOp → Int64
  | .not => 0
  | .invert => 1
  | .negate => 2
  | .increment => 3
  | .decrement => 4
  | .unknown code _ => code

def ofCode (code : Int64) : UnOp :=
  if inside : 0 ≤ code ∧ code < 5 then
    match code.toInt.toNat with
    | 0 => .not
    | 1 => .invert
    | 2 => .negate
    | 3 => .increment
    | _ => .decrement
  else .unknown code inside

def text : UnOp → Bytes
  | .not => "!"
  | .invert => "~"
  | .negate => "-"
  | .increment => "++"
  | .decrement => "--"
  | .unknown _ _ => "uop?"

end UnOp

inductive BinOp
  | add
  | sub
  | mul
  | div
  | mod
  | xor
  | and
  | or
  | andAlso
  | orElse
  | shiftRight
  | shiftLeft
  | le
  | lt
  | ge
  | gt
  | eq
  | ne
  | unknown (code : Int64) (outside : ¬(0 ≤ code ∧ code < 18))
  deriving DecidableEq, Repr

namespace BinOp

def all : List BinOp :=
  [.add, .sub, .mul, .div, .mod, .xor, .and, .or, .andAlso, .orElse, .shiftRight, .shiftLeft,
    .le, .lt, .ge, .gt, .eq, .ne]

def code : BinOp → Int64
  | .add => 0
  | .sub => 1
  | .mul => 2
  | .div => 3
  | .mod => 4
  | .xor => 5
  | .and => 6
  | .or => 7
  | .andAlso => 8
  | .orElse => 9
  | .shiftRight => 10
  | .shiftLeft => 11
  | .le => 12
  | .lt => 13
  | .ge => 14
  | .gt => 15
  | .eq => 16
  | .ne => 17
  | .unknown code _ => code

def ofCode (code : Int64) : BinOp :=
  if inside : 0 ≤ code ∧ code < 18 then
    match code.toInt.toNat with
    | 0 => .add
    | 1 => .sub
    | 2 => .mul
    | 3 => .div
    | 4 => .mod
    | 5 => .xor
    | 6 => .and
    | 7 => .or
    | 8 => .andAlso
    | 9 => .orElse
    | 10 => .shiftRight
    | 11 => .shiftLeft
    | 12 => .le
    | 13 => .lt
    | 14 => .ge
    | 15 => .gt
    | 16 => .eq
    | _ => .ne
  else .unknown code inside

def text : BinOp → Bytes
  | .add => "+"
  | .sub => "-"
  | .mul => "*"
  | .div => "/"
  | .mod => "%"
  | .xor => "^"
  | .and => "&"
  | .or => "|"
  | .andAlso => "&&"
  | .orElse => "||"
  | .shiftRight => ">>"
  | .shiftLeft => "<<"
  | .le => "<="
  | .lt => "<"
  | .ge => ">="
  | .gt => ">"
  | .eq => "=="
  | .ne => "!="
  | .unknown _ _ => "bop?"

end BinOp

end MiniC.Source
