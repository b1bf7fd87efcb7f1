import MiniC.Bytes

namespace MiniC.Code

inductive UnOp
  | minus
  | bitNeg
  | logNeg
  | copy
  | unknown (code : Int64) (outside : ¬(0 ≤ code ∧ code < 4))
  deriving DecidableEq, Repr

namespace UnOp

def all : List UnOp :=
  [.minus, .bitNeg, .logNeg, .copy]

def code : UnOp → Int64
  | .minus => 0
  | .bitNeg => 1
  | .logNeg => 2
  | .copy => 3
  | .unknown code _ => code

def ofCode (code : Int64) : UnOp :=
  if inside : 0 ≤ code ∧ code < 4 then
    match code.toInt.toNat with
    | 0 => .minus
    | 1 => .bitNeg
    | 2 => .logNeg
    | _ => .copy
  else .unknown code inside

theorem ofCode_code (x : UnOp) : ofCode x.code = x := by
  cases x with
  | unknown code outside => simp [ofCode, MiniC.Code.UnOp.code, outside]
  | _ => rfl

def text : UnOp → Bytes
  | .minus => "minus"
  | .bitNeg => "bit_neg"
  | .logNeg => "log_neg"
  | .copy => "copy"
  | .unknown _ _ => "uop?"

end UnOp

inductive BinOp
  | add
  | sub
  | mul
  | div
  | rem
  | lt
  | gt
  | eq
  | ne
  | bitAnd
  | bitOr
  | bitXor
  | shiftLeft
  | shiftRight
  | logAnd
  | logOr
  | unknown (code : Int64) (outside : ¬(0 ≤ code ∧ code < 16))
  deriving DecidableEq, Repr

namespace BinOp

def all : List BinOp :=
  [.add, .sub, .mul, .div, .rem, .lt, .gt, .eq, .ne, .bitAnd, .bitOr, .bitXor, .shiftLeft,
    .shiftRight, .logAnd, .logOr]

def code : BinOp → Int64
  | .add => 0
  | .sub => 1
  | .mul => 2
  | .div => 3
  | .rem => 4
  | .lt => 5
  | .gt => 6
  | .eq => 7
  | .ne => 8
  | .bitAnd => 9
  | .bitOr => 10
  | .bitXor => 11
  | .shiftLeft => 12
  | .shiftRight => 13
  | .logAnd => 14
  | .logOr => 15
  | .unknown code _ => code

def ofCode (code : Int64) : BinOp :=
  if inside : 0 ≤ code ∧ code < 16 then
    match code.toInt.toNat with
    | 0 => .add
    | 1 => .sub
    | 2 => .mul
    | 3 => .div
    | 4 => .rem
    | 5 => .lt
    | 6 => .gt
    | 7 => .eq
    | 8 => .ne
    | 9 => .bitAnd
    | 10 => .bitOr
    | 11 => .bitXor
    | 12 => .shiftLeft
    | 13 => .shiftRight
    | 14 => .logAnd
    | _ => .logOr
  else .unknown code inside

theorem ofCode_code (x : BinOp) : ofCode x.code = x := by
  cases x with
  | unknown code outside => simp [ofCode, MiniC.Code.BinOp.code, outside]
  | _ => rfl

def text : BinOp → Bytes
  | .add => "add"
  | .sub => "sub"
  | .mul => "mul"
  | .div => "div"
  | .rem => "rem"
  | .lt => "clt"
  | .gt => "cgt"
  | .eq => "ceq"
  | .ne => "cne"
  | .bitAnd => "bit_and"
  | .bitOr => "bit_or"
  | .bitXor => "bit_xor"
  | .shiftLeft => "bit_lsh"
  | .shiftRight => "bit_rsh"
  | .logAnd => "log_and"
  | .logOr => "log_or"
  | .unknown _ _ => "bop?"

end BinOp

inductive Check
  | zero
  | nonzero
  | unknown (code : Int64) (outside : ¬(0 ≤ code ∧ code < 2))
  deriving DecidableEq, Repr

namespace Check

def all : List Check :=
  [.zero, .nonzero]

def code : Check → Int64
  | .zero => 0
  | .nonzero => 1
  | .unknown code _ => code

def ofCode (code : Int64) : Check :=
  if inside : 0 ≤ code ∧ code < 2 then
    match code.toInt.toNat with
    | 0 => .zero
    | _ => .nonzero
  else .unknown code inside

theorem ofCode_code (x : Check) : ofCode x.code = x := by
  cases x with
  | unknown code outside => simp [ofCode, MiniC.Code.Check.code, outside]
  | _ => rfl

def text : Check → Bytes
  | .zero => "jz"
  | .nonzero => "jnz"
  | .unknown _ _ => "cjump?"

end Check

end MiniC.Code
