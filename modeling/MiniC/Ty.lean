import MiniC.Bytes

namespace MiniC

/-- The types of the language. A number outside of the table may come from a snapshot or a tree built by hand. -/
inductive Ty
  | void
  | int
  | char
  | string
  | unknown (code : Int64) (outside : ¬(0 ≤ code ∧ code ≤ 3))
  deriving DecidableEq, Repr

namespace Ty

def all : List Ty :=
  [.void, .int, .char, .string]

def code : Ty → Int64
  | .void => 0
  | .int => 1
  | .char => 2
  | .string => 3
  | .unknown code _ => code

def ofCode (code : Int64) : Ty :=
  if inside : 0 ≤ code ∧ code ≤ 3 then
    match code.toInt.toNat with
    | 0 => .void
    | 1 => .int
    | 2 => .char
    | _ => .string
  else .unknown code inside

theorem ofCode_code (x : Ty) : ofCode x.code = x := by
  cases x with
  | unknown code outside => simp [ofCode, MiniC.Ty.code, outside]
  | _ => rfl

def text : Ty → Bytes
  | .void => "void"
  | .int => "int"
  | .char => "char"
  | .string => "string"
  | .unknown _ _ => "type?"

def size : Ty → Int64
  | .void => 0
  | .char => 1
  | _ => 8

end Ty

end MiniC
