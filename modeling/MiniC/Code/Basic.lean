import MiniC.Code.Operator
import MiniC.Storage.Layout
import MiniC.Ty

namespace MiniC.Code

open Storage (Layout Location)

/-- A constant. A symbol is the string that the global of that name holds. -/
inductive Value
  | int (value : Int64)
  | char (value : UInt8)
  | str (value : Bytes)
  | symbol (name : Name)
  deriving DecidableEq, Repr

def Value.ty : Value → Ty
  | .int _ => .int
  | .char _ => .char
  | .str _ => .string
  | .symbol _ => .string

/-- What a statement does. The result of a call and the value of a return are empty names if there is
none. Moves between places are only made by storage assignment. -/
inductive Action
  | nop
  | store (dest : Name) (value : Option Value)
  | binary (op : BinOp) (dest left right : Name)
  | unary (op : UnOp) (dest arg : Name)
  | jump (target : Name)
  | branch (check : Check) (var target : Name)
  | call (callee : Name) (args : List Name) (result : Name)
  | ret (var : Name)
  | move (src dst : Location)
  deriving DecidableEq, Repr

/-- An action, and the label that jumps to it use; the label is empty if there is none. -/
structure Stmt where
  label : Name
  action : Action
  deriving DecidableEq, Repr

namespace Stmt

def plain (action : Action) : Stmt := ⟨[], action⟩

def mark (label : Name) : Stmt := ⟨label, .nop⟩

def withLabel (s : Stmt) (label : Name) : Stmt := { s with label }

end Stmt

structure Param where
  ty : Ty
  name : Name
  deriving DecidableEq, Repr

/-- A function; an external one is declared only. It has a layout once storage is assigned. -/
structure Function where
  name : Name
  result : Ty
  params : List Param
  external : Bool
  body : List Stmt
  layout : Option Layout
  deriving DecidableEq, Repr

def Function.exitLabel (f : Function) : Name :=
  "__exit_" ++ f.name

structure Global where
  name : Name
  ty : Ty
  init : Option Value
  deriving DecidableEq, Repr

structure Program where
  names : Namer
  globals : List Global
  functions : List Function
  deriving DecidableEq, Repr

namespace Program

def function? (p : Program) (name : Name) : Option Function :=
  p.functions.find? fun f => f.name = name

def global? (p : Program) (name : Name) : Option Global :=
  p.globals.find? fun g => g.name = name

end Program

end MiniC.Code
