import MiniC.Name
import MiniC.Source.Operator
import MiniC.Source.Position
import MiniC.Ty

namespace MiniC.Source

inductive Constant
  | int (value : UInt64)
  | char (value : UInt8)
  | str (value : Bytes)
  deriving DecidableEq, Repr

structure Literal where
  pos : Position
  value : Constant
  deriving DecidableEq, Repr

inductive Expr
  | missing
  | var (pos : Position) (name : Name)
  | literal (l : Literal)
  | call (pos : Position) (name : Name) (args : List Expr)
  | unary (pos : Position) (op : UnOp) (operand : Expr)
  | binary (pos : Position) (op : BinOp) (left right : Expr)
  deriving Repr, Inhabited

/-- A statement. The initial value of a declaration and the value of a `return` may be `Expr.missing`,
which then means that there is none. -/
inductive Stmt
  | missing
  | assign (pos : Position) (target : Name) (value : Expr)
  | declare (pos : Position) (ty : Ty) (name : Name) (init : Expr)
  | returnStmt (pos : Position) (value : Expr)
  | breakStmt (pos : Position)
  | continueStmt (pos : Position)
  | whileStmt (pos : Position) (check : Expr) (body : List Stmt)
  | ifStmt (pos : Position) (check : Expr) (thenBody elseBody : List Stmt)
  | exprStmt (pos : Position) (value : Expr)
  deriving Repr, Inhabited

structure Global where
  pos : Position
  name : Name
  ty : Ty
  init : Option Literal
  deriving Repr

structure Param where
  ty : Ty
  name : Name
  deriving DecidableEq, Repr

/-- A function; an external one is declared only and has no body. -/
structure Function where
  pos : Position
  name : Name
  result : Ty
  params : List Param
  external : Bool
  body : List Stmt
  deriving Repr

structure Program where
  globals : List Global
  functions : List Function
  deriving Repr

end MiniC.Source
