import MiniC.Code.Text
import MiniC.Fault

namespace MiniC.Assembly

open Code Storage

inductive Step
  | global (name : Name)
  | function (name : Name)
  | stmt (action : Action)
  | arg (index : Nat)
  deriving DecidableEq, Repr

def Step.text : Step → Bytes
  | .global name => "global " ++ name
  | .function name => "func " ++ name
  | .stmt action => action.summary
  | .arg index => "arg " ++ Bytes.ofNat index

inductive Cause
  | redeclaredFunction (name : Name)
  | reservedFunction (name : Name)
  | noEntry (name : Name)
  | redeclaredGlobal (name : Name)
  | globalIsFunction (name : Name)
  | reservedGlobal (name : Name)
  | initType (declared given : Ty)
  | noString
  | globalType (ty : Ty)
  | noLayout
  | frameSize (size : Int64)
  | tooManyParams (count : Nat)
  | unknownName (name : Name)
  | notInRegister (name : Name) (place : Location)
  | unsupportedMove (src dst : Location)
  | stackOffset (offset : Int64)
  | unsupportedValue (value : Option Value)
  | unsupportedBinary (op : BinOp)
  | unsupportedUnary (op : UnOp)
  | unsupportedJump (check : Check)
  | unknownFunction (name : Name)
  | argCount (name : Name) (params args : Nat)
  | tooManyArgs (name : Name) (count : Nat)
  deriving DecidableEq, Repr

def maxArgs : Nat := 8

def valueSort : Option Value → Bytes
  | none => "<nil>"
  | some (.int _) => "ir.Int"
  | some (.char _) => "ir.Char"
  | some (.str _) => "ir.String"
  | some (.symbol _) => "ir.Sym"

def tooMany (count : Nat) : Bytes :=
  Bytes.ofNat count ++ " > " ++ Bytes.ofNat maxArgs

def Cause.text : Cause → Bytes
  | .redeclaredFunction name => "redeclared function: " ++ name
  | .reservedFunction name => "function name is reserved: " ++ name
  | .noEntry name => "entry function not defined: " ++ name
  | .redeclaredGlobal name => "redeclared global: " ++ name
  | .globalIsFunction name => "global redeclares function: " ++ name
  | .reservedGlobal name => "global name is reserved: " ++ name
  | .initType declared given => declared.text ++ " global initialized with " ++ given.text
  | .noString => "string global without string initializer"
  | .globalType ty => "unsupported global type: " ++ ty.text
  | .noLayout => "storage is not assigned"
  | .frameSize size => "frame too large: " ++ Bytes.ofInt size.toInt
  | .tooManyParams count => "too many params: " ++ tooMany count
  | .unknownName name => "variable not found: " ++ name
  | .notInRegister name place =>
    "variable " ++ name ++ " not physically assigned to a register: " ++ place.text
  | .unsupportedMove src dst => "unsupported move: " ++ src.text ++ " -> " ++ dst.text
  | .stackOffset offset => "stack offset out of range: " ++ Bytes.ofInt offset.toInt
  | .unsupportedValue value => "unsupported value: " ++ valueSort value
  | .unsupportedBinary op => "unsupported binary op: " ++ op.text
  | .unsupportedUnary op => "unsupported unary op: " ++ op.text
  | .unsupportedJump check => "unsupported jump: " ++ check.text
  | .unknownFunction name => "undeclared function: " ++ name
  | .argCount name params args =>
    "function " ++ name ++ " takes " ++ Bytes.ofNat params ++ " args, got " ++ Bytes.ofNat args
  | .tooManyArgs name count => "function " ++ name ++ ": too many args: " ++ tooMany count

abbrev Error := Fault Step Cause

def Error.message (e : Error) : Bytes :=
  Fault.message Step.text Cause.text e

end MiniC.Assembly
