import MiniC.Source.Quoted
import MiniC.Source.Tree

namespace MiniC.Source.Printer

inductive Step
  | global (name : Name)
  | function (name : Name)
  | body
  | init (name : Name)
  | assigned
  | exprStmt
  | returned
  | condition
  | whileBody
  | thenBody
  | elseBody
  | arg (index : Nat)
  | operand
  | left
  | right
  deriving DecidableEq, Repr

def Step.text : Step → Bytes
  | .global name => "global " ++ name
  | .function name => "func " ++ name
  | .body => "body"
  | .init name => "init " ++ name
  | .assigned => "rhs"
  | .exprStmt => "expr"
  | .returned => "return"
  | .condition => "cond"
  | .whileBody => "while body"
  | .thenBody => "then block"
  | .elseBody => "else block"
  | .arg index => "arg " ++ Bytes.ofNat index
  | .operand => "operand"
  | .left => "left"
  | .right => "right"

inductive Cause
  | missingStmt
  | missingExpr
  deriving DecidableEq, Repr

def Cause.text : Cause → Bytes
  | .missingStmt => "unsupported stmt: <nil>"
  | .missingExpr => "unsupported expr: <nil>"

abbrev Error := Fault Step Cause

def Error.message (e : Error) : Bytes :=
  Fault.message Step.text Cause.text e

def constant : Constant → Bytes
  | .int value => Bytes.ofNat value.toNat
  | .char value => Quoted.write Ascii.apostrophe [value]
  | .str value => Quoted.write Ascii.quote value

def parenthesized (yes : Bool) (text : Bytes) : Bytes :=
  if yes then "(" ++ text ++ ")" else text

def isUnary : Expr → Bool
  | .unary .. => true
  | _ => false

mutual

/-- An expression; one that is nested in another is put in parentheses if it has two operands. -/
def expr (nested : Bool) : Expr → Except Error Bytes
  | .missing => fail .missingExpr
  | .var _ name => .ok name
  | .literal l => .ok (constant l.value)
  | .call _ name xs => do
    let texts ← args 0 xs
    .ok (name ++ "(" ++ List.intercalate ", " texts ++ ")")
  | .unary _ op x => do
    let text ← within .operand (expr true x)
    .ok (op.text ++ parenthesized (isUnary x) text)
  | .binary _ op l r => do
    let left ← within .left (expr true l)
    let right ← within .right (expr true r)
    .ok (parenthesized nested (left ++ " " ++ op.text ++ " " ++ right))

def args (index : Nat) : List Expr → Except Error (List Bytes)
  | [] => .ok []
  | x :: xs => do
    let text ← within (.arg index) (expr false x)
    let texts ← args (index + 1) xs
    .ok (text :: texts)

end

def tabs (depth : Nat) : Bytes :=
  List.replicate depth Ascii.tab

def line (depth : Nat) (text : Bytes) : Bytes :=
  tabs depth ++ text ++ [Ascii.newline]

mutual

def stmt (depth : Nat) : Stmt → Except Error Bytes
  | .missing => fail .missingStmt
  | .declare _ ty name .missing => .ok (line depth (ty.text ++ " " ++ name ++ ";"))
  | .declare _ ty name init => do
    let text ← within (.init name) (expr false init)
    .ok (line depth (ty.text ++ " " ++ name ++ " = " ++ text ++ ";"))
  | .assign _ target value => do
    let text ← within .assigned (expr false value)
    .ok (line depth (target ++ " = " ++ text ++ ";"))
  | .exprStmt _ value => do
    let text ← within .exprStmt (expr false value)
    .ok (line depth (text ++ ";"))
  | .returnStmt _ .missing => .ok (line depth "return;")
  | .returnStmt _ value => do
    let text ← within .returned (expr false value)
    .ok (line depth ("return " ++ text ++ ";"))
  | .breakStmt _ => .ok (line depth "break;")
  | .continueStmt _ => .ok (line depth "continue;")
  | .whileStmt _ check body => do
    let check ← within .condition (expr false check)
    let body ← within .whileBody (stmts (depth + 1) body)
    .ok (line depth ("while (" ++ check ++ ") \x7b") ++ body ++ line depth "\x7d")
  | .ifStmt _ check thenBody elseBody => do
    let check ← within .condition (expr false check)
    let thenText ← within .thenBody (stmts (depth + 1) thenBody)
    let elseText ← within .elseBody (stmts (depth + 1) elseBody)
    let elseText := if elseBody.isEmpty then [] else line depth "\x7d else \x7b" ++ elseText
    .ok (line depth ("if (" ++ check ++ ") \x7b") ++ thenText ++ elseText ++ line depth "\x7d")

def stmts (depth : Nat) : List Stmt → Except Error Bytes
  | [] => .ok []
  | s :: ss => do
    let text ← stmt depth s
    let texts ← stmts depth ss
    .ok (text ++ texts)

end

def param (p : Param) : Bytes :=
  p.ty.text ++ " " ++ p.name

def function (f : Function) : Except Error Bytes := do
  let head := f.result.text ++ " " ++ f.name ++ "(" ++
    List.intercalate ", " (f.params.map param) ++ ")"
  if f.external then .ok (line 0 (head ++ ";"))
  else
    let body ← within .body (stmts 1 f.body)
    .ok (line 0 (head ++ " \x7b") ++ body ++ line 0 "\x7d")

def global (g : Global) : Bytes :=
  match g.init with
  | none => line 0 (g.ty.text ++ " " ++ g.name ++ ";")
  | some l => line 0 (g.ty.text ++ " " ++ g.name ++ " = " ++ constant l.value ++ ";")

/-- The functions, with an empty line before each but one that starts the text. -/
def functions (first : Bool) : List Function → Except Error Bytes
  | [] => .ok []
  | f :: fs => do
    let text ← within (.function f.name) (function f)
    let texts ← functions false fs
    .ok ((if first then [] else [Ascii.newline]) ++ text ++ texts)

end Printer

def Program.format (p : Program) : Except Printer.Error Bytes := do
  let functions ← Printer.functions p.globals.isEmpty p.functions
  .ok (p.globals.flatMap Printer.global ++ functions)

end MiniC.Source
