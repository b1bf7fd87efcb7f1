import MiniC.Code.Basic
import MiniC.Fault
import MiniC.Source.Tree

namespace MiniC.Code.OfSource

open Source (Position)

/-- Where in a source program the trouble is. -/
inductive Step
  | global (name : Name)
  | placedGlobal (pos : Position) (name : Name)
  | function (name : Name)
  | returned
  | whileCheck
  | ifCheck
  | arg (callee : Name) (index : Nat)
  | left (op : Source.BinOp)
  | right (op : Source.BinOp)
  deriving DecidableEq, Repr

def Step.text : Step → Bytes
  | .global name => "global " ++ name
  | .placedGlobal pos name => pos.text ++ ": global " ++ name
  | .function name => "func " ++ name
  | .returned => "return"
  | .whileCheck => "while check"
  | .ifCheck => "if check"
  | .arg callee index => "call " ++ callee ++ ": arg " ++ Bytes.ofNat index
  | .left op => op.text ++ " left"
  | .right op => op.text ++ " right"

/-- What has no counterpart in three-address code. -/
inductive Cause
  | intRange (pos : Position) (value : UInt64)
  | charRange (value : Int64)
  | mismatch (declared given : Ty)
  | stringGlobal (pos : Position) (name : Name)
  | stringVariable (pos : Position) (name : Name)
  | breakOutside (pos : Position)
  | continueOutside (pos : Position)
  | missingStmt
  | missingExpr
  | unaryOp (pos : Position) (op : Source.UnOp)
  | binaryOp (pos : Position) (op : Source.BinOp)
  deriving DecidableEq, Repr

def Cause.text : Cause → Bytes
  | .intRange pos value =>
    pos.text ++ ": integer literal " ++ Bytes.ofNat value.toNat ++ ": out of range"
  | .charRange value => "char initializer " ++ Bytes.ofInt value.toInt ++ ": out of range"
  | .mismatch declared given => declared.text ++ " initialized with " ++ given.text
  | .stringGlobal pos name =>
    pos.text ++ ": string global " ++ name ++ " declared without initializer"
  | .stringVariable pos name =>
    pos.text ++ ": string variable " ++ name ++ " declared without initializer"
  | .breakOutside pos => pos.text ++ ": break outside of loop"
  | .continueOutside pos => pos.text ++ ": continue outside of loop"
  | .missingStmt => "unsupported statement: <nil>"
  | .missingExpr => "unsupported expression: <nil>"
  | .unaryOp pos op => pos.text ++ ": unsupported unary op: " ++ op.text
  | .binaryOp pos op => pos.text ++ ": unsupported binary op: " ++ op.text

abbrev Error := Fault Step Cause

def Error.message (e : Error) : Bytes :=
  Fault.message Step.text Cause.text e

abbrev Lower := StateT Namer (Except Error)

def fresh (kind : Bytes) : Lower Name :=
  modifyGet fun names => names.fresh kind

def refuse {α : Type} (cause : Cause) : Lower α :=
  throw ⟨[], cause⟩

def inside {α : Type} (step : Step) (x : Lower α) : Lower α :=
  fun names => within step (x names)

/-- A type of the language; a number outside of the table counts as no type. -/
def knownTy : Ty → Ty
  | .unknown _ _ => .void
  | ty => ty

def constant (l : Source.Literal) : Except Error Value :=
  match l.value with
  | .int value =>
    if value.toNat < 0x8000000000000000 then .ok (.int value.toInt64) else fail (.intRange l.pos value)
  | .char value => .ok (.char value)
  | .str value => .ok (.str value)

/-- The code of an operation on two operands. Both orders that allow equality are told apart in
`OfSource.expr`. -/
def binOp? : Source.BinOp → Option BinOp
  | .add => some .add
  | .sub => some .sub
  | .mul => some .mul
  | .div => some .div
  | .mod => some .rem
  | .xor => some .bitXor
  | .and => some .bitAnd
  | .or => some .bitOr
  | .andAlso => some .logAnd
  | .orElse => some .logOr
  | .shiftRight => some .shiftRight
  | .shiftLeft => some .shiftLeft
  | .lt => some .lt
  | .gt => some .gt
  | .eq => some .eq
  | .ne => some .ne
  | .le | .ge | .unknown _ _ => none

/-- The name for the result of an operation: a generated operand is used again, a variable never. -/
def dest (operand : Name) : Lower Name :=
  if Name.isGenerated operand then pure operand else fresh Name.temporary

def unary (code : List Stmt) (op : UnOp) (arg : Name) : Lower (List Stmt × Name) := do
  let res ← dest arg
  pure (code ++ [.plain (.unary op res arg)], res)

def binary (code : List Stmt) (op : BinOp) (left right : Name) : Lower (List Stmt × Name) := do
  let res ← dest left
  pure (code ++ [.plain (.binary op res left right)], res)

def one (code : List Stmt) : Lower (List Stmt × Name) := do
  let res ← fresh Name.temporary
  pure (code ++ [.plain (.store res (some (.int 1)))], res)

def count (code : List Stmt) (op : BinOp) (var : Name) : Lower (List Stmt × Name) := do
  let (code, unit) ← one code
  pure (code ++ [.plain (.binary op var var unit)], var)

/-- Code that compares with a bound that is moved by one, so that the bound itself is included. A bound
at the end of the numbers wraps around. -/
def compareNext (code : List Stmt) (op step : BinOp) (left right : Name) :
    Lower (List Stmt × Name) := do
  let (code, unit) ← one code
  let (code, bound) ← binary code step right unit
  binary code op left bound

mutual

/-- The code that computes an expression, and the name that holds its value then. -/
def expr : Source.Expr → Lower (List Stmt × Name)
  | .missing => refuse .missingExpr
  | .var _ name => pure ([], name)
  | .literal l => do
    let value ← constant l
    let res ← fresh Name.temporary
    pure ([.plain (.store res (some value))], res)
  | .call _ callee xs => do
    let (code, names) ← args callee 0 xs
    let res ← fresh Name.temporary
    pure (code ++ [.plain (.call callee names res)], res)
  | .unary pos op x => do
    let (code, arg) ← expr x
    match op with
    | .not => unary code .logNeg arg
    | .invert => unary code .bitNeg arg
    | .negate => unary code .minus arg
    | .increment => count code .add arg
    | .decrement => count code .sub arg
    | .unknown _ _ => refuse (.unaryOp pos op)
  | .binary _ .le l r => do
    let (before, left) ← inside (.left .lt) (expr l)
    let (code, right) ← inside (.right .lt) (inside (.left .add) (expr r))
    compareNext (before ++ code) .lt .add left right
  | .binary _ .ge l r => do
    let (before, left) ← inside (.left .gt) (expr l)
    let (code, right) ← inside (.right .gt) (inside (.left .sub) (expr r))
    compareNext (before ++ code) .gt .sub left right
  | .binary pos op l r =>
    match binOp? op with
    | none => refuse (.binaryOp pos op)
    | some bop => do
      let (before, left) ← inside (.left op) (expr l)
      let (code, right) ← inside (.right op) (expr r)
      binary (before ++ code) bop left right

/-- The code that computes the arguments of a call from the one numbered `index` on, and their names. -/
def args (callee : Name) (index : Nat) : List Source.Expr → Lower (List Stmt × List Name)
  | [] => pure ([], [])
  | x :: xs => do
    let (before, name) ← inside (.arg callee index) (expr x)
    let (code, names) ← args callee (index + 1) xs
    pure (before ++ code, name :: names)

end

def assign (target : Name) (value : Source.Expr) : Lower (List Stmt) := do
  let (code, name) ← expr value
  pure (code ++ [.plain (.unary .copy target name)])

/-- Where a loop goes on and where it ends. -/
structure Loop where
  check : Name
  exit : Name

mutual

def stmt (loop : Option Loop) : Source.Stmt → Lower (List Stmt)
  | .missing => refuse .missingStmt
  | .assign _ target value => assign target value
  | .declare pos ty name .missing =>
    if ty = .string then refuse (.stringVariable pos name) else pure []
  | .declare _ _ name init => assign name init
  | .returnStmt _ .missing => pure [.plain (.ret [])]
  | .returnStmt _ value => do
    let res ← fresh Name.temporary
    let code ← inside .returned (assign res value)
    pure (code ++ [.plain (.ret res)])
  | .breakStmt pos =>
    match loop with
    | some l => pure [.plain (.jump l.exit)]
    | none => refuse (.breakOutside pos)
  | .continueStmt pos =>
    match loop with
    | some l => pure [.plain (.jump l.check)]
    | none => refuse (.continueOutside pos)
  | .whileStmt _ check body => do
    let start ← fresh Name.label
    let exit ← fresh Name.label
    let inner ← fresh Name.label
    let again ← fresh Name.label
    let flag ← fresh Name.temporary
    let test ← inside .whileCheck (assign flag check)
    let code ← stmts (some ⟨again, exit⟩) body
    pure ([.mark start, .mark again] ++ test ++ [.plain (.branch .zero flag exit), .mark inner] ++
      code ++ [.plain (.jump again), .mark exit])
  | .ifStmt _ check thenBody elseBody => do
    let flag ← fresh Name.temporary
    let other ← fresh Name.label
    let exit ← fresh Name.label
    let test ← inside .ifCheck (assign flag check)
    let thenCode ← stmts loop thenBody
    let elseCode ← stmts loop elseBody
    pure (test ++ [.plain (.branch .zero flag other)] ++ thenCode ++
      [.plain (.jump exit), .mark other] ++ elseCode ++ [.mark exit])
  | .exprStmt _ value => do
    let (code, _) ← expr value
    pure code

def stmts (loop : Option Loop) : List Source.Stmt → Lower (List Stmt)
  | [] => pure []
  | s :: ss => do
    let before ← stmt loop s
    let code ← stmts loop ss
    pure (before ++ code)

end

/-- A constant as the first value of a global: numbers and characters fit each other's type. -/
def convert (ty : Ty) (value : Value) : Except Error Value :=
  match ty, value with
  | .int, .char c => .ok (.int (Int64.ofNat c.toNat))
  | .char, .int n =>
    if 0 ≤ n ∧ n < 256 then .ok (.char n.toInt.toNat.toUInt8) else fail (.charRange n)
  | ty, value => if value.ty = ty then .ok value else fail (.mismatch ty value.ty)

def global (g : Source.Global) : Except Error Global :=
  match g.init with
  | none =>
    if g.ty = .string then fail (.stringGlobal g.pos g.name)
    else .ok ⟨g.name, knownTy g.ty, none⟩
  | some l => do
    let value ← constant l
    let init ← within (.placedGlobal g.pos g.name) (convert (knownTy g.ty) value)
    .ok ⟨g.name, knownTy g.ty, some init⟩

def param (p : Source.Param) : Param :=
  ⟨knownTy p.ty, p.name⟩

def function (f : Source.Function) : Lower Function := do
  let body ← if f.external then pure [] else stmts none f.body
  pure ⟨f.name, knownTy f.result, f.params.map param, f.external, body, none⟩

def functions : List Source.Function → Lower (List Function)
  | [] => pure []
  | f :: fs => do
    let first ← inside (.function f.name) (function f)
    let rest ← functions fs
    pure (first :: rest)

end OfSource

/-- The three-address code of a source program. Generated names are counted from the start. -/
def Program.ofSource (p : Source.Program) : Except OfSource.Error Program := do
  let globals ← p.globals.mapM fun g => within (.global g.name) (OfSource.global g)
  let (functions, names) ← OfSource.functions p.functions ⟨0⟩
  .ok ⟨names, globals, functions⟩

end MiniC.Code
