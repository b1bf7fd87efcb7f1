import MiniC.Source.Error

/-!
The routines of a parser by recursive descent. The body of each is a run that calls others. What a run comes to is
a least fixed point, so that a run that never ended would come to nothing at all.
-/

namespace MiniC.Source

structure Placed where
  lexeme : Lexeme
  pos : Position
  deriving DecidableEq, Repr

/-- The lexemes of a text, and the end of the file behind them. -/
structure Tokens where
  lexemes : Array Placed
  eof : Position

namespace Parser

def keywords : List Bytes :=
  ["if", "else", "while", "break", "continue", "return"]

def type? (name : Name) : Option Ty :=
  Ty.all.find? fun ty => ty.text = name

def unary? : Punct → Option UnOp
  | .bang => some .not
  | .tilde => some .invert
  | .minus => some .negate
  | .increment => some .increment
  | .decrement => some .decrement
  | _ => none

/-- The operator between two operands that a mark stands for, and how tightly it binds. -/
def binary? : Punct → Option (BinOp × Nat)
  | .orElse => some (.orElse, 0)
  | .andAlso => some (.andAlso, 1)
  | .bar => some (.or, 2)
  | .caret => some (.xor, 3)
  | .ampersand => some (.and, 4)
  | .eq => some (.eq, 5)
  | .ne => some (.ne, 5)
  | .less => some (.lt, 6)
  | .le => some (.le, 6)
  | .greater => some (.gt, 6)
  | .ge => some (.ge, 6)
  | .shiftLeft => some (.shiftLeft, 7)
  | .shiftRight => some (.shiftRight, 7)
  | .plus => some (.add, 8)
  | .minus => some (.sub, 8)
  | .star => some (.mul, 9)
  | .slash => some (.div, 9)
  | .percent => some (.mod, 9)
  | _ => none

def counting? : Punct → Option UnOp
  | .increment => some .increment
  | .decrement => some .decrement
  | _ => none

/-- A declaration at the top of a program. -/
inductive Decl
  | global (g : Global)
  | function (f : Function)

/-- The routines of the parser, by what they return. A loop is a routine that calls itself for each further turn, with
what it has read so far. -/
inductive Routine : Type → Type
  | type : Routine Ty
  | ident : Routine Name
  | literal : Routine Literal
  | primary : Routine Expr
  | arguments (before : List Expr) : Routine (List Expr)
  | postfixed : Routine Expr
  | counters (operand : Expr) : Routine Expr
  | unary : Routine Expr
  | binary (level : Fin 11) : Routine Expr
  | operators (level : Fin 10) (left : Expr) : Routine Expr
  | expr : Routine Expr
  | condition : Routine Expr
  | exprStmt : Routine (List Stmt)
  | stmt : Routine (List Stmt)
  | stmts (before : List Stmt) : Routine (List Stmt)
  | block : Routine (List Stmt)
  | params (before : List Param) : Routine (List Param)
  | decl : Routine Decl
  | decls (before : List Decl) : Routine (List Decl)

/-- What is left of a run: its end and the number of the token there, or a call at some token and how to go on. -/
inductive Run (α : Type) : Type 1
  | ends (outcome : Except SyntaxError (α × Nat))
  | calls {β : Type} (routine : Routine β) (index : Nat) (next : β → Nat → Run α)

namespace Run

def bind {α β : Type} (f : α → Nat → Run β) : Run α → Run β
  | .ends (.ok (a, i)) => f a i
  | .ends (.error e) => .ends (.error e)
  | .calls r i next => .calls r i fun b j => bind f (next b j)

end Run

end Parser

def Parser (α : Type) : Type 1 := Tokens → Nat → Parser.Run α

namespace Parser

instance : Monad Parser where
  pure a := fun _ i => .ends (.ok (a, i))
  bind x f := fun ts i => (x ts i).bind fun a j => f a ts j

/-- The token so many behind the next one, and its place. Behind the end of the file there is the end of the file. -/
def peekAt (distance : Nat) : Parser (Option Lexeme × Position) := fun ts i =>
  match ts.lexemes[i + distance]? with
  | some t => .ends (.ok ((some t.lexeme, t.pos), i))
  | none => .ends (.ok ((none, ts.eof), i))

def peek : Parser (Option Lexeme × Position) :=
  peekAt 0

def advance : Parser Unit := fun _ i =>
  .ends (.ok ((), i + 1))

def fail {α : Type} (pos : Position) (fault : SyntaxFault) : Parser α := fun _ _ =>
  .ends (.error ⟨pos, fault⟩)

def call {α : Type} (r : Routine α) : Parser α := fun _ i =>
  .calls r i fun a j => .ends (.ok (a, j))

def accept (l : Lexeme) : Parser Bool := do
  let (t, _) ← peek
  if t = some l then
    advance
    return true
  else return false

def unexpected {α : Type} (want : Wanted) : Parser α := do
  let (t, pos) ← peek
  fail pos (.expected want t)

def expect (p : Punct) : Parser Unit := do
  if ← accept (.punct p) then return () else unexpected (.punct p)

/-- An operator applied to its operand: only a variable can be counted up or down. -/
def applyUnary (pos : Position) (op : UnOp) (operand : Expr) : Parser Expr :=
  match op, operand with
  | .increment, .var .. | .decrement, .var .. => return .unary pos op operand
  | .increment, _ | .decrement, _ => fail pos (.needsVariable op)
  | _, _ => return .unary pos op operand

/-- The comma before a parameter or an argument that is not the first. -/
def separator {α : Type} (before : List α) : Parser Unit :=
  if before.isEmpty then return () else expect .comma

namespace Routine

def typeBody : Parser Ty := do
  match ← peek with
  | (some (.ident name), _) =>
    match type? name with
    | some ty =>
      advance
      return ty
    | none => unexpected .type
  | _ => unexpected .type

def identBody : Parser Name := do
  match ← peek with
  | (some (.ident name), pos) =>
    if keywords.contains name || (type? name).isSome then unexpected .identifier
    else if Name.isGenerated name then fail pos (.reservedName name)
    else
      advance
      return name
  | _ => unexpected .identifier

def literalBody : Parser Literal := do
  match ← peek with
  | (some (.int numeral), pos) =>
    match Numeral.read 0xffffffffffffffff numeral with
    | .ok n =>
      advance
      return ⟨pos, .int n.toUInt64⟩
    | .error e => fail pos (.badInteger numeral e)
  | (some (.char value), pos) =>
    advance
    return ⟨pos, .char value⟩
  | (some (.str value), pos) =>
    advance
    return ⟨pos, .str value⟩
  | _ => unexpected .literal

def primaryBody : Parser Expr := do
  match ← peek with
  | (some (.int _), _) | (some (.char _), _) | (some (.str _), _) => return .literal (← call .literal)
  | (some (.ident _), pos) =>
    let name ← call .ident
    if ← accept (.punct .openParen) then return .call pos name (← call (.arguments []))
    else return .var pos name
  | (some (.punct .openParen), _) => call .condition
  | _ => unexpected .expression

def argumentsBody (before : List Expr) : Parser (List Expr) := do
  if ← accept (.punct .closeParen) then return before
  else
    separator before
    let x ← call .expr
    call (.arguments (before ++ [x]))

def postfixedBody : Parser Expr := do
  let x ← call .primary
  call (.counters x)

def countersBody (operand : Expr) : Parser Expr := do
  match ← peek with
  | (some (.punct p), pos) =>
    match counting? p with
    | some op =>
      let x ← applyUnary pos op operand
      advance
      call (.counters x)
    | none => return operand
  | _ => return operand

def unaryBody : Parser Expr := do
  match ← peek with
  | (some (.punct p), pos) =>
    match unary? p with
    | some op =>
      advance
      let x ← call .unary
      applyUnary pos op x
    | none => call .postfixed
  | _ => call .postfixed

/-- Operands of the operators of a level are expressions of tighter ones. -/
def binaryBody (level : Fin 11) : Parser Expr := do
  if below : level.val < 10 then
    let x ← call (.binary ⟨level + 1, by omega⟩)
    call (.operators ⟨level, below⟩ x)
  else call .unary

def operatorsBody (level : Fin 10) (left : Expr) : Parser Expr := do
  match ← peek with
  | (some (.punct p), pos) =>
    match binary? p with
    | some (op, own) =>
      if own = level.val then
        advance
        let right ← call (.binary level.succ)
        call (.operators level (.binary pos op left right))
      else return left
    | none => return left
  | _ => return left

def conditionBody : Parser Expr := do
  expect .openParen
  let x ← call .expr
  expect .closeParen
  return x

def exprStmtBody : Parser (List Stmt) := do
  let (_, pos) ← peek
  let x ← call .expr
  expect .semicolon
  return [.exprStmt pos x]

/-- The rest of a declaration of a local variable, after its type. -/
def declarationBody (pos : Position) (ty : Ty) : Parser (List Stmt) := do
  let name ← call .ident
  if ty = .void then fail pos (.voidVariable name)
  else if ← accept (.punct .assign) then
    let init ← call .expr
    expect .semicolon
    return [.declare pos ty name init]
  else if ty = .string then fail pos (.stringVariable name)
  else
    expect .semicolon
    return [.declare pos ty name .missing]

def ifBody (pos : Position) : Parser (List Stmt) := do
  let check ← call .condition
  let thenBody ← call .stmt
  if ← accept (.ident "else") then return [.ifStmt pos check thenBody (← call .stmt)]
  else return [.ifStmt pos check thenBody []]

def whileBody (pos : Position) : Parser (List Stmt) := do
  let check ← call .condition
  let body ← call .stmt
  return [.whileStmt pos check body]

def returnBody (pos : Position) : Parser (List Stmt) := do
  if ← accept (.punct .semicolon) then return [.returnStmt pos .missing]
  else
    let x ← call .expr
    expect .semicolon
    return [.returnStmt pos x]

/-- A statement that starts with a name: an assignment or an expression. -/
def namedBody (pos : Position) : Parser (List Stmt) := do
  let (after, _) ← peekAt 1
  if after = some (.punct .assign) then
    let name ← call .ident
    advance
    let x ← call .expr
    expect .semicolon
    return [.assign pos name x]
  else call .exprStmt

/-- A statement may be several, since a block is no statement of its own, or none. -/
def stmtBody : Parser (List Stmt) := do
  match ← peek with
  | (some (.punct .openBrace), _) => call .block
  | (some (.punct .semicolon), _) =>
    advance
    return []
  | (some (.ident name), pos) =>
    match type? name with
    | some ty =>
      advance
      declarationBody pos ty
    | none =>
      if name = "if" then
        advance
        ifBody pos
      else if name = "while" then
        advance
        whileBody pos
      else if name = "break" then
        advance
        expect .semicolon
        return [.breakStmt pos]
      else if name = "continue" then
        advance
        expect .semicolon
        return [.continueStmt pos]
      else if name = "return" then
        advance
        returnBody pos
      else namedBody pos
  | _ => call .exprStmt

def stmtsBody (before : List Stmt) : Parser (List Stmt) := do
  if ← accept (.punct .closeBrace) then return before
  else
    match ← peek with
    | (none, pos) => fail pos .openBlock
    | _ =>
      let s ← call .stmt
      call (.stmts (before ++ s))

def blockBody : Parser (List Stmt) := do
  expect .openBrace
  call (.stmts [])

def paramsBody (before : List Param) : Parser (List Param) := do
  if ← accept (.punct .closeParen) then return before
  else
    separator before
    let ty ← call .type
    let name ← call .ident
    call (.params (before ++ [⟨ty, name⟩]))

def globalBody (pos : Position) (ty : Ty) (name : Name) : Parser Decl := do
  if ty = .void then fail pos (.voidGlobal name)
  else if ← accept (.punct .assign) then
    let init ← call .literal
    expect .semicolon
    return .global ⟨pos, name, ty, some init⟩
  else if ty = .string then fail pos (.stringGlobal name)
  else
    expect .semicolon
    return .global ⟨pos, name, ty, none⟩

/-- The rest of a function, after the parenthesis that opens its parameters. -/
def functionBody (pos : Position) (result : Ty) (name : Name) : Parser Decl := do
  let ps ← call (.params [])
  if ← accept (.punct .semicolon) then return .function ⟨pos, name, result, ps, true, []⟩
  else return .function ⟨pos, name, result, ps, false, ← call .block⟩

def declBody : Parser Decl := do
  let (_, pos) ← peek
  let ty ← call .type
  let name ← call .ident
  if ← accept (.punct .openParen) then functionBody pos ty name else globalBody pos ty name

def declsBody (before : List Decl) : Parser (List Decl) := do
  match ← peek with
  | (none, _) => return before
  | _ =>
    let d ← call .decl
    call (.decls (before ++ [d]))

def body : {α : Type} → Routine α → Parser α
  | _, .type => typeBody
  | _, .ident => identBody
  | _, .literal => literalBody
  | _, .primary => primaryBody
  | _, .arguments before => argumentsBody before
  | _, .postfixed => postfixedBody
  | _, .counters operand => countersBody operand
  | _, .unary => unaryBody
  | _, .binary level => binaryBody level
  | _, .operators level left => operatorsBody level left
  | _, .expr => call (.binary 0)
  | _, .condition => conditionBody
  | _, .exprStmt => exprStmtBody
  | _, .stmt => stmtBody
  | _, .stmts before => stmtsBody before
  | _, .block => blockBody
  | _, .params before => paramsBody before
  | _, .decl => declBody
  | _, .decls before => declsBody before

end Routine

def Run.outcome (ts : Tokens) {α : Type} : Run α → Option (Except SyntaxError (α × Nat))
  | .ends outcome => some outcome
  | .calls r i next => do
    match ← r.body ts i |>.outcome ts with
    | .ok (b, j) => next b j |>.outcome ts
    | .error e => some (.error e)
partial_fixpoint

end Parser

end MiniC.Source
