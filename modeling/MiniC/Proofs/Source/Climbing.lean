import MiniC.Source.Parser

namespace MiniC.Source.Climbing

open MiniC.Source.Parser (Decl keywords type? unary? binary?)

abbrev Rest (ts : List Placed) := { rest : List Placed // rest.length < ts.length }

abbrev Tail (ts : List Placed) := { rest : List Placed // rest.length ≤ ts.length }

abbrev Parsed (α : Type) (ts : List Placed) := Except SyntaxError (α × Rest ts)

section

variable (eof : Position)

def place (ts : List Placed) : Position :=
  match ts with
  | [] => eof
  | t :: _ => t.pos

/-- The error of not finding what was wanted at the head of `ts`. -/
def unexpected (want : Wanted) (ts : List Placed) : SyntaxError :=
  match ts with
  | [] => ⟨eof, .expected want none⟩
  | t :: _ => ⟨t.pos, .expected want (some t.lexeme)⟩

def accept? (l : Lexeme) (ts : List Placed) : Option (Rest ts) :=
  match ts with
  | [] => none
  | t :: rest => if t.lexeme = l then some ⟨rest, Nat.lt_succ_self _⟩ else none

def expect (p : Punct) (ts : List Placed) : Except SyntaxError (Rest ts) :=
  match accept? (.punct p) ts with
  | some rest => .ok rest
  | none => .error (unexpected eof (.punct p) ts)

def type (ts : List Placed) : Parsed Ty ts :=
  match ts with
  | ⟨.ident name, pos⟩ :: rest =>
    match type? name with
    | some ty => .ok (ty, ⟨rest, Nat.lt_succ_self _⟩)
    | none => .error (unexpected eof .type (⟨.ident name, pos⟩ :: rest))
  | ts => .error (unexpected eof .type ts)

def ident (ts : List Placed) : Parsed Name ts :=
  match ts with
  | ⟨.ident name, pos⟩ :: rest =>
    if keywords.contains name || (type? name).isSome then
      .error (unexpected eof .identifier (⟨.ident name, pos⟩ :: rest))
    else if Name.isGenerated name then .error ⟨pos, .reservedName name⟩
    else .ok (name, ⟨rest, Nat.lt_succ_self _⟩)
  | ts => .error (unexpected eof .identifier ts)

def literal (ts : List Placed) : Parsed Literal ts :=
  match ts with
  | ⟨.int numeral, pos⟩ :: rest =>
    match Numeral.read 0xffffffffffffffff numeral with
    | .ok n => .ok (⟨pos, .int n.toUInt64⟩, ⟨rest, Nat.lt_succ_self _⟩)
    | .error e => .error ⟨pos, .badInteger numeral e⟩
  | ⟨.char value, pos⟩ :: rest => .ok (⟨pos, .char value⟩, ⟨rest, Nat.lt_succ_self _⟩)
  | ⟨.str value, pos⟩ :: rest => .ok (⟨pos, .str value⟩, ⟨rest, Nat.lt_succ_self _⟩)
  | ts => .error (unexpected eof .literal ts)

/-- An operator applied to its operand: only a variable can be counted up or down. -/
def applyUnary (pos : Position) (op : UnOp) (operand : Expr) : Except SyntaxError Expr :=
  match op, operand with
  | .increment, .var .. | .decrement, .var .. => .ok (.unary pos op operand)
  | .increment, _ | .decrement, _ => .error ⟨pos, .needsVariable op⟩
  | _, _ => .ok (.unary pos op operand)

def postfixes (operand : Expr) (ts : List Placed) : Except SyntaxError (Expr × Tail ts) :=
  match ts with
  | ⟨.punct .increment, pos⟩ :: rest => do
    let (e, ⟨after, shorter⟩) ← postfixes (← applyUnary pos .increment operand) rest
    .ok (e, ⟨after, by simp only [List.length_cons]; omega⟩)
  | ⟨.punct .decrement, pos⟩ :: rest => do
    let (e, ⟨after, shorter⟩) ← postfixes (← applyUnary pos .decrement operand) rest
    .ok (e, ⟨after, by simp only [List.length_cons]; omega⟩)
  | ts => .ok (operand, ⟨ts, Nat.le_refl _⟩)

mutual

/-- An expression of operators that bind at least as tightly as `least`. -/
def expr (least : Nat) (ts : List Placed) : Parsed Expr ts := do
  let (x, ⟨rest, shorter⟩) ← unary ts
  let (x, ⟨rest, shorter⟩) ← operators least x rest
  .ok (x, ⟨rest, by omega⟩)
termination_by (ts.length, 3)

/-- The operators that bind at least as tightly as `least`, with their right operands, after `left`. -/
def operators (least : Nat) (left : Expr) (ts : List Placed) :
    Except SyntaxError (Expr × Tail ts) :=
  match ts with
  | ⟨.punct p, pos⟩ :: rest =>
    match binary? p with
    | none => .ok (left, ⟨⟨.punct p, pos⟩ :: rest, Nat.le_refl _⟩)
    | some (op, level) =>
      if least ≤ level then do
        let (right, ⟨rest, shorter⟩) ← expr (level + 1) rest
        let (x, ⟨rest, shorter⟩) ← operators least (.binary pos op left right) rest
        .ok (x, ⟨rest, by simp only [List.length_cons]; omega⟩)
      else .ok (left, ⟨⟨.punct p, pos⟩ :: rest, Nat.le_refl _⟩)
  | ts => .ok (left, ⟨ts, Nat.le_refl _⟩)
termination_by (ts.length, 0)

def unary (ts : List Placed) : Parsed Expr ts :=
  match ts with
  | ⟨.punct p, pos⟩ :: rest =>
    match unary? p with
    | none => do
      let (x, ⟨rest, shorter⟩) ← primary (⟨.punct p, pos⟩ :: rest)
      let (x, ⟨rest, shorter⟩) ← postfixes x rest
      .ok (x, ⟨rest, by omega⟩)
    | some op => do
      let (x, ⟨rest, shorter⟩) ← unary rest
      .ok (← applyUnary pos op x, ⟨rest, by simp only [List.length_cons]; omega⟩)
  | ts => do
    let (x, ⟨rest, shorter⟩) ← primary ts
    let (x, ⟨rest, shorter⟩) ← postfixes x rest
    .ok (x, ⟨rest, by omega⟩)
termination_by (ts.length, 2)

def primary (ts : List Placed) : Parsed Expr ts :=
  match ts with
  | ⟨.ident name, pos⟩ :: rest => do
    let (name, ⟨rest, shorter⟩) ← ident eof (⟨.ident name, pos⟩ :: rest)
    match accept? (.punct .openParen) rest with
    | some ⟨rest, shorter⟩ =>
      let (args, ⟨rest, shorter⟩) ← arguments true rest
      .ok (.call pos name args, ⟨rest, by omega⟩)
    | none => .ok (.var pos name, ⟨rest, shorter⟩)
  | ⟨.punct .openParen, _⟩ :: rest => do
    let (x, ⟨rest, shorter⟩) ← expr 0 rest
    let ⟨rest, shorter⟩ ← expect eof .closeParen rest
    .ok (x, ⟨rest, by simp only [List.length_cons]; omega⟩)
  | ⟨.punct p, pos⟩ :: rest => .error (unexpected eof .expression (⟨.punct p, pos⟩ :: rest))
  | [] => .error (unexpected eof .expression [])
  | ts => do
    let (l, rest) ← literal eof ts
    .ok (.literal l, rest)
termination_by (ts.length, 1)
decreasing_by
  · simp only [List.length_cons] at *
    exact Prod.Lex.left _ _ (by omega)
  · decreasing_tactic

/-- The arguments of a call and the parenthesis that closes it. -/
def arguments (first : Bool) (ts : List Placed) : Parsed (List Expr) ts :=
  match accept? (.punct .closeParen) ts with
  | some rest => .ok ([], rest)
  | none =>
    if first then do
      let (x, ⟨rest, shorter⟩) ← expr 0 ts
      let (xs, ⟨rest, shorter⟩) ← arguments false rest
      .ok (x :: xs, ⟨rest, by omega⟩)
    else do
      let ⟨rest, shorter⟩ ← expect eof .comma ts
      let (x, ⟨rest, shorter⟩) ← expr 0 rest
      let (xs, ⟨rest, shorter⟩) ← arguments false rest
      .ok (x :: xs, ⟨rest, by omega⟩)
termination_by (ts.length, 4)

end

def condition (ts : List Placed) : Parsed Expr ts := do
  let ⟨rest, shorter⟩ ← expect eof .openParen ts
  let (x, ⟨rest, shorter⟩) ← expr eof 0 rest
  let ⟨rest, shorter⟩ ← expect eof .closeParen rest
  .ok (x, ⟨rest, by omega⟩)

/-- A statement that is only an expression. -/
def exprStmt (ts : List Placed) : Parsed (List Stmt) ts := do
  let (x, ⟨rest, shorter⟩) ← expr eof 0 ts
  let ⟨rest, shorter⟩ ← expect eof .semicolon rest
  .ok ([.exprStmt (place eof ts) x], ⟨rest, by omega⟩)

def declaration (pos : Position) (ty : Ty) (ts : List Placed) : Parsed (List Stmt) ts := do
  let (name, ⟨rest, shorter⟩) ← ident eof ts
  if ty = .void then .error ⟨pos, .voidVariable name⟩
  else
    match accept? (.punct .assign) rest with
    | some ⟨rest, shorter⟩ =>
      let (init, ⟨rest, shorter⟩) ← expr eof 0 rest
      let ⟨rest, shorter⟩ ← expect eof .semicolon rest
      .ok ([.declare pos ty name init], ⟨rest, by omega⟩)
    | none =>
      if ty = .string then .error ⟨pos, .stringVariable name⟩
      else
        let ⟨rest, shorter⟩ ← expect eof .semicolon rest
        .ok ([.declare pos ty name .missing], ⟨rest, by omega⟩)

def returned (pos : Position) (ts : List Placed) : Parsed (List Stmt) ts :=
  match accept? (.punct .semicolon) ts with
  | some rest => .ok ([.returnStmt pos .missing], rest)
  | none => do
    let (x, ⟨rest, shorter⟩) ← expr eof 0 ts
    let ⟨rest, shorter⟩ ← expect eof .semicolon rest
    .ok ([.returnStmt pos x], ⟨rest, by omega⟩)

/-- A statement that starts with a name: an assignment or an expression. -/
def named (pos : Position) (ts : List Placed) : Parsed (List Stmt) ts :=
  match ts with
  | first :: ⟨.punct .assign, _⟩ :: rest => do
    let (name, _) ← ident eof [first]
    let (x, ⟨rest, shorter⟩) ← expr eof 0 rest
    let ⟨rest, shorter⟩ ← expect eof .semicolon rest
    .ok ([.assign pos name x], ⟨rest, by simp only [List.length_cons]; omega⟩)
  | ts => exprStmt eof ts

mutual

/-- A statement. It may be several, since a block is no statement of its own, or none. -/
def stmt (ts : List Placed) : Parsed (List Stmt) ts :=
  match ts with
  | ⟨.punct .openBrace, _⟩ :: rest => do
    let (body, ⟨rest, shorter⟩) ← stmts rest
    .ok (body, ⟨rest, by simp only [List.length_cons]; omega⟩)
  | ⟨.punct .semicolon, _⟩ :: rest => .ok ([], ⟨rest, Nat.lt_succ_self _⟩)
  | ⟨.ident name, pos⟩ :: rest =>
    match type? name with
    | none =>
      if name = "if" then do
        let (check, ⟨rest, shorter⟩) ← condition eof rest
        let (thenBody, ⟨rest, shorter'⟩) ← stmt rest
        match accept? (.ident "else") rest with
        | some ⟨rest, less⟩ =>
          let (elseBody, ⟨rest, less'⟩) ← stmt rest
          .ok ([.ifStmt pos check thenBody elseBody],
            ⟨rest, Nat.lt_succ_of_lt (Nat.lt_trans less' (Nat.lt_trans less (Nat.lt_trans shorter' shorter)))⟩)
        | none => .ok ([.ifStmt pos check thenBody []], ⟨rest, by simp only [List.length_cons]; omega⟩)
      else if name = "while" then do
        let (check, ⟨rest, shorter⟩) ← condition eof rest
        let (body, ⟨rest, shorter⟩) ← stmt rest
        .ok ([.whileStmt pos check body], ⟨rest, by simp only [List.length_cons]; omega⟩)
      else if name = "break" then do
        let ⟨rest, shorter⟩ ← expect eof .semicolon rest
        .ok ([.breakStmt pos], ⟨rest, by simp only [List.length_cons]; omega⟩)
      else if name = "continue" then do
        let ⟨rest, shorter⟩ ← expect eof .semicolon rest
        .ok ([.continueStmt pos], ⟨rest, by simp only [List.length_cons]; omega⟩)
      else if name = "return" then do
        let (s, ⟨rest, shorter⟩) ← returned eof pos rest
        .ok (s, ⟨rest, by simp only [List.length_cons]; omega⟩)
      else named eof pos (⟨.ident name, pos⟩ :: rest)
    | some ty => do
      let (s, ⟨rest, shorter⟩) ← declaration eof pos ty rest
      .ok (s, ⟨rest, by simp only [List.length_cons]; omega⟩)
  | ts => exprStmt eof ts
termination_by (ts.length, 0)

/-- The statements up to the brace that closes their block, and that brace. -/
def stmts (ts : List Placed) : Parsed (List Stmt) ts :=
  match accept? (.punct .closeBrace) ts with
  | some rest => .ok ([], rest)
  | none =>
    if ts.isEmpty then .error ⟨eof, .openBlock⟩
    else do
      let (s, ⟨rest, shorter⟩) ← stmt ts
      let (body, ⟨rest, shorter⟩) ← stmts rest
      .ok (s ++ body, ⟨rest, by omega⟩)
termination_by (ts.length, 1)

end

def block (ts : List Placed) : Parsed (List Stmt) ts := do
  let ⟨rest, shorter⟩ ← expect eof .openBrace ts
  let (body, ⟨rest, shorter⟩) ← stmts eof rest
  .ok (body, ⟨rest, by omega⟩)

/-- The parameters of a function and the parenthesis that closes them. -/
def params (first : Bool) (ts : List Placed) : Parsed (List Param) ts :=
  match accept? (.punct .closeParen) ts with
  | some rest => .ok ([], rest)
  | none => do
    let ⟨rest, shorter⟩ ← if first then .ok ⟨ts, Nat.le_refl _⟩ else
      (expect eof .comma ts).map fun r => (⟨r.1, Nat.le_of_lt r.2⟩ : Tail ts)
    let (ty, ⟨rest, shorter⟩) ← type eof rest
    let (name, ⟨rest, shorter⟩) ← ident eof rest
    let (ps, ⟨rest, shorter⟩) ← params false rest
    .ok (⟨ty, name⟩ :: ps, ⟨rest, by omega⟩)
termination_by ts.length

def globalRest (pos : Position) (ty : Ty) (name : Name) (ts : List Placed) : Parsed Decl ts :=
  if ty = .void then .error ⟨pos, .voidGlobal name⟩
  else
    match accept? (.punct .assign) ts with
    | some ⟨rest, shorter⟩ => do
      let (init, ⟨rest, shorter⟩) ← literal eof rest
      let ⟨rest, shorter⟩ ← expect eof .semicolon rest
      .ok (.global ⟨pos, name, ty, some init⟩, ⟨rest, by omega⟩)
    | none =>
      if ty = .string then .error ⟨pos, .stringGlobal name⟩
      else do
        let ⟨rest, shorter⟩ ← expect eof .semicolon ts
        .ok (.global ⟨pos, name, ty, none⟩, ⟨rest, shorter⟩)

def functionRest (pos : Position) (result : Ty) (name : Name) (ts : List Placed) :
    Parsed Decl ts := do
  let (ps, ⟨rest, shorter⟩) ← params eof true ts
  match accept? (.punct .semicolon) rest with
  | some ⟨rest, shorter⟩ =>
    .ok (.function ⟨pos, name, result, ps, true, []⟩, ⟨rest, by omega⟩)
  | none =>
    let (body, ⟨rest, shorter⟩) ← block eof rest
    .ok (.function ⟨pos, name, result, ps, false, body⟩, ⟨rest, by omega⟩)

def decl (ts : List Placed) : Parsed Decl ts := do
  let (ty, ⟨rest, shorter⟩) ← type eof ts
  let (name, ⟨rest, shorter⟩) ← ident eof rest
  match accept? (.punct .openParen) rest with
  | some ⟨rest, shorter⟩ =>
    let (d, ⟨rest, shorter⟩) ← functionRest eof (place eof ts) ty name rest
    .ok (d, ⟨rest, by omega⟩)
  | none =>
    let (d, ⟨rest, shorter⟩) ← globalRest eof (place eof ts) ty name rest
    .ok (d, ⟨rest, by omega⟩)

def decls (ts : List Placed) : Except SyntaxError (List Decl) :=
  match ts with
  | [] => .ok []
  | t :: ts => do
    let (d, ⟨rest, shorter⟩) ← decl eof (t :: ts)
    have : rest.length < (t :: ts).length := shorter
    let ds ← decls rest
    .ok (d :: ds)
termination_by ts.length
decreasing_by assumption

end

end MiniC.Source.Climbing
