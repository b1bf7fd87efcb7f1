import MiniC.Proofs.Source.Proper
import MiniC.Source.Parser

namespace MiniC.Source

open MiniC.Source.Parser (Decl keywords type? unary? binary? counting?)

mutual

def Expr.bare : Expr → Expr
  | .missing => .missing
  | .var _ name => .var .nowhere name
  | .literal l => .literal ⟨.nowhere, l.value⟩
  | .call _ name args => .call .nowhere name (Expr.bareAll args)
  | .unary _ op operand => .unary .nowhere op operand.bare
  | .binary _ op left right => .binary .nowhere op left.bare right.bare

def Expr.bareAll : List Expr → List Expr
  | [] => []
  | e :: es => e.bare :: Expr.bareAll es

end

mutual

def Stmt.bare : Stmt → Stmt
  | .missing => .missing
  | .assign _ target value => .assign .nowhere target value.bare
  | .declare _ ty name init => .declare .nowhere ty name init.bare
  | .returnStmt _ value => .returnStmt .nowhere value.bare
  | .breakStmt _ => .breakStmt .nowhere
  | .continueStmt _ => .continueStmt .nowhere
  | .whileStmt _ check body => .whileStmt .nowhere check.bare (Stmt.bareAll body)
  | .ifStmt _ check thenBody elseBody =>
    .ifStmt .nowhere check.bare (Stmt.bareAll thenBody) (Stmt.bareAll elseBody)
  | .exprStmt _ value => .exprStmt .nowhere value.bare

def Stmt.bareAll : List Stmt → List Stmt
  | [] => []
  | s :: ss => s.bare :: Stmt.bareAll ss

end

theorem Stmt.bareAll_append (ss ts : List Stmt) : bareAll (ss ++ ts) = bareAll ss ++ bareAll ts := by
  induction ss with
  | nil => rfl
  | cons s ss ih => rw [List.cons_append, bareAll, bareAll, ih, List.cons_append]

def Global.bare (g : Global) : Global :=
  { g with pos := .nowhere, init := g.init.map fun l => ⟨.nowhere, l.value⟩ }

def Function.bare (f : Function) : Function :=
  { f with pos := .nowhere, body := Stmt.bareAll f.body }

def Program.bare (p : Program) : Program :=
  ⟨p.globals.map Global.bare, p.functions.map Function.bare⟩

structure IsName (name : Name) : Prop where
  notKeyword : name ∉ keywords
  notType : type? name = none
  notGenerated : Name.isGenerated name = false

inductive IsLiteral : Lexeme → Constant → Prop
  | int {numeral : Bytes} {n : Nat} (read : Numeral.read 0xffffffffffffffff numeral = .ok n) :
    IsLiteral (.int numeral) (.int n.toUInt64)
  | char (value : UInt8) : IsLiteral (.char value) (.char value)
  | str (value : Bytes) : IsLiteral (.str value) (.str value)

mutual

/-- Expressions by level: operators of a higher level bind more tightly, and above all operators between
two operands are those before one. -/
inductive IsExpr : Nat → List Lexeme → Expr → Prop
  | tighter {i : Nat} {ls : List Lexeme} {e : Expr} (below : i < 10) (inner : IsExpr (i + 1) ls e) : IsExpr i ls e
  | binary {i : Nat} {p : Punct} {op : BinOp} {ls rs : List Lexeme} {l r : Expr} (pos : Position)
    (mark : binary? p = some (op, i)) (left : IsExpr i ls l) (right : IsExpr (i + 1) rs r) :
    IsExpr i (ls ++ .punct p :: rs) (.binary pos op l r)
  | unary {p : Punct} {op : UnOp} {ls : List Lexeme} {e : Expr} (pos : Position) (mark : unary? p = some op)
    (operand : IsExpr 10 ls e) (onVar : op.counts = true → e.isVar = true) :
    IsExpr 10 (.punct p :: ls) (.unary pos op e)
  | counted {ls : List Lexeme} {e : Expr} (inner : IsCounted ls e) : IsExpr 10 ls e

/-- Expressions with operators behind them. -/
inductive IsCounted : List Lexeme → Expr → Prop
  | primary {ls : List Lexeme} {e : Expr} (inner : IsPrimary ls e) : IsCounted ls e
  | behind {p : Punct} {op : UnOp} {ls : List Lexeme} {e : Expr} (pos : Position) (inner : IsCounted ls e)
    (mark : counting? p = some op) (onVar : e.isVar = true) : IsCounted (ls ++ [Lexeme.punct p]) (.unary pos op e)

inductive IsPrimary : List Lexeme → Expr → Prop
  | var {name : Name} (pos : Position) (isName : IsName name) : IsPrimary [.ident name] (.var pos name)
  | literal {l : Lexeme} {c : Constant} (pos : Position) (isLiteral : IsLiteral l c) :
    IsPrimary [l] (.literal ⟨pos, c⟩)
  | call {name : Name} {ls : List Lexeme} {es : List Expr} (pos : Position) (isName : IsName name)
    (args : IsArgs ls es) :
    IsPrimary (.ident name :: .punct .openParen :: (ls ++ [Lexeme.punct .closeParen])) (.call pos name es)
  | paren {ls : List Lexeme} {e : Expr} (inner : IsExpr 0 ls e) :
    IsPrimary (.punct .openParen :: (ls ++ [Lexeme.punct .closeParen])) e

inductive IsArgs : List Lexeme → List Expr → Prop
  | none : IsArgs [] []
  | last {ls : List Lexeme} {e : Expr} (arg : IsExpr 0 ls e) : IsArgs ls [e]
  | more {ls rs : List Lexeme} {e e' : Expr} {es : List Expr} (arg : IsExpr 0 ls e) (others : IsArgs rs (e' :: es)) :
    IsArgs (ls ++ .punct .comma :: rs) (e :: e' :: es)

end

def inParens (ls : List Lexeme) : List Lexeme :=
  .punct .openParen :: (ls ++ [Lexeme.punct .closeParen])

mutual

/-- A statement stands for several, since a block is no statement of its own, or for none. It is closed if
an `else` behind it belongs to no `if` in it. -/
inductive IsStmt : (closed : Bool) → List Lexeme → List Stmt → Prop
  | block {ls : List Lexeme} {ss : List Stmt} (body : IsStmts ls ss) :
    IsStmt true (.punct .openBrace :: (ls ++ [Lexeme.punct .closeBrace])) ss
  | empty : IsStmt true [.punct .semicolon] []
  | declare {ty : Ty} {spelled : Bytes} {name : Name} (pos : Position) (isType : type? spelled = some ty)
    (isName : IsName name) (notVoid : ty ≠ .void) (notString : ty ≠ .string) :
    IsStmt true [.ident spelled, .ident name, .punct .semicolon] [.declare pos ty name .missing]
  | declareWith {ty : Ty} {spelled : Bytes} {name : Name} {ls : List Lexeme} {e : Expr} (pos : Position)
    (isType : type? spelled = some ty) (isName : IsName name) (notVoid : ty ≠ .void) (init : IsExpr 0 ls e) :
    IsStmt true (.ident spelled :: .ident name :: .punct .assign :: (ls ++ [Lexeme.punct .semicolon]))
      [.declare pos ty name e]
  | assign {name : Name} {ls : List Lexeme} {e : Expr} (pos : Position) (isName : IsName name)
    (value : IsExpr 0 ls e) :
    IsStmt true (.ident name :: .punct .assign :: (ls ++ [Lexeme.punct .semicolon])) [.assign pos name e]
  | ifThen {closed : Bool} {cs ls : List Lexeme} {c : Expr} {ss : List Stmt} (pos : Position)
    (check : IsExpr 0 cs c) (thenBody : IsStmt closed ls ss) :
    IsStmt false (.ident "if" :: (inParens cs ++ ls)) [.ifStmt pos c ss []]
  | ifElse {closed : Bool} {cs ls rs : List Lexeme} {c : Expr} {ss ts : List Stmt} (pos : Position)
    (check : IsExpr 0 cs c) (thenBody : IsStmt true ls ss) (elseBody : IsStmt closed rs ts) :
    IsStmt closed (.ident "if" :: (inParens cs ++ (ls ++ .ident "else" :: rs))) [.ifStmt pos c ss ts]
  | loop {closed : Bool} {cs ls : List Lexeme} {c : Expr} {ss : List Stmt} (pos : Position)
    (check : IsExpr 0 cs c) (body : IsStmt closed ls ss) :
    IsStmt closed (.ident "while" :: (inParens cs ++ ls)) [.whileStmt pos c ss]
  | breakLoop (pos : Position) : IsStmt true [.ident "break", .punct .semicolon] [.breakStmt pos]
  | continueLoop (pos : Position) : IsStmt true [.ident "continue", .punct .semicolon] [.continueStmt pos]
  | leave (pos : Position) : IsStmt true [.ident "return", .punct .semicolon] [.returnStmt pos .missing]
  | leaveWith {ls : List Lexeme} {e : Expr} (pos : Position) (value : IsExpr 0 ls e) :
    IsStmt true (.ident "return" :: (ls ++ [Lexeme.punct .semicolon])) [.returnStmt pos e]
  | expr {ls : List Lexeme} {e : Expr} (pos : Position) (value : IsExpr 0 ls e) :
    IsStmt true (ls ++ [Lexeme.punct .semicolon]) [.exprStmt pos e]

inductive IsStmts : List Lexeme → List Stmt → Prop
  | nil : IsStmts [] []
  | cons {closed : Bool} {ls rs : List Lexeme} {ss ts : List Stmt} (first : IsStmt closed ls ss)
    (others : IsStmts rs ts) : IsStmts (ls ++ rs) (ss ++ ts)

end

inductive IsParams : List Lexeme → List Param → Prop
  | none : IsParams [] []
  | last {ty : Ty} {spelled : Bytes} {name : Name} (isType : type? spelled = some ty) (isName : IsName name) :
    IsParams [.ident spelled, .ident name] [⟨ty, name⟩]
  | more {ty : Ty} {spelled : Bytes} {name : Name} {rs : List Lexeme} {p : Param} {ps : List Param}
    (isType : type? spelled = some ty) (isName : IsName name) (others : IsParams rs (p :: ps)) :
    IsParams (.ident spelled :: .ident name :: .punct .comma :: rs) (⟨ty, name⟩ :: p :: ps)

inductive IsDecl : List Lexeme → Decl → Prop
  | global {ty : Ty} {spelled : Bytes} {name : Name} (pos : Position) (isType : type? spelled = some ty)
    (isName : IsName name) (notVoid : ty ≠ .void) (notString : ty ≠ .string) :
    IsDecl [.ident spelled, .ident name, .punct .semicolon] (.global ⟨pos, name, ty, none⟩)
  | globalWith {ty : Ty} {spelled : Bytes} {name : Name} {l : Lexeme} {c : Constant} (pos : Position)
    (place : Position) (isType : type? spelled = some ty) (isName : IsName name) (notVoid : ty ≠ .void)
    (isLiteral : IsLiteral l c) :
    IsDecl [.ident spelled, .ident name, .punct .assign, l, .punct .semicolon]
      (.global ⟨pos, name, ty, some ⟨place, c⟩⟩)
  | external {ty : Ty} {spelled : Bytes} {name : Name} {ls : List Lexeme} {ps : List Param} (pos : Position)
    (isType : type? spelled = some ty) (isName : IsName name) (params : IsParams ls ps) :
    IsDecl (.ident spelled :: .ident name :: (inParens ls ++ [Lexeme.punct .semicolon]))
      (.function ⟨pos, name, ty, ps, true, []⟩)
  | function {ty : Ty} {spelled : Bytes} {name : Name} {ls rs : List Lexeme} {ps : List Param} {ss : List Stmt}
    (pos : Position) (isType : type? spelled = some ty) (isName : IsName name) (params : IsParams ls ps)
    (body : IsStmts rs ss) :
    IsDecl (.ident spelled :: .ident name ::
        (inParens ls ++ Lexeme.punct .openBrace :: (rs ++ [Lexeme.punct .closeBrace])))
      (.function ⟨pos, name, ty, ps, false, ss⟩)

inductive IsDecls : List Lexeme → List Decl → Prop
  | nil : IsDecls [] []
  | cons {ls rs : List Lexeme} {d : Decl} {ds : List Decl} (first : IsDecl ls d) (others : IsDecls rs ds) :
    IsDecls (ls ++ rs) (d :: ds)

end MiniC.Source
