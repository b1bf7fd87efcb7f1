import MiniC.Source.Tree
import Mathlib.Algebra.Ring.Int.Defs
import Mathlib.Algebra.Ring.Nat

namespace MiniC.Source

def UnOp.counts : UnOp → Bool
  | .increment | .decrement => true
  | _ => false

def Expr.isVar : Expr → Bool
  | .var .. => true
  | _ => false

theorem Expr.exists_var {e : Expr} (var : e.isVar = true) : ∃ pos x, e = .var pos x := by
  cases e with
  | var pos x => exact ⟨pos, x, rfl⟩
  | _ => cases var

mutual

def Expr.isProper : Expr → Bool
  | .missing | .literal _ => true
  | .var _ x => !Name.isGenerated x
  | .call _ _ xs => Expr.allProper xs
  | .unary _ op x => (!op.counts || x.isVar) && x.isProper
  | .binary _ _ l r => l.isProper && r.isProper

def Expr.allProper : List Expr → Bool
  | [] => true
  | x :: xs => x.isProper && Expr.allProper xs

end

mutual

def Stmt.isProper : Stmt → Bool
  | .missing | .breakStmt _ | .continueStmt _ => true
  | .assign _ x e => !Name.isGenerated x && e.isProper
  | .declare _ _ x e => !Name.isGenerated x && e.isProper
  | .returnStmt _ e => e.isProper
  | .whileStmt _ check body => check.isProper && Stmt.allProper body
  | .ifStmt _ check thenBody elseBody =>
    check.isProper && Stmt.allProper thenBody && Stmt.allProper elseBody
  | .exprStmt _ e => e.isProper

def Stmt.allProper : List Stmt → Bool
  | [] => true
  | s :: ss => s.isProper && Stmt.allProper ss

end

end MiniC.Source
