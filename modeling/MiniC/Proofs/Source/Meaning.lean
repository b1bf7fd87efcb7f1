import MiniC.Proofs.Code.Meaning
import MiniC.Source.Tree
import Mathlib.Logic.Function.Basic

/-!
What source programs do. Numbers are words of 64 bits, operands and arguments are evaluated from left
to right, and an operand that is a variable is read when the operation on it is applied: the value of
`x + x++` is twice the value of `x` after it. Functions and string constants come from a `World`.
-/

namespace MiniC

abbrev Valuation := Name → Word

/-- The values of the names that a user may write. -/
abbrev UserValuation := {x : Name // Name.isGenerated x = false} → Word

namespace Valuation

def user (σ : Valuation) : UserValuation :=
  fun x => σ x.1

def set (σ : Valuation) (x : Name) (w : Word) : Valuation :=
  Function.update σ x w

/-- Other values for the names of users; those of generated names stay. -/
def withUser (σ : Valuation) (values : UserValuation) : Valuation :=
  fun x => if written : Name.isGenerated x = false then values ⟨x, written⟩ else σ x

end Valuation

/-- What a function body meets outside of it: the addresses where a string constant may be kept, and
what a call with some arguments may return and do to the variables of the program. -/
structure World where
  string : Bytes → Set Word
  call : Name → List Word → UserValuation → Set (Word × UserValuation)

namespace Source

/-- The value of an operator between two words. Comparisons are signed, and a bound that is included
must not be the last number in its direction. -/
def BinOp.eval? (op : BinOp) (a b : Word) : Option Word :=
  match op with
  | .add => some (a + b)
  | .sub => some (a - b)
  | .mul => some (a * b)
  | .div => some (a.quotient b)
  | .mod => some (a.remainder b)
  | .xor => some (a ^^^ b)
  | .and => some (a &&& b)
  | .or => some (a ||| b)
  | .andAlso => Code.BinOp.logAnd.eval? a b
  | .orElse => Code.BinOp.logOr.eval? a b
  | .shiftRight => some (a >>> b.amount)
  | .shiftLeft => some (a <<< b.amount)
  | .le => some (.ofBool (a.sle b && b != BitVec.intMax 64))
  | .lt => some (.ofBool (a.slt b))
  | .ge => some (.ofBool (b.sle a && b != BitVec.intMin 64))
  | .gt => some (.ofBool (b.slt a))
  | .eq => some (.ofBool (a == b))
  | .ne => some (.ofBool (a != b))
  | .unknown _ _ => none

/-- What an expression gives to the operator around it. -/
inductive Operand
  | value (w : Word)
  | variable (x : Name)
  deriving DecidableEq, Repr

def Operand.read (σ : Valuation) : Operand → Word
  | .value w => w
  | .variable x => σ x

@[simp] theorem Operand.read_value (σ : Valuation) (w : Word) : (Operand.value w).read σ = w := rfl

/-- An operator on one operand. The counting ones change a variable and give it back. -/
def UnOp.results (op : UnOp) (operand : Operand) (σ : Valuation) : Set (Operand × Valuation) :=
  match op, operand with
  | .not, v => {out | ∃ w, Code.UnOp.logNeg.eval? (v.read σ) = some w ∧ out = (.value w, σ)}
  | .invert, v => {(.value (~~~v.read σ), σ)}
  | .negate, v => {(.value (-v.read σ), σ)}
  | .increment, .variable x => {(.variable x, σ.set x (σ x + 1))}
  | .decrement, .variable x => {(.variable x, σ.set x (σ x - 1))}
  | _, _ => ∅

def Constant.words (w : World) : Constant → Set Word
  | .int value => {value.toBitVec}
  | .char value => {value.toBitVec.setWidth 64}
  | .str value => w.string value

mutual

/-- What an expression may give, and the variables after it. -/
def Expr.results (w : World) : Expr → Valuation → Set (Operand × Valuation)
  | .missing, _ => ∅
  | .var _ x, σ => {(.variable x, σ)}
  | .literal l, σ => {out | ∃ c ∈ l.value.words w, out = (.value c, σ)}
  | .call _ callee xs, σ =>
    andThen (Expr.listResults w xs σ) fun (vs, σ) =>
      {out | ∃ returned ∈ w.call callee (vs.map (Operand.read σ)) σ.user,
        out = (.value returned.1, σ.withUser returned.2)}
  | .unary _ op x, σ => andThen (Expr.results w x σ) fun (v, σ) => op.results v σ
  | .binary _ op l r, σ =>
    andThen (Expr.results w l σ) fun (a, σ) =>
      andThen (Expr.results w r σ) fun (b, σ) =>
        {out | ∃ c, op.eval? (a.read σ) (b.read σ) = some c ∧ out = (.value c, σ)}

def Expr.listResults (w : World) : List Expr → Valuation → Set (List Operand × Valuation)
  | [], σ => {([], σ)}
  | x :: xs, σ =>
    andThen (Expr.results w x σ) fun (v, σ) =>
      andThen (Expr.listResults w xs σ) fun (vs, σ) => {(v :: vs, σ)}

end

/-- The values that an expression may have, and the variables after it. -/
def Expr.values (w : World) (e : Expr) (σ : Valuation) : Set (Word × Valuation) :=
  andThen (e.results w σ) fun (v, σ) => {(v.read σ, σ)}

inductive Completion
  | normal
  | broke
  | continued
  | returned (value : Option Word)
  deriving DecidableEq, Repr

inductive Loop (check : Valuation → Set (Word × Valuation))
    (body : Valuation → Set (Completion × Valuation)) : Valuation → Completion → Valuation → Prop
  | done {σ σ'} : (0, σ') ∈ check σ → Loop check body σ .normal σ'
  | again {σ σ₁ σ₂ σ' c completion outcome} :
    (c, σ₁) ∈ check σ → c ≠ 0 → (completion, σ₂) ∈ body σ₁ →
    completion = .normal ∨ completion = .continued →
    Loop check body σ₂ outcome σ' → Loop check body σ outcome σ'
  | broke {σ σ₁ σ' c} :
    (c, σ₁) ∈ check σ → c ≠ 0 → (.broke, σ') ∈ body σ₁ → Loop check body σ .normal σ'
  | returned {σ σ₁ σ' c value} :
    (c, σ₁) ∈ check σ → c ≠ 0 → (.returned value, σ') ∈ body σ₁ →
    Loop check body σ (.returned value) σ'

mutual

def Stmt.results (w : World) : Stmt → Valuation → Set (Completion × Valuation)
  | .missing, _ => ∅
  | .assign _ x e, σ => andThen (e.values w σ) fun (c, σ) => {(.normal, σ.set x c)}
  | .declare _ _ _ .missing, σ => {(.normal, σ)}
  | .declare _ _ x e, σ => andThen (e.values w σ) fun (c, σ) => {(.normal, σ.set x c)}
  | .returnStmt _ .missing, σ => {(.returned none, σ)}
  | .returnStmt _ e, σ => andThen (e.values w σ) fun (c, σ) => {(.returned (some c), σ)}
  | .breakStmt _, σ => {(.broke, σ)}
  | .continueStmt _, σ => {(.continued, σ)}
  | .whileStmt _ check body, σ =>
    {out | Loop (check.values w) (Stmt.listResults w body) σ out.1 out.2}
  | .ifStmt _ check thenBody elseBody, σ =>
    andThen (check.values w σ) fun (c, σ) =>
      if c ≠ 0 then Stmt.listResults w thenBody σ else Stmt.listResults w elseBody σ
  | .exprStmt _ e, σ => andThen (e.values w σ) fun (_, σ) => {(.normal, σ)}

def Stmt.listResults (w : World) : List Stmt → Valuation → Set (Completion × Valuation)
  | [], σ => {(.normal, σ)}
  | s :: ss, σ =>
    andThen (Stmt.results w s σ) fun (completion, σ) =>
      if completion = .normal then Stmt.listResults w ss σ else {(completion, σ)}

end

/-- A body that ends normally falls off its end; one that breaks out of no loop ends in no way. -/
def Completion.outcome? : Completion → Option Outcome
  | .normal => some .fell
  | .returned value => some (.returned value)
  | .broke | .continued => none

def Runs (w : World) (body : List Stmt) (σ : Valuation) (outcome : Outcome) (σ' : Valuation) : Prop :=
  ∃ completion, (completion, σ') ∈ Stmt.listResults w body σ ∧ completion.outcome? = some outcome

end Source

end MiniC
