import MiniC.Proofs.Source.Meaning
import MiniC.Proofs.Source.Proper

/-!
Evaluation by value. A variable that is an operand is read when its operator is applied, but this cannot be told
from reading it at once unless an operand behind it calls a function or counts a variable.
-/

namespace MiniC.Source

variable {w : World} {σ σ' : Valuation}

def Operand.target? : Operand → Option Name
  | .value _ => none
  | .variable x => some x

/-- The variable that an expression gives to the operator around it, if it gives one. -/
def Expr.target? : Expr → Option Name
  | .var _ x => some x
  | .unary _ op x => if op.counts then x.target? else none
  | _ => none

/-- Whether an expression leaves all variables as they are: it calls nothing and counts nothing. -/
def Expr.isPure : Expr → Bool
  | .missing | .literal _ | .var .. => true
  | .call .. => false
  | .unary _ op x => !op.counts && x.isPure
  | .binary _ _ l r => l.isPure && r.isPure

mutual

/-- Whether no operand that is a variable is followed by one that may change variables. -/
def Expr.isSteady : Expr → Bool
  | .missing | .literal _ | .var .. => true
  | .call _ _ xs => Expr.allSteady xs
  | .unary _ _ x => x.isSteady
  | .binary _ _ l r => l.isSteady && r.isSteady && (l.target?.isNone || r.isPure)

def Expr.allSteady : List Expr → Bool
  | [] => true
  | x :: xs => x.isSteady && Expr.allSteady xs && (x.target?.isNone || xs.all Expr.isPure)

end

def UnOp.apply (op : UnOp) (target : Option Name) (c : Word) (σ : Valuation) : Set (Word × Valuation) :=
  match op, target with
  | .not, _ => {out | ∃ d, Code.UnOp.logNeg.eval? c = some d ∧ out = (d, σ)}
  | .invert, _ => {(~~~c, σ)}
  | .negate, _ => {(-c, σ)}
  | .increment, some x => {(c + 1, σ.set x (c + 1))}
  | .decrement, some x => {(c - 1, σ.set x (c - 1))}
  | _, _ => ∅

mutual

/-- The values of an expression if every operand is read as soon as it is evaluated, from left to right. -/
def Expr.byValue (w : World) : Expr → Valuation → Set (Word × Valuation)
  | .missing, _ => ∅
  | .var _ x, σ => {(σ x, σ)}
  | .literal l, σ => {out | ∃ c ∈ l.value.words w, out = (c, σ)}
  | .call _ callee xs, σ =>
    andThen (Expr.listByValue w xs σ) fun (cs, σ) =>
      {out | ∃ returned ∈ w.call callee cs σ.user, out = (returned.1, σ.withUser returned.2)}
  | .unary _ op x, σ => andThen (x.byValue w σ) fun (c, σ) => op.apply x.target? c σ
  | .binary _ op l r, σ =>
    andThen (l.byValue w σ) fun (a, σ) =>
      andThen (r.byValue w σ) fun (b, σ) => {out | ∃ c, op.eval? a b = some c ∧ out = (c, σ)}

def Expr.listByValue (w : World) : List Expr → Valuation → Set (List Word × Valuation)
  | [], σ => {([], σ)}
  | x :: xs, σ =>
    andThen (x.byValue w σ) fun (c, σ) => andThen (Expr.listByValue w xs σ) fun (cs, σ) => {(c :: cs, σ)}

end

theorem UnOp.apply_eq (op : UnOp) (v : Operand) (σ : Valuation) :
    andThen (op.results v σ) (fun (v, σ) => {(v.read σ, σ)}) = op.apply v.target? (v.read σ) σ := by
  cases op with
  | not =>
    ext out
    simp [UnOp.results, UnOp.apply, andThen]
  | increment | decrement =>
    cases v <;> simp [UnOp.results, UnOp.apply, Operand.target?, Operand.read, Valuation.set, andThen]
  | _ => simp [UnOp.results, UnOp.apply, andThen]

theorem UnOp.results_cases {op : UnOp} {v : Operand} {out : Operand × Valuation} (given : out ∈ op.results v σ) :
    (op.counts = false ∧ ∃ c, out = (.value c, σ)) ∨
      (op.counts = true ∧ ∃ x c, v = .variable x ∧ out = (.variable x, σ.set x c)) := by
  cases op with
  | not =>
    obtain ⟨c, -, rfl⟩ := given
    exact .inl ⟨rfl, _, rfl⟩
  | increment | decrement =>
    rcases v with c | x
    · cases given
    · cases given
      exact .inr ⟨rfl, x, _, rfl, rfl⟩
  | unknown => cases given
  | _ =>
    cases given
    exact .inl ⟨rfl, _, rfl⟩

theorem UnOp.target?_of_results {op : UnOp} {v : Operand} {out : Operand × Valuation} (given : out ∈ op.results v σ) :
    out.1.target? = if op.counts then v.target? else none := by
  rcases results_cases given with ⟨plain, c, rfl⟩ | ⟨counts, x, c, rfl, rfl⟩
  · rw [plain]
    rfl
  · rw [counts]
    rfl

theorem Expr.target?_of_results : ∀ (e : Expr) {σ out}, out ∈ e.results w σ → out.1.target? = e.target?
  | .missing, _, _, given => by
    rw [Expr.results] at given
    cases given
  | .var .., _, _, given => by
    rw [Expr.results] at given
    cases given
    rfl
  | .literal _, _, _, given => by
    rw [Expr.results] at given
    obtain ⟨_, _, rfl⟩ := given
    rfl
  | .call .., _, _, given => by
    rw [Expr.results] at given
    obtain ⟨_, _, _, _, rfl⟩ := given
    rfl
  | .unary _ op x, _, _, given => by
    rw [Expr.results] at given
    obtain ⟨_, inner, outer⟩ := given
    rw [UnOp.target?_of_results outer, Expr.target?_of_results x inner, Expr.target?]
  | .binary .., _, _, given => by
    rw [Expr.results] at given
    obtain ⟨_, _, _, _, _, _, rfl⟩ := given
    rfl

theorem UnOp.snd_of_results {op : UnOp} {v : Operand} {out : Operand × Valuation} (steady : op.counts = false)
    (given : out ∈ op.results v σ) : out.2 = σ := by
  rcases results_cases given with ⟨_, c, rfl⟩ | ⟨counts, _⟩
  · rfl
  · cases counts.symm.trans steady

theorem Expr.snd_of_results : ∀ (e : Expr) {σ out}, e.isPure = true → out ∈ e.results w σ → out.2 = σ
  | .missing, _, _, _, given => by
    rw [Expr.results] at given
    cases given
  | .var .., _, _, _, given => by
    rw [Expr.results] at given
    cases given
    rfl
  | .literal _, _, _, _, given => by
    rw [Expr.results] at given
    obtain ⟨_, _, rfl⟩ := given
    rfl
  | .call .., _, _, pure, _ => by cases pure
  | .unary _ op x, _, _, pure, given => by
    rw [Expr.isPure, Bool.and_eq_true, Bool.not_eq_true'] at pure
    rw [Expr.results] at given
    obtain ⟨_, inner, outer⟩ := given
    rw [UnOp.snd_of_results pure.1 outer, Expr.snd_of_results x pure.2 inner]
  | .binary _ _ l r, _, _, pure, given => by
    rw [Expr.isPure, Bool.and_eq_true] at pure
    rw [Expr.results] at given
    obtain ⟨_, first, _, second, _, _, rfl⟩ := given
    rw [Expr.snd_of_results r pure.2 second, Expr.snd_of_results l pure.1 first]

theorem Expr.snd_of_listResults {xs : List Expr} {out : List Operand × Valuation} (pure : xs.all Expr.isPure = true)
    (given : out ∈ Expr.listResults w xs σ) : out.2 = σ := by
  induction xs generalizing σ out with
  | nil =>
    rw [Expr.listResults] at given
    cases given
    rfl
  | cons x xs ih =>
    rw [List.all_cons, Bool.and_eq_true] at pure
    rw [Expr.listResults] at given
    obtain ⟨_, first, _, others, rfl⟩ := given
    rw [ih pure.2 others, Expr.snd_of_results x pure.1 first]

theorem Operand.read_later {e : Expr} {out : Operand × Valuation} (given : out ∈ e.results w σ)
    (steady : e.target? = none ∨ σ' = out.2) : out.1.read σ' = out.1.read out.2 := by
  rcases steady with isValue | same
  · have none := Expr.target?_of_results e given
    rw [isValue] at none
    rcases held : out.1 with c | x
    · rfl
    · rw [held] at none
      cases none
  · rw [same]

mutual

/-- An expression has the values that it would have if its operands were read at once. -/
theorem Expr.values_eq_byValue : ∀ (e : Expr), e.isSteady = true → ∀ σ, e.values w σ = e.byValue w σ
  | .missing, _, σ => by
    rw [Expr.values, Expr.results, Expr.byValue]
    simp [andThen]
  | .var .., _, σ => by
    rw [Expr.values, Expr.results, Expr.byValue, andThen_singleton]
    rfl
  | .literal l, _, σ => by
    rw [Expr.values, Expr.results, Expr.byValue]
    ext out
    simp [andThen]
  | .call _ callee xs, steady, σ => by
    rw [Expr.isSteady] at steady
    rw [Expr.values, Expr.results, Expr.byValue, ← Expr.listResults_eq_byValue xs steady, andThen_assoc, andThen_assoc]
    apply andThen_congr
    intro out _
    rw [andThen_singleton]
    ext final
    simp [andThen]
  | .unary _ op x, steady, σ => by
    rw [Expr.isSteady] at steady
    rw [Expr.values, Expr.results, Expr.byValue, ← Expr.values_eq_byValue x steady, Expr.values, andThen_assoc, andThen_assoc]
    apply andThen_congr
    intro out given
    rw [andThen_singleton, UnOp.apply_eq, Expr.target?_of_results x given]
  | .binary _ op l r, steady, σ => by
    rw [Expr.isSteady, Bool.and_eq_true, Bool.and_eq_true, Bool.or_eq_true, Option.isNone_iff_eq_none] at steady
    obtain ⟨⟨steadyLeft, steadyRight⟩, late⟩ := steady
    rw [Expr.values, Expr.results, Expr.byValue, ← Expr.values_eq_byValue l steadyLeft, Expr.values, andThen_assoc, andThen_assoc]
    apply andThen_congr
    intro left given
    rw [andThen_singleton]
    dsimp only
    rw [← Expr.values_eq_byValue r steadyRight, Expr.values, andThen_assoc, andThen_assoc]
    apply andThen_congr
    intro right behind
    have same : left.1.read right.2 = left.1.read left.2 :=
      Operand.read_later given (late.imp_right fun pure => Expr.snd_of_results r pure behind)
    rw [andThen_singleton, same]
    ext out
    simp [andThen]

theorem Expr.listResults_eq_byValue : ∀ (xs : List Expr), Expr.allSteady xs = true → ∀ σ,
    andThen (Expr.listResults w xs σ) (fun (vs, σ) => {(vs.map (Operand.read σ), σ)}) = Expr.listByValue w xs σ
  | [], _, σ => by
    rw [Expr.listResults, Expr.listByValue, andThen_singleton]
    rfl
  | x :: xs, steady, σ => by
    rw [Expr.allSteady, Bool.and_eq_true, Bool.and_eq_true, Bool.or_eq_true, Option.isNone_iff_eq_none] at steady
    obtain ⟨⟨steadyFirst, steadyOthers⟩, late⟩ := steady
    rw [Expr.listResults, Expr.listByValue, ← Expr.values_eq_byValue x steadyFirst, Expr.values, andThen_assoc, andThen_assoc]
    apply andThen_congr
    intro first given
    rw [andThen_singleton]
    dsimp only
    rw [← Expr.listResults_eq_byValue xs steadyOthers, andThen_assoc, andThen_assoc]
    apply andThen_congr
    intro others behind
    have same : first.1.read others.2 = first.1.read first.2 :=
      Operand.read_later given (late.imp_right fun pure => Expr.snd_of_listResults pure behind)
    rw [andThen_singleton, andThen_singleton, List.map_cons, same]

end

end MiniC.Source
