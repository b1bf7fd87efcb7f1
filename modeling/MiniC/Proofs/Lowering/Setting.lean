import MiniC.Proofs.Source.Meaning

namespace MiniC

namespace Valuation

variable {σ τ : Valuation} {x : Name} {w : Word} {values : UserValuation}

theorem apply_of_user (same : τ.user = σ.user) (written : Name.isGenerated x = false) : τ x = σ x :=
  congrFun same ⟨x, written⟩

theorem user_set (same : τ.user = σ.user) (x : Name) (w : Word) : (τ.set x w).user = (σ.set x w).user := by
  funext y
  have agree := congrFun same y
  simp only [user, set, Function.update_apply] at *
  split
  · rfl
  · exact agree

theorem user_set_generated (generated : Name.isGenerated x = true) (σ : Valuation) (w : Word) :
    (σ.set x w).user = σ.user := by
  funext y
  have other : y.1 ≠ x := by
    intro same
    have written := y.2
    rw [same, generated] at written
    cases written
  simp [user, set, other]

@[simp] theorem set_same (σ : Valuation) (x : Name) (w : Word) : σ.set x w x = w := by
  simp [set]

theorem set_other {y : Name} (other : y ≠ x) (σ : Valuation) (w : Word) : σ.set x w y = σ y := by
  simp [set, other]

@[simp] theorem user_withUser (σ : Valuation) (values : UserValuation) : (σ.withUser values).user = values := by
  funext y
  simp [user, withUser, y.2]

theorem withUser_generated (generated : Name.isGenerated x = true) (σ : Valuation) (values : UserValuation) :
    σ.withUser values x = σ x := by
  simp [withUser, generated]

end Valuation

/-- The words that a constant of code may stand for. -/
def Code.Value.words (w : World) : Value → Set Word
  | .int value => {value.toBitVec}
  | .char value => {value.toBitVec.setWidth 64}
  | .str value => w.string value
  | .symbol _ => ∅

def World.setting (w : World) : Code.Setting Valuation where
  read σ x := some (σ x)
  write σ x v := some (σ.set x v)
  constant _ _ value := value.words w
  transfer _ _ _ := none
  call σ callee args :=
    {out | ∃ values, (out.1, values) ∈ w.call callee args σ.user ∧ out.2 = σ.withUser values}

namespace World

open Code

variable (w : World) (i : Nat) (τ : Valuation)

theorem nexts_store (dest : Name) (value : Value) :
    w.setting.language.nexts i (.plain (.store dest (some value))) τ = {τ' | ∃ c ∈ value.words w, τ' = τ.set dest c} := by
  ext τ'
  constructor
  · rintro ⟨_, acts⟩
    cases acts with
    | store allowed written => exact ⟨_, allowed, (Option.some.inj written).symm⟩
  · rintro ⟨c, allowed, rfl⟩
    exact ⟨_, .store allowed rfl⟩

theorem nexts_binary (op : BinOp) (dest left right : Name) :
    w.setting.language.nexts i (.plain (.binary op dest left right)) τ =
      {τ' | ∃ c, op.eval? (τ left) (τ right) = some c ∧ τ' = τ.set dest c} := by
  ext τ'
  constructor
  · rintro ⟨_, acts⟩
    cases acts with
    | binary readLeft readRight value written =>
      cases readLeft
      cases readRight
      exact ⟨_, value, (Option.some.inj written).symm⟩
  · rintro ⟨c, value, rfl⟩
    exact ⟨_, .binary rfl rfl value rfl⟩

theorem nexts_unary (op : UnOp) (dest arg : Name) :
    w.setting.language.nexts i (.plain (.unary op dest arg)) τ =
      {τ' | ∃ c, op.eval? (τ arg) = some c ∧ τ' = τ.set dest c} := by
  ext τ'
  constructor
  · rintro ⟨_, acts⟩
    cases acts with
    | unary readArg value written =>
      cases readArg
      exact ⟨_, value, (Option.some.inj written).symm⟩
  · rintro ⟨c, value, rfl⟩
    exact ⟨_, .unary rfl value rfl⟩

theorem mapM_read (args : List Name) : args.mapM (w.setting.read τ) = some (args.map τ) := by
  induction args with
  | nil => rfl
  | cons arg args ih =>
    rw [List.mapM_cons, ih]
    rfl

theorem nexts_call (callee : Name) (args : List Name) {result : Name} (kept : result ≠ []) :
    w.setting.language.nexts i (.plain (.call callee args result)) τ =
      {τ' | ∃ returned ∈ w.call callee (args.map τ) τ.user,
        τ' = (τ.withUser returned.2).set result returned.1} := by
  ext τ'
  constructor
  · rintro ⟨_, acts⟩
    cases acts with
    | call readArgs called written =>
      rw [mapM_read] at readArgs
      cases readArgs
      obtain ⟨values, returned, rfl⟩ := called
      rw [Setting.keep, if_neg kept] at written
      exact ⟨(_, values), returned, (Option.some.inj written).symm⟩
  · rintro ⟨⟨c, values⟩, returned, rfl⟩
    refine ⟨_, .call (mapM_read w τ args) ⟨values, returned, rfl⟩ ?_⟩
    rw [Setting.keep, if_neg kept]
    rfl

end World

end MiniC
