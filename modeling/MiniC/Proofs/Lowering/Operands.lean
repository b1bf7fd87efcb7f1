import MiniC.Proofs.Lowering.Outcome
import MiniC.Proofs.Lowering.Setting
import Mathlib.Data.List.Forall2

namespace MiniC.Code.OfSource

open Source (Expr Operand)

section

variable (w : World) (start : Namer)

/-- The name `x` stands for an operand: a variable for itself, a temporary for its value. -/
def Holds (a b : Nat) (τ : Valuation) (x : Name) (v : Operand) : Prop :=
  (v = .variable x ∧ Name.isGenerated x = false) ∨
    ∃ j, a < j ∧ j ≤ b ∧ x = start.made Name.temporary j ∧ v = .value (τ x)

/-- The temporaries up to number `a` are the same. -/
def Keeps (a : Nat) (τ τ' : Valuation) : Prop :=
  ∀ j ≤ a, τ' (start.made Name.temporary j) = τ (start.made Name.temporary j)

/-- The variables after an expression and after its code, and what the expression gives. -/
structure Agrees (a b : Nat) (x : Name) (τ : Valuation) (out : Operand × Valuation) (τ' : Valuation) :
    Prop where
  user : τ'.user = out.2.user
  holds : Holds start a b τ' x out.1
  keeps : Keeps start a τ τ'

structure ExprCode (a : Nat) (e : Expr) (code : List Stmt) (x : Name) (b : Nat) : Prop where
  lower : a ≤ b
  upper : b ≤ a + code.length
  straight : ∀ stmt ∈ code, stmt.IsStraight
  runs : b < 2 ^ 64 → ∀ i σ τ, τ.user = σ.user →
    Matches (Agrees start a b x τ) (e.results w σ) (w.setting.language.flows i code τ)

def Lowers (e : Expr) : Prop :=
  ∀ a code x names, expr e (start.after a) = .ok ((code, x), names) →
    ∃ b, names = start.after b ∧ ExprCode w start a e code x b

end

variable {w : World} {start : Namer} {a b c : Nat} {x y : Name} {v u : Operand} {σ τ τ' τ'' : Valuation}

theorem Holds.read (holds : Holds start a b τ x v) (same : τ.user = σ.user) : v.read σ = τ x := by
  rcases holds with ⟨rfl, written⟩ | ⟨j, _, _, _, rfl⟩
  · exact (Valuation.apply_of_user same written).symm
  · rfl

theorem Holds.read_all {xs : List Name} {vs : List Operand} (held : List.Forall₂ (Holds start a b τ) xs vs)
    (same : τ.user = σ.user) : vs.map (Operand.read σ) = xs.map τ := by
  induction held with
  | nil => rfl
  | cons holds _ ih => rw [List.map_cons, List.map_cons, holds.read same, ih]

theorem Holds.mono (holds : Holds start a b τ x v) (more : b ≤ c) (keeps : Keeps start b τ τ') :
    Holds start a c τ' x v := by
  rcases holds with ⟨rfl, written⟩ | ⟨j, above, below, rfl, rfl⟩
  · exact .inl ⟨rfl, written⟩
  · refine .inr ⟨j, above, by omega, rfl, ?_⟩
    rw [keeps j below]

theorem Holds.below (holds : Holds start b c τ x v) (less : a ≤ b) : Holds start a c τ x v := by
  rcases holds with itself | ⟨j, above, below, made, value⟩
  · exact .inl itself
  · exact .inr ⟨j, by omega, below, made, value⟩

theorem Keeps.refl (start : Namer) (a : Nat) (τ : Valuation) : Keeps start a τ τ :=
  fun _ _ => rfl

theorem Keeps.trans (first : Keeps start a τ τ') (second : Keeps start b τ' τ'') (less : a ≤ b) :
    Keeps start a τ τ'' :=
  fun j below => (second j (by omega)).trans (first j below)

theorem Keeps.set {j : Nat} (keeps : Keeps start a τ τ') (new : a < j) (bound : j < 2 ^ 64) (value : Word) :
    Keeps start a τ (τ'.set (start.made Name.temporary j) value) := by
  intro i below
  have other : start.made Name.temporary i ≠ start.made Name.temporary j := by
    intro same
    have equal := Namer.made_injective (by omega) bound same
    omega
  rw [Valuation.set_other other]
  exact keeps i below

theorem Keeps.set_user (keeps : Keeps start a τ τ') (written : Name.isGenerated x = false) (value : Word) :
    Keeps start a τ (τ'.set x value) := by
  intro i below
  have other : start.made Name.temporary i ≠ x := (Name.ne_generated written _ _).symm
  rw [Valuation.set_other other]
  exact keeps i below

theorem Agrees.set {j : Nat} {out : Operand × Valuation} (agrees : τ'.user = σ.user) (keeps : Keeps start a τ τ')
    (new : a < j) (last : j ≤ b) (bound : b < 2 ^ 64) (value : Word) (result : out = (.value value, σ)) :
    Agrees start a b (start.made Name.temporary j) τ out (τ'.set (start.made Name.temporary j) value) := by
  subst result
  refine ⟨?_, .inr ⟨j, new, last, rfl, by rw [Valuation.set_same]⟩, keeps.set new (by omega) value⟩
  rw [Valuation.user_set_generated (Namer.isGenerated_made _ _ _), agrees]

theorem dest_ok {res : Name} {names : Namer} (ok : dest x (start.after b) = .ok (res, names)) :
    ∃ c, names = start.after c ∧ b ≤ c ∧ c ≤ b + 1 ∧
      ∀ {a τ v}, a ≤ b → Holds start a b τ x v →
        ∃ j, a < j ∧ j ≤ c ∧ res = start.made Name.temporary j := by
  unfold dest at ok
  split at ok
  · rename_i generated
    obtain ⟨rfl, rfl⟩ := pure_ok.1 ok
    refine ⟨b, rfl, le_refl _, by omega, ?_⟩
    rintro a τ v _ (⟨_, written⟩ | ⟨j, above, below, made, _⟩)
    · rw [generated] at written
      cases written
    · exact ⟨j, above, below, made⟩
  · rw [fresh_ok, Namer.fresh_after] at ok
    obtain ⟨rfl, rfl⟩ := Prod.mk.inj ok
    exact ⟨b + 1, rfl, by omega, le_refl _, fun less _ => ⟨b + 1, by omega, le_refl _, rfl⟩⟩

end MiniC.Code.OfSource
