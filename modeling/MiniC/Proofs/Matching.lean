import Mathlib.Algebra.Ring.Int.Defs
import Mathlib.Algebra.Ring.Nat
import Mathlib.Data.Set.Insert

/-!
Computations that may end in several ways, as sets of what they end with. Two of them match if every
end of either has a related end of the other, so that one induction serves both directions of a
simulation.
-/

namespace MiniC

variable {α β γ δ : Type}

/-- The ends of `next` after those of `first`. -/
def andThen (first : Set α) (next : α → Set β) : Set β :=
  {b | ∃ a ∈ first, b ∈ next a}

/-- Each end of either set has a related one in the other. -/
def Matches (R : α → β → Prop) (X : Set α) (Y : Set β) : Prop :=
  (∀ a ∈ X, ∃ b ∈ Y, R a b) ∧ ∀ b ∈ Y, ∃ a ∈ X, R a b

theorem andThen_assoc (X : Set α) (f : α → Set β) (g : β → Set γ) :
    andThen (andThen X f) g = andThen X fun a => andThen (f a) g := by
  ext c
  constructor
  · rintro ⟨b, ⟨a, first, second⟩, third⟩
    exact ⟨a, first, b, second, third⟩
  · rintro ⟨a, first, b, second, third⟩
    exact ⟨b, ⟨a, first, second⟩, third⟩

@[simp] theorem andThen_singleton (a : α) (f : α → Set β) : andThen {a} f = f a := by
  ext b
  simp [andThen]

theorem andThen_congr {X : Set α} {f g : α → Set β} (same : ∀ a ∈ X, f a = g a) : andThen X f = andThen X g := by
  ext b
  apply exists_congr
  intro a
  apply and_congr_right
  intro inside
  rw [same a inside]

namespace Matches

variable {R : α → β → Prop} {Q : γ → δ → Prop} {X : Set α} {Y : Set β}

theorem andThen {f : α → Set γ} {g : β → Set δ} (first : Matches R X Y)
    (next : ∀ a b, R a b → Matches Q (f a) (g b)) : Matches Q (andThen X f) (andThen Y g) := by
  constructor
  · rintro c ⟨a, left, second⟩
    obtain ⟨b, right, related⟩ := first.1 a left
    obtain ⟨d, found, final⟩ := (next a b related).1 c second
    exact ⟨d, ⟨b, right, found⟩, final⟩
  · rintro d ⟨b, right, second⟩
    obtain ⟨a, left, related⟩ := first.2 b right
    obtain ⟨c, found, final⟩ := (next a b related).2 d second
    exact ⟨c, ⟨a, left, found⟩, final⟩

theorem singleton {a : α} {b : β} (related : R a b) : Matches R {a} {b} := by
  constructor
  · rintro _ rfl
    exact ⟨b, rfl, related⟩
  · rintro _ rfl
    exact ⟨a, rfl, related⟩

theorem images {C : Set γ} {f : γ → α} {g : γ → β} (related : ∀ c ∈ C, R (f c) (g c)) :
    Matches R {a | ∃ c ∈ C, a = f c} {b | ∃ c ∈ C, b = g c} := by
  constructor
  · rintro _ ⟨c, chosen, rfl⟩
    exact ⟨g c, ⟨c, chosen, rfl⟩, related c chosen⟩
  · rintro _ ⟨c, chosen, rfl⟩
    exact ⟨f c, ⟨c, chosen, rfl⟩, related c chosen⟩

theorem map {f : α → γ} {Q : γ → β → Prop} (matched : Matches R X Y)
    (related : ∀ a b, R a b → Q (f a) b) : Matches Q (MiniC.andThen X fun a => {f a}) Y := by
  constructor
  · rintro _ ⟨a, left, rfl⟩
    obtain ⟨b, right, relates⟩ := matched.1 a left
    exact ⟨b, right, related a b relates⟩
  · intro b right
    obtain ⟨a, left, relates⟩ := matched.2 b right
    exact ⟨f a, ⟨a, left, rfl⟩, related a b relates⟩

theorem trans {Q : β → γ → Prop} {Z : Set γ} (first : Matches R X Y) (second : Matches Q Y Z) :
    Matches (fun a c => ∃ b, R a b ∧ Q b c) X Z := by
  constructor
  · intro a left
    obtain ⟨b, middle, related⟩ := first.1 a left
    obtain ⟨c, right, related'⟩ := second.1 b middle
    exact ⟨c, right, b, related, related'⟩
  · intro c right
    obtain ⟨b, middle, related'⟩ := second.2 c right
    obtain ⟨a, left, related⟩ := first.2 b middle
    exact ⟨a, left, b, related, related'⟩

theorem mono {R' : α → β → Prop} (matched : Matches R X Y)
    (weaker : ∀ a ∈ X, ∀ b ∈ Y, R a b → R' a b) : Matches R' X Y := by
  constructor
  · intro a left
    obtain ⟨b, right, related⟩ := matched.1 a left
    exact ⟨b, right, weaker a left b right related⟩
  · intro b right
    obtain ⟨a, left, related⟩ := matched.2 b right
    exact ⟨a, left, weaker a left b right related⟩

end Matches

end MiniC
