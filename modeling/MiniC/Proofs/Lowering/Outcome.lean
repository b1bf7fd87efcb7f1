import MiniC.Code.OfSource
import MiniC.Proofs.GeneratedNames

namespace MiniC.Code.OfSource

variable {α β : Type} {names names' : Namer}

theorem bind_ok {x : Lower α} {f : α → Lower β} {b : β} :
    (x >>= f) names = .ok (b, names') ↔ ∃ a mid, x names = .ok (a, mid) ∧ f a mid = .ok (b, names') := by
  constructor
  · intro ok
    change (x names >>= fun p => f p.1 p.2) = .ok (b, names') at ok
    cases first : x names with
    | error e => rw [first] at ok; cases ok
    | ok p =>
      rw [first] at ok
      exact ⟨p.1, p.2, rfl, ok⟩
  · rintro ⟨a, mid, first, second⟩
    change (x names >>= fun p => f p.1 p.2) = .ok (b, names')
    rw [first]
    exact second

theorem pure_ok {a b : α} : (pure a : Lower α) names = .ok (b, names') ↔ a = b ∧ names = names' := by
  constructor
  · intro ok
    cases ok
    exact ⟨rfl, rfl⟩
  · rintro ⟨rfl, rfl⟩
    rfl

theorem fresh_ok {kind : Bytes} {name : Name} :
    fresh kind names = .ok (name, names') ↔ names.fresh kind = (name, names') := by
  constructor
  · intro ok
    cases ok
    rfl
  · intro made
    change Except.ok (names.fresh kind) = _
    rw [made]

theorem fresh_bind (kind : Bytes) (f : Name → Lower α) (start : Namer) (a : Nat) :
    (fresh kind >>= f) (start.after a) = f (start.made kind (a + 1)) (start.after (a + 1)) := by
  change f ((start.after a).fresh kind).1 ((start.after a).fresh kind).2 = _
  rw [Namer.fresh_after]

theorem inside_ok {step : Step} {x : Lower α} {a : α} :
    inside step x names = .ok (a, names') ↔ x names = .ok (a, names') := by
  unfold inside within
  cases x names with
  | error e => simp [Except.mapError]
  | ok p => simp [Except.mapError]

theorem refuse_ok {cause : Cause} {a : α} : ¬ refuse cause names = .ok (a, names') := by
  intro ok
  cases ok

theorem lift_ok {x : Except Error α} {a : α} :
    (liftM x : Lower α) names = .ok (a, names') ↔ x = .ok a ∧ names = names' := by
  constructor
  · intro ok
    cases x with
    | error e => cases ok
    | ok b => cases ok; exact ⟨rfl, rfl⟩
  · rintro ⟨rfl, rfl⟩
    rfl

def Ensures {α : Type} (x : Lower α) (Q : α → Prop) : Prop :=
  ∀ names a names', x names = .ok (a, names') → Q a

namespace Ensures

variable {α β : Type} {Q : α → Prop} {R : β → Prop}

theorem bind {x : Lower α} {f : α → Lower β} (first : Ensures x Q) (next : ∀ a, Q a → Ensures (f a) R) :
    Ensures (x >>= f) R := by
  intro names b names' ok
  obtain ⟨a, mid, done, rest⟩ := bind_ok.1 ok
  exact next a (first _ _ _ done) _ _ _ rest

theorem pure {a : α} (holds : Q a) : Ensures (pure a) Q := by
  intro names b names' ok
  obtain ⟨rfl, _⟩ := pure_ok.1 ok
  exact holds

theorem refuse {cause : Cause} : Ensures (refuse cause) Q :=
  fun _ _ _ ok => absurd ok refuse_ok

theorem inside {step : Step} {x : Lower α} (ensures : Ensures x Q) : Ensures (inside step x) Q :=
  fun _ _ _ ok => ensures _ _ _ (inside_ok.1 ok)

theorem fresh (kind : Bytes) : Ensures (fresh kind) fun name => ∃ n, name = Name.generated kind n := by
  intro names name names' ok
  have made := fresh_ok.1 ok
  exact ⟨names.count + 1, (Prod.mk.inj made).1.symm⟩

theorem mono {x : Lower α} {Q' : α → Prop} (ensures : Ensures x Q) (weaker : ∀ a, Q a → Q' a) : Ensures x Q' :=
  fun _ _ _ ok => weaker _ (ensures _ _ _ ok)

theorem any (x : Lower α) : Ensures x fun _ => True :=
  fun _ _ _ _ => trivial

end Ensures

theorem expr_missing : expr .missing = refuse .missingExpr := by
  rw [expr]

end MiniC.Code.OfSource
