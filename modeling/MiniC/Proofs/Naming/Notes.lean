import MiniC.Code.Operands
import MiniC.Proofs.GeneratedNames

namespace MiniC

def Storage.Location.names : Location → List Name
  | .memory label _ => [label]
  | _ => []

def Storage.Layout.names (l : Layout) : List Name :=
  l.vars.map (·.1) ++ l.slots.map (·.name)

namespace Code

/-- The labels, functions, globals and places that an action refers to. -/
def Action.refers : Action → List Name
  | .jump target | .branch _ _ target => [target]
  | .call callee _ _ => [callee]
  | .store _ (some (.symbol name)) => [name]
  | .move src dst => src.names ++ dst.names
  | _ => []

def Stmt.names (s : Stmt) : List Name :=
  s.label :: (s.action.inputs ++ s.action.outputs) ++ s.action.refers

def Function.names (f : Function) : List Name :=
  f.name :: f.params.map (·.name) ++ f.body.flatMap Stmt.names ++ f.layout.elim [] Storage.Layout.names

theorem Function.forall_names {f : Function} {P : Name → Prop} :
    (∀ x ∈ f.names, P x) ↔ P f.name ∧ (∀ p ∈ f.params, P p.name) ∧ (∀ s ∈ f.body, ∀ x ∈ s.names, P x) ∧
      ∀ l ∈ f.layout, ∀ x ∈ l.names, P x := by
  have inLayout : (∀ x ∈ f.layout.elim [] Storage.Layout.names, P x) ↔ ∀ l ∈ f.layout, ∀ x ∈ l.names, P x := by
    cases f.layout <;> simp
  simp only [names, List.forall_mem_append, List.forall_mem_cons, List.forall_mem_map, List.mem_flatMap,
    forall_exists_index, and_imp, inLayout, and_assoc]
  grind

inductive Note
  | makes (name : Name)
  | writes (s : Stmt)
  | declares (g : Global)

namespace Note

/-- The names that are in the program because of a note. -/
def names : Note → List Name
  | .makes name => [name]
  | .writes s => s.names
  | .declares g => [g.name]

def made : List Note → List Name
  | [] => []
  | .makes name :: notes => name :: made notes
  | _ :: notes => made notes

def written : List Note → List Stmt
  | [] => []
  | .writes s :: notes => s :: written notes
  | _ :: notes => written notes

theorem written_append (first second : List Note) : written (first ++ second) = written first ++ written second := by
  induction first with
  | nil => rfl
  | cons note first ih => cases note <;> simp [written, ih]

theorem mem_written {s : Stmt} {notes : List Note} : s ∈ written notes ↔ .writes s ∈ notes := by
  induction notes with
  | nil => simp [written]
  | cons note notes ih => cases note <;> simp [written, ih]

end Note

/-- A name that is not generated, or one of the first `a` names that were made. Its number is in `own`, or it is the
name of a string. -/
def Known (start : Namer) (own : Nat → Prop) (x : Name) (a : Nat) : Prop :=
  Name.isGenerated x = false ∨
    ∃ kind ∈ Name.kinds, ∃ j, j ≤ a ∧ (kind = Name.string ∨ own j) ∧ x = start.made kind j

variable {start : Namer} {own own' : Nat → Prop} {a b c : Nat}

namespace Known

variable {x : Name}

theorem mono (le : a ≤ b) (known : Known start own x a) : Known start own x b := by
  refine known.imp_right ?_
  rintro ⟨kind, isKind, j, below, owned, rfl⟩
  exact ⟨kind, isKind, j, by omega, owned, rfl⟩

theorem imp (wider : ∀ j, j ≤ a → own j → own' j) (known : Known start own x a) : Known start own' x a := by
  refine known.imp_right ?_
  rintro ⟨kind, isKind, j, below, owned, rfl⟩
  exact ⟨kind, isKind, j, below, owned.imp_right (wider j below), rfl⟩

theorem nil : Known start own [] a :=
  .inl rfl

theorem apart (known : Known start own x a) (known' : Known start own' x b) (small : a < 2 ^ 64) (small' : b < 2 ^ 64)
    (disjoint : ∀ j, j ≤ a → j ≤ b → own j → ¬ own' j) :
    Name.isGenerated x = false ∨ ∃ n, x = Name.generated Name.string n := by
  rcases known with user | ⟨kind, isKind, j, below, owned, rfl⟩
  · exact .inl user
  rcases known' with user | ⟨kind', isKind', j', below', owned', same⟩
  · exact .inl user
  obtain rfl := Name.kind_injective isKind isKind' same
  obtain rfl := Namer.made_injective (by omega) (by omega) same
  rcases owned with rfl | owned
  · exact .inr ⟨_, rfl⟩
  rcases owned' with rfl | owned'
  · exact .inr ⟨_, rfl⟩
  · exact absurd owned' (disjoint j below below' owned)

end Known

theorem known_stmt {s : Stmt} (label : Known start own s.label a)
    (action : ∀ x ∈ s.action.inputs ++ s.action.outputs ++ s.action.refers, Known start own x a) :
    ∀ x ∈ s.names, Known start own x a := by
  intro x member
  rcases List.mem_cons.1 member with rfl | member
  · exact label
  · exact action x member

theorem not_known_made {kind : Bytes} (isKind : kind ∈ Name.kinds) (small : a + 1 < 2 ^ 64) :
    ¬ Known start own (start.made kind (a + 1)) a := by
  rintro (user | ⟨kind', isKind', j, below, _, same⟩)
  · rw [Namer.isGenerated_made] at user
    cases user
  · obtain rfl := Name.kind_injective isKind isKind' same
    have equal := Namer.made_injective small (by omega) same
    omega

/-- Notes from a count of `a` names to a count of `b`: names are made in their order, and all others are known. -/
inductive Orderly (start : Namer) (own : Nat → Prop) : Nat → List Note → Nat → Prop
  | nil {a : Nat} : Orderly start own a [] a
  | makes {a b : Nat} {kind : Bytes} {notes : List Note} : kind ∈ Name.kinds → kind = Name.string ∨ own (a + 1) →
    Orderly start own (a + 1) notes b → Orderly start own a (.makes (start.made kind (a + 1)) :: notes) b
  | writes {a b : Nat} {s : Stmt} {notes : List Note} : (∀ x ∈ s.names, Known start own x a) →
    Orderly start own a notes b → Orderly start own a (.writes s :: notes) b
  | declares {a b : Nat} {g : Global} {notes : List Note} : Known start own g.name a →
    Orderly start own a notes b → Orderly start own a (.declares g :: notes) b

namespace Orderly

variable {notes first second : List Note}

theorem append (left : Orderly start own a first b) (right : Orderly start own b second c) :
    Orderly start own a (first ++ second) c := by
  induction left with
  | nil => exact right
  | makes isKind owned _ ih => exact .makes isKind owned (ih right)
  | writes known _ ih => exact .writes known (ih right)
  | declares known _ ih => exact .declares known (ih right)

theorem count (orderly : Orderly start own a notes b) : b = a + (Note.made notes).length := by
  induction orderly with
  | nil => rfl
  | makes _ _ _ ih =>
    rw [Note.made, List.length_cons]
    omega
  | writes _ _ ih | declares _ _ ih => exact ih

theorem numbered (orderly : Orderly start own a notes b) {k : Nat} {name : Name}
    (found : (Note.made notes)[k]? = some name) : ∃ kind ∈ Name.kinds, name = start.made kind (a + k + 1) := by
  induction orderly generalizing k with
  | nil => cases found
  | @makes a _ kind _ isKind _ _ ih =>
    cases k with
    | zero =>
      cases found
      exact ⟨kind, isKind, rfl⟩
    | succ k =>
      obtain ⟨kind', isKind', same⟩ := ih found
      exact ⟨kind', isKind', by rw [same, Nat.add_assoc a 1, Nat.add_comm 1]⟩
  | writes _ _ ih | declares _ _ ih => exact ih found

theorem le (orderly : Orderly start own a notes b) : a ≤ b := by
  have count := orderly.count
  omega

theorem imp (wider : ∀ j, j ≤ b → own j → own' j) (orderly : Orderly start own a notes b) :
    Orderly start own' a notes b := by
  induction orderly with
  | nil => exact .nil
  | makes isKind owned rest ih => exact .makes isKind (owned.imp_right (wider _ rest.le)) (ih wider)
  | writes known rest ih =>
    have le := rest.le
    exact .writes (fun x member => (known x member).imp fun j below => wider j (by omega)) (ih wider)
  | declares known rest ih =>
    have le := rest.le
    exact .declares (known.imp fun j below => wider j (by omega)) (ih wider)

theorem known (orderly : Orderly start own a notes b) : ∀ x ∈ notes.flatMap Note.names, Known start own x b := by
  induction orderly with
  | nil => exact fun _ never => nomatch never
  | makes isKind owned rest ih =>
    intro x member
    rcases List.mem_append.1 member with here | there
    · rw [List.mem_singleton.1 here]
      exact .inr ⟨_, isKind, _, rest.le, owned, rfl⟩
    · exact ih x there
  | writes known rest ih =>
    intro x member
    rcases List.mem_append.1 member with here | there
    · exact (known x here).mono rest.le
    · exact ih x there
  | declares known rest ih =>
    intro x member
    rcases List.mem_append.1 member with here | there
    · rw [List.mem_singleton.1 here]
      exact known.mono rest.le
    · exact ih x there

theorem split (orderly : Orderly start own a (first ++ second) c) :
    ∃ b, Orderly start own a first b ∧ Orderly start own b second c := by
  induction first generalizing a with
  | nil => exact ⟨a, .nil, orderly⟩
  | cons note first ih =>
    cases orderly with
    | makes isKind owned rest =>
      obtain ⟨b, before, behind⟩ := ih rest
      exact ⟨b, .makes isKind owned before, behind⟩
    | writes known rest =>
      obtain ⟨b, before, behind⟩ := ih rest
      exact ⟨b, .writes known before, behind⟩
    | declares known rest =>
      obtain ⟨b, before, behind⟩ := ih rest
      exact ⟨b, .declares known before, behind⟩

theorem fresh {name : Name} (orderly : Orderly start own a (first ++ .makes name :: second) c) (small : c < 2 ^ 64) :
    (∃ kind ∈ Name.kinds, ∃ n, name = Name.generated kind n) ∧ name ∉ first.flatMap Note.names := by
  obtain ⟨b, before, behind⟩ := orderly.split
  cases behind with
  | makes isKind owned rest =>
    have le := rest.le
    refine ⟨⟨_, isKind, _, rfl⟩, fun member => ?_⟩
    exact not_known_made isKind (by omega) (before.known _ member)

end Orderly

/-- Functions with numbers of their own, up to a count of `b`, beside those that they had before. -/
structure Shares (start : Namer) (old : Nat → Nat → Prop) (a b : Nat) (gs : List Function) (spans : Nat → Nat → Prop) :
    Prop where
  within : ∀ {i n}, spans i n → a < n ∧ n ≤ b
  apart : ∀ {i j n}, spans i n → spans j n → i = j
  known : ∀ {i g}, gs[i]? = some g → ∀ x ∈ g.names, Known start (fun n => old i n ∨ spans i n) x b

namespace Shares

def consSpans (a b : Nat) (spans : Nat → Nat → Prop) : Nat → Nat → Prop
  | 0, n => a < n ∧ n ≤ b
  | i + 1, n => spans i n

variable {old spans : Nat → Nat → Prop} {g : Function} {gs : List Function}

theorem nil (start : Namer) (old : Nat → Nat → Prop) (a : Nat) : Shares start old a a [] fun _ _ => False :=
  ⟨False.elim, False.elim, nofun⟩

theorem cons (first : ∀ x ∈ g.names, Known start (fun n => old 0 n ∨ a < n) x b) (le : a ≤ b) (le' : b ≤ c)
    (rest : Shares start (fun i => old (i + 1)) b c gs spans) :
    Shares start old a c (g :: gs) (consSpans a b spans) where
  within {i n} spanned := by
    cases i with
    | zero => exact ⟨spanned.1, by have below := spanned.2; omega⟩
    | succ i => exact ⟨by have above := (rest.within spanned).1; omega, (rest.within spanned).2⟩
  apart {i j n} spanned spanned' := by
    cases i with
    | zero =>
      cases j with
      | zero => rfl
      | succ j => exact absurd (rest.within spanned').1 (by have below := spanned.2; omega)
    | succ i =>
      cases j with
      | zero => exact absurd (rest.within spanned).1 (by have below := spanned'.2; omega)
      | succ j => rw [rest.apart spanned spanned']
  known {i g'} found := by
    cases i with
    | zero =>
      cases found
      exact fun x member => ((first x member).imp fun n below => Or.imp_right fun above => ⟨above, below⟩).mono le'
    | succ i => exact rest.known found

theorem alone (shares : Shares start (fun _ _ => False) a b gs spans) {i : Nat} (found : gs[i]? = some g) :
    ∀ x ∈ g.names, Known start (spans i) x b :=
  fun x member => (shares.known found x member).imp fun _ _ spanned => spanned.resolve_left id

theorem owner_unique {old' spans' : Nat → Nat → Prop} {hs : List Function} (first : Shares start old a b gs spans)
    (second : Shares start old' b c hs spans') {i j n : Nat} (spanned : spans i n ∨ spans' i n)
    (spanned' : spans j n ∨ spans' j n) : i = j := by
  rcases spanned with early | late <;> rcases spanned' with early' | late'
  · exact first.apart early early'
  · exact absurd (second.within late').1 (Nat.not_lt.2 (first.within early).2)
  · exact absurd (second.within late).1 (Nat.not_lt.2 (first.within early').2)
  · exact second.apart late late'

end Shares

end Code

end MiniC
