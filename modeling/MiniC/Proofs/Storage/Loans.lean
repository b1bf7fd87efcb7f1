import MiniC.Proofs.Storage.Layouts
import MiniC.Storage.Moves

/-!
Scratch registers lent to operands. Each operand that does not live in a register gets one, under a
name that was not used before, and no register is lent twice. Names are seen from a namer at the
start; `total` names are made from there on, and none of them is a name of the function.
-/

namespace MiniC.Storage

open Code

theorem lend_cases (loan : Loan) (x : Name) :
    (loan.lend x = loan ∧ ((∃ tmp, loan.lent.lookup x = some tmp) ∨ loan.lent.lookup x = none ∧
      (loan.layout.get? x = none ∨ (∃ r, loan.layout.get? x = some (.register r)) ∨ loan.pool = []))) ∨
    ∃ place r pool, loan.lent.lookup x = none ∧ loan.layout.get? x = some place ∧ (∀ r', place ≠ .register r') ∧
      loan.pool = r :: pool ∧ loan.lend x = ⟨⟨loan.names.count + 1⟩,
        loan.layout.set (Name.generated Name.scratch (loan.names.count + 1)) (.register r), pool,
        loan.lent ++ [(x, Name.generated Name.scratch (loan.names.count + 1))], loan.places ++ [(place, r)]⟩ := by
  unfold Loan.lend
  cases lent : loan.lent.lookup x with
  | some tmp => exact .inl ⟨rfl, .inl ⟨tmp, rfl⟩⟩
  | none =>
    rw [Option.isSome_none, if_neg Bool.false_ne_true]
    split
    · rename_i unplaced
      exact .inl ⟨rfl, .inr ⟨rfl, .inl unplaced⟩⟩
    · rename_i found
      exact .inl ⟨rfl, .inr ⟨rfl, .inr (.inl ⟨_, found⟩)⟩⟩
    · exact .inl ⟨rfl, .inr ⟨rfl, .inr (.inr ‹_›)⟩⟩
    · rename_i place r pool notRegister found isPool
      exact .inr ⟨place, r, pool, rfl, found, notRegister, isPool, rfl⟩

/-- A name for each loan since `a` names were made; the places of other names stay as they are. -/
structure Made (start : Namer) (a : Nat) (l : Layout) (loan : Loan) : Prop where
  names : loan.names = start.after (a + loan.places.length)
  other : ∀ {y}, (∀ j, a < j → j ≤ a + loan.places.length → y ≠ start.made Name.scratch j) →
    loan.layout.get? y = l.get? y
  slots : loan.layout.slots = l.slots

namespace Made

variable {start : Namer} {a : Nat} {l : Layout} {loan : Loan}

theorem of_start (start : Namer) (a : Nat) (l : Layout) (pool : List Register) :
    Made start a l (.start (start.after a) l pool) where
  names := rfl
  other _ := rfl
  slots := rfl

theorem lend_cases (made : Made start a l loan) (x : Name) :
    (loan.lend x = loan ∧ ((∃ tmp, loan.lent.lookup x = some tmp) ∨ loan.lent.lookup x = none ∧
      (loan.layout.get? x = none ∨ (∃ r, loan.layout.get? x = some (.register r)) ∨ loan.pool = []))) ∨
    ∃ place r pool, loan.lent.lookup x = none ∧ loan.layout.get? x = some place ∧ (∀ r', place ≠ .register r') ∧
      loan.pool = r :: pool ∧ loan.lend x = ⟨start.after (a + loan.places.length + 1),
        loan.layout.set (start.made Name.scratch (a + loan.places.length + 1)) (.register r), pool,
        loan.lent ++ [(x, start.made Name.scratch (a + loan.places.length + 1))], loan.places ++ [(place, r)]⟩ := by
  have counted : loan.names.count + 1 = (start.after (a + loan.places.length + 1)).count := by
    rw [made.names, Namer.after_succ]
  refine (Storage.lend_cases loan x).imp_right ?_
  rintro ⟨place, r, pool, isNew, found, notRegister, isPool, gives⟩
  refine ⟨place, r, pool, isNew, found, notRegister, isPool, ?_⟩
  rw [gives, counted]
  rfl

theorem lend (made : Made start a l loan) (x : Name) : Made start a l (loan.lend x) := by
  rcases made.lend_cases x with ⟨same, _⟩ | ⟨place, r, pool, _, _, _, _, gives⟩
  · rw [same]
    exact made
  · rw [gives]
    refine ⟨?_, ?_, made.slots⟩
    · rw [List.length_append]
      rfl
    · intro y others
      rw [List.length_append, List.length_singleton] at others
      rw [Layout.get?_set_other (others _ (by omega) (by omega))]
      exact made.other fun j above below => others j above (by omega)

theorem foldl (made : Made start a l loan) (xs : List Name) : Made start a l (xs.foldl Loan.lend loan) := by
  induction xs generalizing loan with
  | nil => exact made
  | cons x xs ih => exact ih (made.lend x)

end Made

structure Lending (start : Namer) (a : Nat) (l : Layout) (pool : List Register) (xs : List Name)
    (loan : Loan) : Prop extends Made start a l loan where
  pool : loan.places.map Prod.snd ++ loan.pool = pool
  few : loan.places.length ≤ xs.length
  source : ∀ {place r}, (place, r) ∈ loan.places → (∀ q, place ≠ .register q) ∧ ∃ x ∈ xs, l.get? x = some place
  lent : ∀ {x tmp}, loan.lent.lookup x = some tmp →
    ∃ place r j, l.get? x = some place ∧ (place, r) ∈ loan.places ∧ a < j ∧ j ≤ a + loan.places.length ∧
      tmp = start.made Name.scratch j ∧ loan.layout.get? tmp = some (.register r)
  served : ∀ x ∈ xs, (loan.lent.lookup x).isSome ∨ ∃ r, l.get? x = some (.register r)

namespace Lending

variable {start : Namer} {a total : Nat} {l : Layout} {pool : List Register} {xs : List Name} {loan : Loan}
  {x : Name}

theorem of_start (start : Namer) (a : Nat) (l : Layout) (pool : List Register) :
    Lending start a l pool [] (.start (start.after a) l pool) where
  toMade := .of_start start a l pool
  pool := rfl
  few := Nat.le_refl _
  source member := by cases member
  lent found := by cases found
  served x member := by cases member

theorem places_le_lend (loan : Loan) (x : Name) : loan.places.length ≤ (loan.lend x).places.length := by
  rcases lend_cases loan x with ⟨same, _⟩ | ⟨_, _, _, _, _, _, _, gives⟩
  · rw [same]
  · rw [gives, List.length_append]
    exact Nat.le_add_right ..

theorem places_le_foldl (loan : Loan) (xs : List Name) :
    loan.places.length ≤ (xs.foldl Loan.lend loan).places.length := by
  induction xs generalizing loan with
  | nil => exact Nat.le_refl _
  | cons x xs ih => exact Nat.le_trans (places_le_lend loan x) (ih _)

theorem append_of_served (lending : Lending start a l pool xs loan)
    (served : (loan.lent.lookup x).isSome ∨ ∃ r, l.get? x = some (.register r)) :
    Lending start a l pool (xs ++ [x]) loan where
  toMade := lending.toMade
  pool := lending.pool
  few := Nat.le_trans lending.few (by simp)
  source member := by
    obtain ⟨plain, y, named, place⟩ := lending.source member
    exact ⟨plain, y, List.mem_append_left _ named, place⟩
  lent := lending.lent
  served y member := by
    rcases List.mem_append.1 member with member | member
    · exact lending.served y member
    · rw [List.mem_singleton.1 member]
      exact served

theorem lookup_append_single (lent : Renaming) (x y tmp : Name) :
    (lent ++ [(x, tmp)]).lookup y =
      if (lent.lookup y).isSome then lent.lookup y else if y = x then some tmp else none := by
  induction lent with
  | nil =>
    by_cases same : y = x
    · simp [same]
    · simp [List.lookup_cons, beq_false_of_ne same, same]
  | cons head lent ih =>
    obtain ⟨n, t⟩ := head
    rw [List.cons_append, List.lookup_cons, List.lookup_cons]
    by_cases same : y = n
    · simp [same]
    · rw [beq_false_of_ne same]
      exact ih

theorem lend (lending : Lending start a l pool xs loan) (small : total < 2 ^ 64)
    (bound : a + (loan.lend x).places.length ≤ total) (placed : l.get? x ≠ none)
    (old : ∀ j, a < j → j ≤ total → x ≠ start.made Name.scratch j) (room : xs.length < pool.length) :
    Lending start a l pool (xs ++ [x]) (loan.lend x) := by
  have made := lending.toMade.lend x
  have within : a + loan.places.length ≤ total :=
    Nat.le_trans (Nat.add_le_add_left (places_le_lend loan x) a) bound
  have same : loan.layout.get? x = l.get? x :=
    lending.other fun j above below => old j above (Nat.le_trans below within)
  rcases lending.lend_cases x with ⟨unchanged, why⟩ | ⟨place, r, rest, unserved, found, notRegister, taken, gives⟩
  · rw [unchanged]
    rcases why with ⟨tmp, served⟩ | ⟨_, none | ⟨r, register⟩ | empty⟩
    · exact lending.append_of_served (.inl (by rw [served]; rfl))
    · exact absurd (same.symm.trans none) placed
    · exact lending.append_of_served (.inr ⟨r, same.symm.trans register⟩)
    · have length := congrArg List.length lending.pool
      rw [empty, List.length_append, List.length_map, List.length_nil] at length
      have := lending.few
      omega
  · rw [gives] at made bound ⊢
    rw [List.length_append, List.length_singleton] at bound
    have isNew : ∀ {j}, a < j → j ≤ a + loan.places.length →
        start.made Name.scratch j ≠ start.made Name.scratch (a + loan.places.length + 1) := by
      intro j above below equal
      have := Namer.made_injective (by omega) (by omega) equal
      omega
    refine ⟨made, ?_, ?_, ?_, ?_, ?_⟩
    · rw [← lending.pool, taken]
      simp
    · have := lending.few
      rw [List.length_append, List.length_append, List.length_singleton, List.length_singleton]
      omega
    · intro place' r' member
      rcases List.mem_append.1 member with member | member
      · obtain ⟨plain, y, named, place⟩ := lending.source member
        exact ⟨plain, y, List.mem_append_left _ named, place⟩
      · obtain ⟨rfl, rfl⟩ := Prod.mk.inj (List.mem_singleton.1 member)
        exact ⟨notRegister, x, by simp, same.symm.trans found⟩
    · intro y tmp renamed
      rw [lookup_append_single] at renamed
      simp only [List.length_append, List.length_singleton]
      split at renamed
      · obtain ⟨place', r', j, found', member, above, below, rfl, register⟩ := lending.lent renamed
        refine ⟨place', r', j, found', List.mem_append_left _ member, above, by omega, rfl, ?_⟩
        rw [Layout.get?_set_other (isNew above below)]
        exact register
      · split at renamed
        · rename_i isX
          subst isX
          cases renamed
          refine ⟨place, r, _, same.symm.trans found, List.mem_append_right _ (by simp), by omega,
            Nat.le_refl _, rfl, Layout.get?_set_same _ _ _⟩
        · cases renamed
    · intro y member
      rcases List.mem_append.1 member with member | member
      · rcases lending.served y member with served | register
        · left
          rw [lookup_append_single, if_pos served]
          exact served
        · exact .inr register
      · left
        rw [List.mem_singleton.1 member, lookup_append_single, unserved]
        simp

end Lending

/-- A scratch register that stands in for an operand, under a name of its own. -/
structure Stand where
  name : Name
  home : Location
  scratch : Name
  register : Register

namespace Stand

/-- The names of the scratch registers for those of the operands. -/
def renames (stands : List Stand) : Renaming := stands.map fun s => (s.name, s.scratch)

theorem lookup_renames_eq_none {stands : List Stand} {x : Name} :
    (renames stands).lookup x = none ↔ x ∉ stands.map Stand.name := by
  rw [List.lookup_eq_none_iff]
  constructor
  · intro never named
    obtain ⟨s, isStand, rfl⟩ := List.mem_map.1 named
    simpa using never _ (List.mem_map_of_mem isStand)
  · intro unnamed entry member
    obtain ⟨s, isStand, rfl⟩ := List.mem_map.1 member
    have other : x ≠ s.name := fun same => unnamed (same ▸ List.mem_map_of_mem isStand)
    simpa using other

end Stand

/-- Loans, with the scratch registers that stand in for operands in the order in which they were lent. -/
structure Ledger (start : Namer) (a : Nat) (l : Layout) (pool : List Register) (xs : List Name) (loan : Loan)
    (stands : List Stand) : Prop extends Lending start a l pool xs loan where
  renames : loan.lent = Stand.renames stands
  stood : loan.places = stands.map fun s => (s.home, s.register)
  once : (stands.map Stand.name).Nodup
  home : ∀ s ∈ stands, s.name ∈ xs ∧ l.get? s.name = some s.home ∧ ∀ r, s.home ≠ .register r
  scratch : ∀ s ∈ stands, ∃ j, a < j ∧ j ≤ a + stands.length ∧ s.scratch = start.made Name.scratch j
  register : ∀ s ∈ stands, loan.layout.get? s.scratch = some (.register s.register)

namespace Ledger

variable {start : Namer} {a total : Nat} {l : Layout} {pool : List Register} {xs : List Name} {loan : Loan}
  {stands : List Stand}

theorem of_start (start : Namer) (a : Nat) (l : Layout) (pool : List Register) :
    Ledger start a l pool [] (.start (start.after a) l pool) [] where
  toLending := .of_start start a l pool
  renames := rfl
  stood := rfl
  once := List.nodup_nil
  home s member := by cases member
  scratch s member := by cases member
  register s member := by cases member

theorem length (ledger : Ledger start a l pool xs loan stands) : loan.places.length = stands.length := by
  rw [ledger.stood, List.length_map]

theorem lend {x : Name} (ledger : Ledger start a l pool xs loan stands) (small : total < 2 ^ 64)
    (bound : a + (loan.lend x).places.length ≤ total) (placed : l.get? x ≠ none)
    (old : ∀ j, a < j → j ≤ total → x ≠ start.made Name.scratch j) (room : xs.length < pool.length) :
    ∃ stands', Ledger start a l pool (xs ++ [x]) (loan.lend x) stands' := by
  have lending := ledger.toLending.lend small bound placed old room
  have within : a + loan.places.length ≤ total :=
    Nat.le_trans (Nat.add_le_add_left (Lending.places_le_lend loan x) a) bound
  rcases ledger.lend_cases x with ⟨same, _⟩ | ⟨place, r, rest, isNew, found, notRegister, _, gives⟩
  · rw [same] at lending ⊢
    refine ⟨stands, lending, ledger.renames, ledger.stood, ledger.once, ?_, ledger.scratch, ledger.register⟩
    intro s member
    obtain ⟨named, home⟩ := ledger.home s member
    exact ⟨List.mem_append_left _ named, home⟩
  · rw [ledger.length] at gives
    rw [gives, List.length_append, List.length_singleton, ledger.length] at bound
    rw [gives] at lending ⊢
    refine ⟨stands ++ [⟨x, place, start.made Name.scratch (a + stands.length + 1), r⟩], lending, ?_, ?_, ?_, ?_, ?_, ?_⟩
    · rw [ledger.renames]
      simp [Stand.renames]
    · rw [ledger.stood]
      simp
    · rw [List.map_append, List.nodup_append]
      refine ⟨ledger.once, by simp, ?_⟩
      rintro y named _ last rfl
      obtain rfl : y = x := by simpa using last
      rw [ledger.renames] at isNew
      exact Stand.lookup_renames_eq_none.1 isNew named
    · intro s member
      rcases List.mem_append.1 member with before | last
      · obtain ⟨named, home⟩ := ledger.home s before
        exact ⟨List.mem_append_left _ named, home⟩
      · obtain rfl := List.mem_singleton.1 last
        refine ⟨by simp, ?_, notRegister⟩
        rw [← ledger.other fun j above below => old j above (Nat.le_trans below within)]
        exact found
    · intro s member
      rw [List.length_append, List.length_singleton]
      rcases List.mem_append.1 member with before | last
      · obtain ⟨j, above, below, name⟩ := ledger.scratch s before
        exact ⟨j, above, by omega, name⟩
      · obtain rfl := List.mem_singleton.1 last
        exact ⟨_, by omega, Nat.le_refl _, rfl⟩
    · intro s member
      rcases List.mem_append.1 member with before | last
      · obtain ⟨j, above, below, name⟩ := ledger.scratch s before
        have other : s.scratch ≠ start.made Name.scratch (a + stands.length + 1) := by
          rw [name]
          intro same
          have := Namer.made_injective (by omega) (by omega) same
          omega
        rw [Layout.get?_set_other other]
        exact ledger.register s before
      · obtain rfl := List.mem_singleton.1 last
        exact Layout.get?_set_same _ _ _

theorem foldl {ys : List Name} (ledger : Ledger start a l pool xs loan stands) (small : total < 2 ^ 64)
    (bound : a + (ys.foldl Loan.lend loan).places.length ≤ total) (placed : ∀ x ∈ ys, l.get? x ≠ none)
    (old : ∀ x ∈ ys, ∀ j, a < j → j ≤ total → x ≠ start.made Name.scratch j)
    (room : xs.length + ys.length ≤ pool.length) :
    ∃ stands', Ledger start a l pool (xs ++ ys) (ys.foldl Loan.lend loan) stands' := by
  induction ys generalizing xs loan stands with
  | nil => exact ⟨stands, by simpa using ledger⟩
  | cons y ys ih =>
    rw [List.foldl_cons] at bound ⊢
    have within := Nat.le_trans (Nat.add_le_add_left (Lending.places_le_foldl (loan.lend y) ys) a) bound
    simp only [List.length_cons] at room
    obtain ⟨stands', next⟩ := ledger.lend small within (placed y (by simp)) (old y (by simp)) (by omega)
    have rest := ih next bound (fun x member => placed x (List.mem_cons_of_mem _ member))
      (fun x member => old x (List.mem_cons_of_mem _ member)) (by simp only [List.length_append, List.length_singleton]; omega)
    simpa using rest

theorem all {ys : List Name} (small : total < 2 ^ 64)
    (bound : a + (ys.foldl Loan.lend (.start (start.after a) l pool)).places.length ≤ total)
    (placed : ∀ x ∈ ys, l.get? x ≠ none)
    (old : ∀ x ∈ ys, ∀ j, a < j → j ≤ total → x ≠ start.made Name.scratch j) (room : ys.length ≤ pool.length) :
    ∃ stands, Ledger start a l pool ys (ys.foldl Loan.lend (.start (start.after a) l pool)) stands :=
  (of_start start a l pool).foldl small bound placed old (by simpa using room)

end Ledger

end MiniC.Storage
