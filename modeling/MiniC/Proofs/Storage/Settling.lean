import MiniC.Proofs.Storage.Bodies
import MiniC.Proofs.Storage.Frames

namespace MiniC.Storage

open Code

structure Later (l l' : Layout) : Prop where
  places : ∀ x, l'.get? x = l.get? x ∨
    (∃ n, x = Name.generated Name.scratch n) ∧ ∃ r ∈ Register.scratchPool, l'.get? x = some (.register r)
  slots : l'.slots = l.slots
  size : l'.size = l.size

namespace Later

variable {l l' l'' : Layout}

theorem refl (l : Layout) : Later l l :=
  ⟨fun _ => .inl rfl, rfl, rfl⟩

theorem trans (first : Later l l') (second : Later l' l'') : Later l l'' where
  places x := by
    rcases second.places x with same | scratch
    · rw [same]
      exact first.places x
    · exact .inr scratch
  slots := second.slots.trans first.slots
  size := second.size.trans first.size

theorem set {r : Register} (member : r ∈ Register.scratchPool) (n : Int64) (l : Layout) :
    Later l (l.set (Name.generated Name.scratch n) (.register r)) where
  places x := by
    by_cases same : x = Name.generated Name.scratch n
    · rw [same, Layout.get?_set_same]
      exact .inr ⟨⟨n, rfl⟩, r, member, rfl⟩
    · exact .inl (Layout.get?_set_other same l _)
  slots := rfl
  size := rfl

theorem register (later : Later l l') {x : Name} {r : Register} (found : l.get? x = some (.register r)) :
    ∃ r', l'.get? x = some (.register r') := by
  rcases later.places x with same | ⟨_, r', _, found'⟩
  · exact ⟨r, same.trans found⟩
  · exact ⟨r', found'⟩

theorem get?_ne_none (later : Later l l') {x : Name} (found : l.get? x ≠ none) : l'.get? x ≠ none := by
  rcases later.places x with same | ⟨_, r, _, found'⟩
  · rwa [same]
  · rw [found']
    simp

theorem of_other (later : Later l l') {x : Name} {place : Location} (found : l'.get? x = some place)
    (other : ∀ r, place ≠ .register r) : l.get? x = some place := by
  rcases later.places x with same | ⟨_, r, _, found'⟩
  · exact same.symm.trans found
  · cases found'.symm.trans found
    exact absurd rfl (other r)

end Later

structure Lends (l : Layout) (loan : Loan) : Prop where
  later : Later l loan.layout
  pool : ∀ r ∈ loan.pool, r ∈ Register.scratchPool
  places : ∀ {place r}, (place, r) ∈ loan.places →
    r ∈ Register.scratchPool ∧ (∀ r', place ≠ .register r') ∧ ∃ x, l.get? x = some place

theorem Lends.of_start (names : Namer) (l : Layout) {pool : List Register}
    (scratch : ∀ r ∈ pool, r ∈ Register.scratchPool) : Lends l (.start names l pool) where
  later := .refl l
  pool := scratch
  places member := by cases member

theorem Lends.lend {l : Layout} {loan : Loan} (lends : Lends l loan) (x : Name) : Lends l (loan.lend x) := by
  rcases lend_cases loan x with ⟨same, _⟩ | ⟨place, r, pool, _, found, notRegister, isPool, gives⟩
  · rw [same]
    exact lends
  · rw [gives]
    have member : r ∈ Register.scratchPool := lends.pool r (by rw [isPool]; simp)
    refine ⟨lends.later.trans (.set member _ _), ?_, ?_⟩
    · intro r' inRest
      exact lends.pool r' (by rw [isPool]; exact List.mem_cons_of_mem _ inRest)
    · intro place' r' entry
      rcases List.mem_append.1 entry with old | new
      · exact lends.places old
      · obtain ⟨rfl, rfl⟩ := Prod.mk.inj (List.mem_singleton.1 new)
        exact ⟨member, notRegister, x, lends.later.of_other found notRegister⟩

theorem Lends.foldl {l : Layout} {loan : Loan} (lends : Lends l loan) (xs : List Name) :
    Lends l (xs.foldl Loan.lend loan) := by
  induction xs generalizing loan with
  | nil => exact lends
  | cons x xs ih => exact ih (lends.lend x)

theorem registers_scratchPool : ∀ r ∈ Loan.registers, r ∈ Register.scratchPool := by
  decide

def InRegisters (l final : Layout) (lent : Renaming) (xs : List Name) : Prop :=
  ∀ x ∈ xs, l.get? x ≠ none → ∃ r, final.get? (lent.apply x) = some (.register r)

inductive Becomes (l final : Layout) (action : Action) : Action → Prop
  | load {place r x} : r ∈ Register.scratchPool → (∀ r', place ≠ .register r') → l.get? x = some place →
    Becomes l final action (.move place (.register r))
  | unload {place r x} : r ∈ Register.scratchPool → (∀ r', place ≠ .register r') → l.get? x = some place →
    Becomes l final action (.move (.register r) place)
  | other {ins outs} : action.isLocal = true → InRegisters l final ins action.inputs →
    InRegisters l final outs action.outputs → Becomes l final action (action.substitute ins outs)
  | call {callee args result} : action = .call callee args result → Becomes l final action action

section

variable {l final : Layout} {names : Namer} {stmt : Stmt}

theorem lends_loansIn (names : Namer) (l : Layout) (action : Action) : Lends l (loansIn names l action) :=
  (Lends.of_start names l registers_scratchPool).foldl _

theorem lends_loansOut (names : Namer) (l : Layout) (action : Action) :
    Lends (loansIn names l action).layout (loansOut names l action) :=
  (Lends.of_start _ _ (lends_loansIn names l action).pool).foldl _

structure Serves (l : Layout) (count : Nat) (xs : List Name) (loan : Loan) : Prop where
  lends : Lends l loan
  room : count ≤ loan.pool.length + xs.length
  lent : ∀ {x tmp}, loan.lent.lookup x = some tmp → ∃ r, loan.layout.get? tmp = some (.register r)
  served : InRegisters l loan.layout loan.lent xs

namespace Serves

variable {loan : Loan} {xs : List Name} {count : Nat}

theorem of_start (names : Namer) (l : Layout) {pool : List Register} (scratch : ∀ r ∈ pool, r ∈ Register.scratchPool) :
    Serves l pool.length [] (.start names l pool) where
  lends := .of_start names l scratch
  room := Nat.le_refl _
  lent never := by cases never
  served x never := by cases never

theorem append_of_served (serves : Serves l count xs loan) {x : Name}
    (here : l.get? x ≠ none → ∃ r, loan.layout.get? (loan.lent.apply x) = some (.register r)) :
    Serves l count (xs ++ [x]) loan where
  lends := serves.lends
  room := by
    have room := serves.room
    rw [List.length_append]
    omega
  lent := serves.lent
  served y member placed := by
    rcases List.mem_append.1 member with old | new
    · exact serves.served y old placed
    · obtain rfl := List.mem_singleton.1 new
      exact here placed

theorem lend (serves : Serves l count xs loan) (short : xs.length < count) (x : Name) :
    Serves l count (xs ++ [x]) (loan.lend x) := by
  have lends := serves.lends.lend x
  rcases lend_cases loan x with ⟨same, why⟩ | ⟨place, r, pool, isNew, _, _, isPool, gives⟩
  · rw [same]
    refine serves.append_of_served fun placed => ?_
    rcases why with ⟨tmp, found⟩ | ⟨isNew, unplaced | ⟨r, found⟩ | empty⟩
    · rw [Renaming.apply, found]
      exact serves.lent found
    · exact absurd unplaced (serves.lends.later.get?_ne_none placed)
    · exact ⟨r, by rw [Renaming.apply, isNew, Option.getD_none, found]⟩
    · have room := serves.room
      rw [empty, List.length_nil] at room
      omega
  · rw [gives] at lends ⊢
    -- the new name is in a register, and names in registers stay in some
    have stays : ∀ {y}, (y = Name.generated Name.scratch (loan.names.count + 1) ∨ ∃ r, loan.layout.get? y = some (.register r)) →
        ∃ r', (loan.layout.set (Name.generated Name.scratch (loan.names.count + 1)) (.register r)).get? y =
          some (.register r') := by
      intro y inRegister
      by_cases same : y = Name.generated Name.scratch (loan.names.count + 1)
      · exact ⟨r, by rw [same, Layout.get?_set_same]⟩
      · obtain ⟨r', found⟩ := inRegister.resolve_left same
        exact ⟨r', by rw [Layout.get?_set_other same, found]⟩
    have renamed := fun y => Lending.lookup_append_single loan.lent x y (Name.generated Name.scratch (loan.names.count + 1))
    refine ⟨lends, ?_, ?_, ?_⟩
    · have room := serves.room
      rw [isPool, List.length_cons] at room
      rw [List.length_append, List.length_singleton]
      dsimp only
      omega
    · intro y tmp found
      rw [renamed] at found
      split at found
      · exact stays (.inr (serves.lent found))
      · split at found <;> cases found
        exact stays (.inl rfl)
    · intro y member placed
      rw [Renaming.apply, renamed]
      split
      · rename_i has
        obtain ⟨tmp, found⟩ := Option.isSome_iff_exists.1 has
        rw [found, Option.getD_some]
        exact stays (.inr (serves.lent found))
      · rename_i unlent
        split
        · exact stays (.inl rfl)
        · rename_i other
          have old : y ∈ xs := by simpa [other] using member
          have inRegister := serves.served y old placed
          rw [Renaming.apply, Option.not_isSome_iff_eq_none.1 unlent] at inRegister
          exact stays (.inr inRegister)

theorem foldl (serves : Serves l count xs loan) {ys : List Name} (short : xs.length + ys.length ≤ count) :
    Serves l count (xs ++ ys) (ys.foldl Loan.lend loan) := by
  induction ys generalizing xs loan with
  | nil => rwa [List.append_nil]
  | cons y ys ih =>
    rw [List.length_cons] at short
    have rest := ih (serves.lend (by omega) y) (by rw [List.length_append, List.length_singleton]; omega)
    rwa [List.append_assoc] at rest

end Serves

theorem InRegisters.later {l' : Layout} {lent : Renaming} {xs : List Name} (inside : InRegisters l l' lent xs)
    (later : Later l' final) : InRegisters l final lent xs := by
  intro x member placed
  obtain ⟨r, found⟩ := inside x member placed
  exact later.register found

theorem serves_loans (names : Namer) (l : Layout) (here : stmt.action.isLocal = true) :
    InRegisters l (loansOut names l stmt.action).layout (loansIn names l stmt.action).lent stmt.action.inputs ∧
      InRegisters l (loansOut names l stmt.action).layout (loansOut names l stmt.action).lent stmt.action.outputs := by
  have few := inputs_length here
  have few' := outputs_length stmt.action
  have many : Loan.registers.length = 5 := by decide
  have ins : Serves l _ ([] ++ stmt.action.inputs) (loansIn names l stmt.action) :=
    (Serves.of_start names l registers_scratchPool).foldl (by rw [many, List.length_nil]; omega)
  have room := ins.room
  rw [many, List.nil_append] at room
  have outs : Serves _ _ ([] ++ stmt.action.outputs) (loansOut names l stmt.action) :=
    (Serves.of_start _ _ ins.lends.pool).foldl (by rw [List.length_nil]; omega)
  refine ⟨ins.served.later outs.lends.later, ?_⟩
  exact fun x member placed => outs.served x member (ins.lends.later.get?_ne_none placed)

theorem mem_movedBlock {ins outs : Loan} {s : Stmt} (member : s ∈ (movedBlock stmt ins outs).code) :
    (s.label = [] ∨ s.label = stmt.label) ∧
      ((∃ p ∈ ins.places, s.action = load p) ∨ s.action = stmt.action.substitute ins.lent outs.lent ∨
        ∃ p ∈ outs.places, s.action = unload p) := by
  have inLast : s ∈ outs.places.map (fun p => Stmt.plain (unload p)) →
      s.label = [] ∧ ∃ p ∈ outs.places, s.action = unload p := by
    intro inLast
    obtain ⟨p, lent, rfl⟩ := List.mem_map.1 inLast
    exact ⟨rfl, p, lent, rfl⟩
  have inFirst : ∀ {other}, other ∈ ins.places.map (fun p => Stmt.plain (load p)) →
      other.label = [] ∧ ∃ p ∈ ins.places, other.action = load p := by
    intro other inFirst
    obtain ⟨p, lent, rfl⟩ := List.mem_map.1 inFirst
    exact ⟨rfl, p, lent, rfl⟩
  unfold movedBlock at member
  split at member
  · rcases List.mem_cons.1 member with rfl | after
    · exact ⟨.inr rfl, .inr (.inl rfl)⟩
    · obtain ⟨label, action⟩ := inLast after
      exact ⟨.inl label, .inr (.inr action)⟩
  · rename_i first more moves
    rw [moves] at inFirst
    rcases List.mem_append.1 member with before | core
    · rcases List.mem_cons.1 before with rfl | inMore
      · exact ⟨.inr rfl, .inl (inFirst (List.mem_cons_self ..)).2⟩
      · obtain ⟨label, action⟩ := inFirst (List.mem_cons_of_mem _ inMore)
        exact ⟨.inl label, .inl action⟩
    · rcases List.mem_cons.1 core with rfl | after
      · exact ⟨.inl rfl, .inr (.inl rfl)⟩
      · obtain ⟨label, action⟩ := inLast after
        exact ⟨.inl label, .inr (.inr action)⟩

theorem moveStmt_later (names : Namer) (l : Layout) (stmt : Stmt) : Later l (moveStmt names l stmt).layout := by
  by_cases here : stmt.action.isLocal = true
  · rw [moveStmt_of_isLocal _ _ here]
    exact (lends_loansIn names l stmt.action).later.trans (lends_loansOut names l stmt.action).later
  · obtain ⟨label, action⟩ := stmt
    cases action with
    | call | move => exact .refl l
    | _ => exact absurd rfl here

theorem Becomes.earlier {l' : Layout} {action action' : Action} (later : Later l l')
    (becomes : Becomes l' final action action') : Becomes l final action action' := by
  cases becomes with
  | load scratch other found => exact .load scratch other (later.of_other found other)
  | unload scratch other found => exact .unload scratch other (later.of_other found other)
  | other isLocal reads writes =>
    exact .other isLocal (fun x member placed => reads x member (later.get?_ne_none placed))
      fun x member placed => writes x member (later.get?_ne_none placed)
  | call is => exact .call is

theorem moveStmt_becomes (plain : ∀ src dst, stmt.action ≠ .move src dst)
    (later : Later (moveStmt names l stmt).layout final) {s : Stmt} (member : s ∈ (moveStmt names l stmt).code) :
    (s.label = [] ∨ s.label = stmt.label) ∧ Becomes l final stmt.action s.action := by
  by_cases here : stmt.action.isLocal = true
  · rw [moveStmt_of_isLocal _ _ here] at later member
    obtain ⟨label, action⟩ := mem_movedBlock member
    refine ⟨label, ?_⟩
    rcases action with ⟨⟨place, r⟩, lent, is⟩ | is | ⟨⟨place, r⟩, lent, is⟩
    · obtain ⟨scratch, other, x, found⟩ := (lends_loansIn names l stmt.action).places lent
      rw [is]
      exact .load scratch other found
    · rw [is]
      obtain ⟨reads, writes⟩ := serves_loans names l here
      exact .other here (reads.later later) (writes.later later)
    · obtain ⟨scratch, other, x, found⟩ := (lends_loansOut names l stmt.action).places lent
      rw [is]
      exact .unload scratch other ((lends_loansIn names l stmt.action).later.of_other found other)
  · obtain ⟨label, action⟩ := stmt
    cases action with
    | call callee args result =>
      rw [List.mem_singleton.1 member]
      exact ⟨.inr rfl, .call rfl⟩
    | move src dst => exact absurd rfl (plain src dst)
    | _ => exact absurd rfl here

theorem moveBody_later (names : Namer) (l : Layout) (body : List Stmt) :
    Later l (moveBody names l body).layout := by
  induction body generalizing names l with
  | nil => exact .refl l
  | cons stmt body ih => exact (moveStmt_later names l stmt).trans (ih _ _)

theorem moveBody_becomes {body : List Stmt} (plain : ∀ stmt ∈ body, ∀ src dst, stmt.action ≠ .move src dst)
    (later : Later (moveBody names l body).layout final) {s : Stmt} (member : s ∈ (moveBody names l body).code) :
    ∃ stmt ∈ body, (s.label = [] ∨ s.label = stmt.label) ∧ Becomes l final stmt.action s.action := by
  induction body generalizing names l with
  | nil => cases member
  | cons stmt body ih =>
    have first := moveStmt_later names l stmt
    rw [moveBody] at later member
    rcases List.mem_append.1 member with here | there
    · have rest := moveBody_later (moveStmt names l stmt).names (moveStmt names l stmt).layout body
      exact ⟨stmt, by simp, moveStmt_becomes (plain stmt (by simp)) (rest.trans later) here⟩
    · have others : ∀ other ∈ body, other ∈ stmt :: body := fun other => List.mem_cons_of_mem _
      obtain ⟨origin, inBody, label, becomes⟩ := ih (fun other inBody => plain other (others other inBody)) later there
      exact ⟨origin, others origin inBody, label, becomes.earlier first⟩

end

end MiniC.Storage
