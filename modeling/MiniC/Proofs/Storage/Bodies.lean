import MiniC.Proofs.Storage.Loans
import MiniC.Proofs.Storage.Moving

namespace MiniC.Storage

open Code

def Extends (start : Namer) (a b : Nat) (l l' : Layout) : Prop :=
  ∀ y, (∀ j, a < j → j ≤ b → y ≠ start.made Name.scratch j) → l'.get? y = l.get? y

structure Moved.Since (moved : Moved) (start : Namer) (a b : Nat) (l : Layout) : Prop where
  names : moved.names = start.after b
  places : Extends start a b l moved.layout
  slots : moved.layout.slots = l.slots

variable {start : Namer} {a b total : Nat} {l l' final : Layout}

theorem Extends.trans {c : Nat} {l'' : Layout} (first : Extends start a b l l') (second : Extends start b c l' l'')
    (le : a ≤ b) (le' : b ≤ c) : Extends start a c l l'' := by
  intro y others
  rw [second y fun j above below => others j (by omega) below,
    first y fun j above below => others j above (by omega)]

theorem Made.extends {loan : Loan} (made : Made start a l loan) :
    Extends start a (a + loan.places.length) l loan.layout :=
  fun _ others => made.other others

theorem Lending.serves {pool : List Register} {xs : List Name} {loan : Loan}
    (lending : Lending start a l pool xs loan) (small : total < 2 ^ 64) (below : a + loan.places.length ≤ b)
    (later : Extends start b total loan.layout final) (within : b ≤ total)
    (old : ∀ x ∈ xs, ∀ j, a < j → j ≤ total → x ≠ start.made Name.scratch j)
    (distinct : pool.Nodup) (scratch : ∀ r ∈ pool, r ∉ Register.locals) :
    Served final xs loan.lent loan.places := by
  have same : ∀ x ∈ xs, final.get? x = l.get? x := by
    intro x member
    rw [later x fun j above below => old x member j (by omega) below]
    exact lending.other fun j above below => old x member j above (by omega)
  have pooled : (loan.places.map Prod.snd).Sublist pool := by
    rw [← lending.pool]
    exact List.sublist_append_left ..
  constructor
  case distinct => exact pooled.nodup distinct
  case scratch =>
    intro place r member
    exact scratch r (pooled.subset (List.mem_map_of_mem member))
  case source =>
    intro place r member
    obtain ⟨plain, x, named, found⟩ := lending.source member
    exact ⟨plain, x, named, by rw [same x named, found]⟩
  case operand =>
    intro x member
    cases found : loan.lent.lookup x with
    | none =>
      rcases lending.served x member with served | ⟨r, register⟩
      · rw [found] at served
        cases served
      · exact .inl ⟨r, by rw [same x member, register], by rw [Renaming.apply, found]; rfl⟩
    | some tmp =>
      obtain ⟨place, r, j, atPlace, lent, above, upTo, rfl, register⟩ := lending.lent found
      refine .inr ⟨place, r, by rw [same x member, atPlace], lent, ?_⟩
      rw [Renaming.apply, found, Option.getD_some, later _ fun j' above' upTo' equal => ?_, register]
      have := Namer.made_injective (by omega) (by omega) equal
      omega
  case named =>
    intro x nonempty
    rw [Renaming.apply]
    cases found : loan.lent.lookup x with
    | none => exact nonempty
    | some tmp =>
      obtain ⟨_, _, j, _, _, _, _, rfl, _⟩ := lending.lent found
      exact Name.generated_ne_nil _ _

section

variable (names : Namer) (l : Layout) (action : Action)

/-- The registers lent to what an action reads. -/
def loansIn : Loan :=
  action.inputs.foldl Loan.lend (.start names l Loan.registers)

/-- The registers lent to what an action writes. -/
def loansOut : Loan :=
  action.outputs.foldl Loan.lend
    (.start (loansIn names l action).names (loansIn names l action).layout (loansIn names l action).pool)

end

section

variable (start : Namer) (a : Nat) (l : Layout) (action : Action)

theorem made_loansIn : Made start a l (loansIn (start.after a) l action) :=
  (Made.of_start start a l _).foldl _

theorem made_loansOut : Made start (a + (loansIn (start.after a) l action).places.length)
    (loansIn (start.after a) l action).layout (loansOut (start.after a) l action) := by
  unfold loansOut
  rw [(made_loansIn start a l action).names]
  exact (Made.of_start ..).foldl _

end

def movedBlock (stmt : Stmt) (ins outs : Loan) : Block Stmt :=
  let behind := outs.places.map fun p => Stmt.plain (unload p)
  match ins.places.map fun p => Stmt.plain (load p) with
  | [] => .around [] (stmt.substitute ins.lent outs.lent) behind
  | first :: more =>
    .around (first.withLabel stmt.label :: more) ((stmt.substitute ins.lent outs.lent).withLabel []) behind

variable {stmt : Stmt}

theorem moveStmt_of_isLocal (names : Namer) (l : Layout) (here : stmt.action.isLocal = true) :
    moveStmt names l stmt =
      ⟨(movedBlock stmt (loansIn names l stmt.action) (loansOut names l stmt.action)).code,
        (loansOut names l stmt.action).names, (loansOut names l stmt.action).layout⟩ := by
  obtain ⟨label, action⟩ := stmt
  unfold moveStmt movedBlock
  split
  · rename_i calls
    rw [calls] at here
    cases here
  · change (match (loansIn names l action).places.map fun p => Stmt.plain (load p) with
      | [] => _
      | first :: more => _) = _
    cases (loansIn names l action).places.map fun p => Stmt.plain (load p) with
    | nil => rfl
    | cons first more =>
      dsimp only
      rw [List.append_assoc]
      rfl

theorem length_movedBlock (ins outs : Loan) :
    (movedBlock stmt ins outs).code.length = 1 + (ins.places.length + outs.places.length) := by
  have length : (ins.places.map fun p => Stmt.plain (load p)).length = ins.places.length := List.length_map _
  unfold movedBlock
  split <;> rename_i moves <;> rw [moves] at length <;>
    simp only [Block.code, List.length_append, List.length_cons, List.length_nil, List.length_map] at length ⊢ <;>
    omega

theorem moveStmt_since (start : Namer) (a : Nat) (l : Layout) (stmt : Stmt) :
    ∃ made, (moveStmt (start.after a) l stmt).code.length = 1 + made ∧
      (moveStmt (start.after a) l stmt).Since start a (a + made) l := by
  by_cases here : stmt.action.isLocal = true
  · rw [moveStmt_of_isLocal _ _ here]
    have ins := made_loansIn start a l stmt.action
    have outs := made_loansOut start a l stmt.action
    refine ⟨_, length_movedBlock _ _, ?_⟩
    rw [← Nat.add_assoc]
    exact ⟨outs.names, ins.extends.trans outs.extends (Nat.le_add_right ..) (Nat.le_add_right ..),
      outs.slots.trans ins.slots⟩
  · obtain ⟨label, action⟩ := stmt
    cases action with
    | call | move => exact ⟨0, rfl, rfl, fun _ _ => rfl, rfl⟩
    | _ => exact absurd rfl here

theorem moveBody_since (start : Namer) (a : Nat) (l : Layout) (body : List Stmt) :
    ∃ made, (moveBody (start.after a) l body).code.length = body.length + made ∧
      (moveBody (start.after a) l body).Since start a (a + made) l := by
  induction body generalizing a l with
  | nil => exact ⟨0, rfl, rfl, fun _ _ => rfl, rfl⟩
  | cons stmt body ih =>
    obtain ⟨made, length, since⟩ := moveStmt_since start a l stmt
    obtain ⟨more, length', since'⟩ := ih (a + made) (moveStmt (start.after a) l stmt).layout
    refine ⟨made + more, ?_⟩
    rw [moveBody, since.names, ← Nat.add_assoc a]
    refine ⟨?_, since'.names, ?_, since'.slots.trans since.slots⟩
    · simp only [List.length_append, List.length_cons, length, length']
      omega
    · exact since.places.trans since'.places (Nat.le_add_right ..) (Nat.le_add_right ..)

theorem stmtBlock_movedBlock {ins outs : Loan} (here : stmt.action.isLocal = true)
    (reads : Served l stmt.action.inputs ins.lent ins.places)
    (writes : Served l stmt.action.outputs outs.lent outs.places) (few : outs.places.length ≤ 1) :
    StmtBlock l stmt (movedBlock stmt ins outs) := by
  have actions : (ins.places.map fun p => Stmt.plain (load p)).map Stmt.action = ins.places.map load := by
    simp [Stmt.plain]
  have plain : ∀ other ∈ ins.places.map (fun p => Stmt.plain (load p)), other.label = [] := by
    intro other member
    obtain ⟨p, _, rfl⟩ := List.mem_map.1 member
    rfl
  unfold movedBlock
  split
  · rename_i none
    rw [none] at actions
    refine .moved here reads writes few actions rfl ?_ ?_
    · intro head first
      cases first
      rfl
    · intro other member
      cases member
  · rename_i first more some
    rw [some] at actions plain
    refine .moved here reads writes few actions rfl ?_ ?_
    · intro head isFirst
      cases isFirst
      rfl
    · intro other member
      rcases List.mem_append.1 member with inMore | last
      · exact plain other (List.mem_cons_of_mem _ inMore)
      · rw [List.mem_singleton.1 last]
        rfl

theorem inputs_length (here : stmt.action.isLocal = true) : stmt.action.inputs.length ≤ 2 := by
  obtain ⟨label, action⟩ := stmt
  cases action with
  | ret var => by_cases empty : var = [] <;> simp [Action.inputs, empty]
  | call | move => cases here
  | _ => simp [Action.inputs]

theorem registers_nodup : Loan.registers.Nodup := by
  decide

theorem registers_scratch : ∀ r ∈ Loan.registers, r ∉ Register.locals := by
  decide

section

variable (small : total < 2 ^ 64)
  (placed : ∀ x ∈ stmt.action.inputs ++ stmt.action.outputs, l.get? x ≠ none)
  (old : ∀ x ∈ stmt.action.inputs ++ stmt.action.outputs, ∀ j, a < j → j ≤ total →
    x ≠ start.made Name.scratch j)

include small placed old

theorem ledger_loansIn (here : stmt.action.isLocal = true)
    (bound : a + (loansIn (start.after a) l stmt.action).places.length ≤ total) :
    ∃ ins, Ledger start a l Loan.registers stmt.action.inputs (loansIn (start.after a) l stmt.action) ins := by
  refine Ledger.all small bound (fun x member => placed x (List.mem_append_left _ member))
    (fun x member => old x (List.mem_append_left _ member)) ?_
  exact Nat.le_trans (inputs_length here) (by decide)

theorem ledger_loansOut (here : stmt.action.isLocal = true)
    (bound : a + (loansIn (start.after a) l stmt.action).places.length +
      (loansOut (start.after a) l stmt.action).places.length ≤ total) :
    ∃ outs, Ledger start (a + (loansIn (start.after a) l stmt.action).places.length)
      (loansIn (start.after a) l stmt.action).layout (loansIn (start.after a) l stmt.action).pool
      stmt.action.outputs (loansOut (start.after a) l stmt.action) outs := by
  have ins := made_loansIn start a l stmt.action
  obtain ⟨_, reads⟩ := ledger_loansIn small placed old here (by omega)
  unfold loansOut at bound ⊢
  rw [ins.names] at bound ⊢
  refine Ledger.all small bound ?_ ?_ ?_
  · intro x member
    rw [ins.other fun j above below => old x (List.mem_append_right _ member) j above (by omega)]
    exact placed x (List.mem_append_right _ member)
  · exact fun x member j above => old x (List.mem_append_right _ member) j (by omega)
  · have room := congrArg List.length reads.pool
    rw [List.length_append, List.length_map, show Loan.registers.length = 5 from rfl] at room
    have := reads.few
    have := inputs_length here
    have := outputs_length stmt.action
    omega

theorem moveStmt_block {made : Nat} (plain : ∀ src dst, stmt.action ≠ .move src dst)
    (length : (moveStmt (start.after a) l stmt).code.length = 1 + made) (bound : a + made ≤ total)
    (later : Extends start (a + made) total (moveStmt (start.after a) l stmt).layout final) :
    ∃ block : Block Stmt, block.code = (moveStmt (start.after a) l stmt).code ∧ StmtBlock final stmt block := by
  by_cases here : stmt.action.isLocal = true
  · rw [moveStmt_of_isLocal _ _ here] at length later ⊢
    refine ⟨_, rfl, ?_⟩
    obtain rfl : _ = made := Nat.add_left_cancel ((length_movedBlock _ _).symm.trans length)
    rw [← Nat.add_assoc] at bound later
    have outs := made_loansOut start a l stmt.action
    obtain ⟨_, reads⟩ := ledger_loansIn small placed old here (by omega)
    obtain ⟨_, writes⟩ := ledger_loansOut small placed old here bound
    have distinct := registers_nodup
    rw [← reads.pool] at distinct
    have pooled : ∀ r ∈ (loansIn (start.after a) l stmt.action).pool, r ∉ Register.locals := by
      intro r member
      apply registers_scratch
      rw [← reads.pool]
      exact List.mem_append_right _ member
    refine stmtBlock_movedBlock here ?_ ?_ (Nat.le_trans writes.few (outputs_length _))
    · refine reads.serves small (Nat.le_refl _) (outs.extends.trans later (Nat.le_add_right ..) bound) (by omega)
        ?_ registers_nodup registers_scratch
      exact fun x member => old x (List.mem_append_left _ member)
    · refine writes.serves small (Nat.le_refl _) later bound ?_ (List.nodup_append.1 distinct).2.1 pooled
      exact fun x member j above => old x (List.mem_append_right _ member) j (by omega)
  · obtain ⟨label, action⟩ := stmt
    cases action with
    | call => exact ⟨.around [] _ [], rfl, .call rfl⟩
    | move src dst => exact absurd rfl (plain src dst)
    | _ => exact absurd rfl here

end

theorem moveBody_each {R : Stmt → List Stmt → Prop} {body : List Stmt} {made : Nat}
    (placed : ∀ stmt ∈ body, ∀ x ∈ stmt.action.inputs ++ stmt.action.outputs, l.get? x ≠ none)
    (old : ∀ stmt ∈ body, ∀ x ∈ stmt.action.inputs ++ stmt.action.outputs, ∀ j, a < j → j ≤ total →
      x ≠ start.made Name.scratch j)
    (length : (moveBody (start.after a) l body).code.length = body.length + made) (bound : a + made ≤ total)
    (later : Extends start (a + made) total (moveBody (start.after a) l body).layout final)
    (each : ∀ stmt ∈ body, ∀ {a l made}, (∀ x ∈ stmt.action.inputs ++ stmt.action.outputs, l.get? x ≠ none) →
      (∀ x ∈ stmt.action.inputs ++ stmt.action.outputs, ∀ j, a < j → j ≤ total → x ≠ start.made Name.scratch j) →
      (moveStmt (start.after a) l stmt).code.length = 1 + made → a + made ≤ total →
      Extends start (a + made) total (moveStmt (start.after a) l stmt).layout final →
      R stmt (moveStmt (start.after a) l stmt).code) :
    ∃ groups, (moveBody (start.after a) l body).code = groups.flatten ∧ List.Forall₂ R body groups := by
  induction body generalizing a l made with
  | nil => exact ⟨[], rfl, .nil⟩
  | cons stmt body ih =>
    have others : ∀ other ∈ body, other ∈ stmt :: body := fun other => List.mem_cons_of_mem _
    obtain ⟨first, firstLength, since⟩ := moveStmt_since start a l stmt
    obtain ⟨more, moreLength, since'⟩ :=
      moveBody_since start (a + first) (moveStmt (start.after a) l stmt).layout body
    rw [moveBody, since.names] at length later ⊢
    simp only [List.length_append, List.length_cons, firstLength, moreLength] at length
    obtain rfl : first + more = made := by omega
    rw [← Nat.add_assoc] at bound later
    have here := each stmt (by simp) (placed stmt (by simp)) (old stmt (by simp)) firstLength (by omega)
      (since'.places.trans later (Nat.le_add_right ..) bound)
    obtain ⟨groups, code, rest⟩ := ih
      (fun other member x used => by
        rw [since.places x fun j above below => old other (others other member) x used j above (by omega)]
        exact placed other (others other member) x used)
      (fun other member x used j above => old other (others other member) x used j (by omega))
      moreLength bound later (fun other member => each other (others other member))
    exact ⟨_ :: groups, by rw [List.flatten_cons, ← code], .cons here rest⟩

theorem moveBody_blocks {body : List Stmt} {made : Nat} (small : total < 2 ^ 64)
    (plain : ∀ stmt ∈ body, ∀ src dst, stmt.action ≠ .move src dst)
    (placed : ∀ stmt ∈ body, ∀ x ∈ stmt.action.inputs ++ stmt.action.outputs, l.get? x ≠ none)
    (old : ∀ stmt ∈ body, ∀ x ∈ stmt.action.inputs ++ stmt.action.outputs, ∀ j, a < j → j ≤ total →
      x ≠ start.made Name.scratch j)
    (length : (moveBody (start.after a) l body).code.length = body.length + made) (bound : a + made ≤ total)
    (later : Extends start (a + made) total (moveBody (start.after a) l body).layout final) :
    ∃ blocks, Language.joined blocks = (moveBody (start.after a) l body).code ∧
      List.Forall₂ (StmtBlock final) body blocks := by
  obtain ⟨groups, code, each⟩ := moveBody_each
    (R := fun stmt code => ∃ block : Block Stmt, block.code = code ∧ StmtBlock final stmt block)
    placed old length bound later fun stmt member _ _ _ placed old => moveStmt_block small placed old (plain stmt member)
  rw [code]
  clear code placed old length plain later
  induction each with
  | nil => exact ⟨[], rfl, .nil⟩
  | cons here _ ih =>
    obtain ⟨block, blockCode, isBlock⟩ := here
    obtain ⟨blocks, blocksCode, areBlocks⟩ := ih
    exact ⟨block :: blocks, by rw [Language.joined_cons, blockCode, blocksCode, List.flatten_cons], .cons isBlock areBlocks⟩

end MiniC.Storage
