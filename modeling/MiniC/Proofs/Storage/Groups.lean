import MiniC.Proofs.Storage.Labels
import MiniC.Proofs.Storage.Places

namespace MiniC.Storage

open Code

namespace Stand

/-- What is moved, and where to, before a statement. -/
def fetch (s : Stand) : Stmt := .plain (load (s.home, s.register))

/-- What is moved, and where to, behind a statement. -/
def deliver (s : Stand) : Stmt := .plain (unload (s.home, s.register))

end Stand

/-- Scratch registers stand in for those of the names `xs` that do not live in a register, one for each. -/
structure StandIn (home : Name → Option Location) (l : Layout) (xs : List Name) (stands : List Stand) : Prop where
  each : ∀ x, x ∈ stands.map Stand.name ↔ x ∈ xs ∧ ∀ r, home x ≠ some (.register r)
  once : (stands.map Stand.name).Nodup
  home : ∀ s ∈ stands, home s.name = some s.home
  scratch : ∀ s ∈ stands, (∃ n, s.scratch = Name.generated Name.scratch n) ∧
    l.get? s.scratch = some (.register s.register) ∧ s.register ∈ Register.scratchPool

/-- Statements with a label on the first one. -/
def labelFirst (label : Name) : List Stmt → List Stmt
  | [] => []
  | first :: rest => first.withLabel label :: rest

/-- What becomes of a statement when names live where `home` has them and scratch names where `l` has them. -/
inductive IsGroup (home : Name → Option Location) (l : Layout) (stmt : Stmt) : List Stmt → Prop
  | call {callee args result} : stmt.action = .call callee args result → IsGroup home l stmt [stmt]
  | moved {ins outs} : stmt.action.isLocal = true → StandIn home l stmt.action.inputs ins →
    StandIn home l stmt.action.outputs outs → ((ins ++ outs).map Stand.register).Nodup →
    IsGroup home l stmt (labelFirst stmt.label (ins.map Stand.fetch ++
      .plain (stmt.action.substitute (Stand.renames ins) (Stand.renames outs)) :: outs.map Stand.deliver))

section

variable {home : Name → Option Location} {l : Layout} {xs : List Name} {stands : List Stand}

namespace StandIn

theorem nil_of_registers (standIn : StandIn home l xs stands) (inside : ∀ x ∈ xs, ∃ r, home x = some (.register r)) :
    stands = [] := by
  rcases stands with _ | ⟨s, stands⟩
  · rfl
  · obtain ⟨member, elsewhere⟩ := (standIn.each s.name).1 (by simp)
    obtain ⟨r, found⟩ := inside s.name member
    exact absurd found (elsewhere r)

theorem register (standIn : StandIn l.get? l xs stands) {x : Name} (member : x ∈ xs) :
    ∃ r, l.get? ((Stand.renames stands).apply x) = some (.register r) := by
  cases renamed : (Stand.renames stands).lookup x with
  | some tmp =>
    have entry : (x, tmp) ∈ Stand.renames stands := by
      obtain ⟨before, behind, split, _⟩ := List.lookup_eq_some_iff.1 renamed
      simp [split]
    obtain ⟨s, isStand, same⟩ := List.mem_map.1 entry
    cases same
    rw [Renaming.apply, renamed]
    exact ⟨_, (standIn.scratch s isStand).2.1⟩
  | none =>
    rw [Renaming.apply, renamed]
    by_contra outside
    exact Stand.lookup_renames_eq_none.1 renamed ((standIn.each x).2 ⟨member, fun r found => outside ⟨r, found⟩⟩)

theorem length_eq {l' : Layout} {stands' : List Stand} (standIn : StandIn home l xs stands)
    (standIn' : StandIn home l' xs stands') : stands.length = stands'.length := by
  have same := (List.perm_ext_iff_of_nodup standIn.once standIn'.once).2 fun x =>
    (standIn.each x).trans (standIn'.each x).symm
  simpa using same.length_eq

end StandIn

theorem substitute_nil (action : Action) : action.substitute [] [] = action := by
  have same : Renaming.apply [] = id := rfl
  cases action with
  | call callee args result => simp [Action.substitute, same]
  | ret var => simp [Action.substitute, same]
  | _ => rfl

theorem mem_labelFirst {label : Name} {code : List Stmt} {s : Stmt} (member : s ∈ labelFirst label code) :
    ∃ s' ∈ code, s.action = s'.action := by
  cases code with
  | nil => cases member
  | cons first rest =>
    rcases List.mem_cons.1 member with rfl | later
    · exact ⟨first, by simp, rfl⟩
    · exact ⟨s, List.mem_cons_of_mem _ later, rfl⟩

theorem length_labelFirst (label : Name) (code : List Stmt) : (labelFirst label code).length = code.length := by
  cases code <;> rfl

namespace IsGroup

variable {queue : Queue Usage Usage.less} {stmt : Stmt} {group : List Stmt}

theorem unchanged (isGroup : IsGroup home l stmt group)
    (inside : ∀ x ∈ stmt.action.inputs ++ stmt.action.outputs, ∃ r, home x = some (.register r)) : group = [stmt] := by
  cases isGroup with
  | call => rfl
  | moved here reads writes distinct =>
    obtain rfl := reads.nil_of_registers fun x input => inside x (List.mem_append_left _ input)
    obtain rfl := writes.nil_of_registers fun x output => inside x (List.mem_append_right _ output)
    change [(Stmt.plain (stmt.action.substitute [] [])).withLabel stmt.label] = _
    rw [substitute_nil]
    rfl

theorem registers (isGroup : IsGroup l.get? l stmt group) {s : Stmt} (member : s ∈ group)
    (noCall : ∀ callee args result, s.action ≠ .call callee args result) :
    ∀ x ∈ s.action.inputs ++ s.action.outputs, ∃ r, l.get? x = some (.register r) := by
  cases isGroup with
  | call isCall =>
    rw [List.mem_singleton.1 member] at noCall
    exact absurd isCall (noCall _ _ _)
  | moved here reads writes distinct =>
    obtain ⟨s', inside, same⟩ := mem_labelFirst member
    rw [same]
    rcases List.mem_append.1 inside with fetched | later
    · obtain ⟨stand, _, rfl⟩ := List.mem_map.1 fetched
      exact fun x never => by cases never
    · rcases List.mem_cons.1 later with rfl | delivered
      · intro x operand
        rcases List.mem_append.1 operand with input | output
        · obtain ⟨y, isInput, rfl⟩ := mem_inputs_substitute here input
          exact reads.register isInput
        · change x ∈ (Action.substitute _ _ stmt.action).outputs at output
          rw [Action.outputs_substitute here] at output
          obtain ⟨y, isOutput, rfl⟩ := List.mem_map.1 output
          exact writes.register isOutput
      · obtain ⟨stand, _, rfl⟩ := List.mem_map.1 delivered
        exact fun x never => by cases never

theorem exists_length (isGroup : IsGroup home l stmt group) (here : stmt.action.isLocal = true) :
    ∃ ins outs, StandIn home l stmt.action.inputs ins ∧ StandIn home l stmt.action.outputs outs ∧
      group.length = ins.length + 1 + outs.length := by
  cases isGroup with
  | call isCall =>
    rw [isCall] at here
    cases here
  | @moved ins outs _ reads writes distinct =>
    refine ⟨ins, outs, reads, writes, ?_⟩
    rw [length_labelFirst, List.length_append, List.length_cons, List.length_map, List.length_map]
    omega

end IsGroup

end

theorem Ledger.standIn {start : Namer} {a b total : Nat} {l final : Layout} {pool : List Register} {xs : List Name}
    {loan : Loan} {stands : List Stand} (ledger : Ledger start a l pool xs loan stands) (small : total < 2 ^ 64)
    (below : a + stands.length ≤ b) (later : Extends start b total loan.layout final) (within : b ≤ total)
    (old : ∀ x ∈ xs, ∀ j, a < j → j ≤ total → x ≠ start.made Name.scratch j)
    (scratch : ∀ r ∈ pool, r ∈ Register.scratchPool) : StandIn final.get? final xs stands := by
  -- no operand is a name that is made from here on, so all of them stay where they are
  have same : ∀ x ∈ xs, final.get? x = l.get? x := by
    intro x member
    rw [later x fun j above below => old x member j (by omega) below]
    exact ledger.other fun j above upTo => old x member j above (by rw [ledger.length] at upTo; omega)
  refine ⟨fun x => ⟨?_, ?_⟩, ledger.once, ?_, ?_⟩
  · intro named
    obtain ⟨s, member, rfl⟩ := List.mem_map.1 named
    obtain ⟨isOperand, found, elsewhere⟩ := ledger.home s member
    refine ⟨isOperand, fun r register => elsewhere r ?_⟩
    rw [same _ isOperand, found] at register
    exact Option.some.inj register
  · rintro ⟨isOperand, elsewhere⟩
    by_contra unnamed
    rcases ledger.served x isOperand with served | ⟨r, register⟩
    · rw [ledger.renames, Stand.lookup_renames_eq_none.2 unnamed] at served
      cases served
    · exact elsewhere r ((same x isOperand).trans register)
  · intro s member
    obtain ⟨isOperand, found, _⟩ := ledger.home s member
    rw [same _ isOperand, found]
  · intro s member
    obtain ⟨j, above, upTo, name⟩ := ledger.scratch s member
    refine ⟨⟨_, name⟩, ?_, scratch _ ?_⟩
    · rw [later _ fun j' above' below' equal => ?_, ledger.register s member]
      have := Namer.made_injective (by omega) (by omega) (name.symm.trans equal)
      omega
    · rw [← ledger.pool, ledger.stood, List.map_map]
      exact List.mem_append_left _ (List.mem_map_of_mem (f := Stand.register) member)

section

variable {start : Namer} {a total : Nat} {l final : Layout} {stmt : Stmt}

theorem code_movedBlock {ins outs : Loan} {ins' outs' : List Stand}
    (renames : ins.lent = Stand.renames ins') (renames' : outs.lent = Stand.renames outs')
    (stood : ins.places = ins'.map fun s => (s.home, s.register))
    (stood' : outs.places = outs'.map fun s => (s.home, s.register)) :
    (movedBlock stmt ins outs).code = labelFirst stmt.label (ins'.map Stand.fetch ++
      .plain (stmt.action.substitute (Stand.renames ins') (Stand.renames outs')) :: outs'.map Stand.deliver) := by
  unfold movedBlock
  rw [stood, stood', renames, renames', List.map_map, List.map_map]
  cases ins' <;> rfl

theorem moveStmt_group {made : Nat} (small : total < 2 ^ 64)
    (placed : ∀ x ∈ stmt.action.inputs ++ stmt.action.outputs, l.get? x ≠ none)
    (old : ∀ x ∈ stmt.action.inputs ++ stmt.action.outputs, ∀ j, a < j → j ≤ total →
      x ≠ start.made Name.scratch j)
    (plain : ∀ src dst, stmt.action ≠ .move src dst)
    (length : (moveStmt (start.after a) l stmt).code.length = 1 + made) (bound : a + made ≤ total)
    (later : Extends start (a + made) total (moveStmt (start.after a) l stmt).layout final) :
    IsGroup final.get? final stmt (moveStmt (start.after a) l stmt).code := by
  by_cases here : stmt.action.isLocal = true
  · rw [moveStmt_of_isLocal _ _ here] at length later ⊢
    obtain rfl : _ = made := Nat.add_left_cancel ((length_movedBlock _ _).symm.trans length)
    rw [← Nat.add_assoc] at bound later
    obtain ⟨ins, reads⟩ := ledger_loansIn small placed old here (by omega)
    obtain ⟨outs, writes⟩ := ledger_loansOut small placed old here bound
    have lent := made_loansOut start a l stmt.action
    rw [code_movedBlock reads.renames writes.renames reads.stood writes.stood]
    refine .moved here ?_ ?_ ?_
    · refine reads.standIn small (by rw [reads.length]) (lent.extends.trans later (Nat.le_add_right ..) bound) (by omega)
        (fun x member => old x (List.mem_append_left _ member)) registers_scratchPool
    · refine writes.standIn small (by rw [writes.length]) later bound
        (fun x member j above => old x (List.mem_append_right _ member) j (by omega)) ?_
      exact fun r member => (lends_loansIn (start.after a) l stmt.action).pool r member
    · -- what is lent to the results comes out of the pool that is left
      have distinct := registers_nodup
      rw [← reads.pool, ← writes.pool, ← List.append_assoc, reads.stood, writes.stood, List.map_map, List.map_map,
        ← List.map_append] at distinct
      exact (List.nodup_append.1 distinct).1
  · obtain ⟨label, action⟩ := stmt
    cases action with
    | call => exact .call rfl
    | move src dst => exact absurd rfl (plain src dst)
    | _ => exact absurd rfl here

end

variable {start : Namer} {a moves total : Nat} {globals new : List Global} {f g : Function} {strings : Nat → Name}
  {l final : Layout}

theorem groups_of_assigns (assigns : Assigns queue start a moves globals new f g strings l) (layout : g.layout = some final)
    (small : total < 2 ^ 64) (bound : a + new.length + moves ≤ total)
    (plain : ∀ s ∈ f.body, ∀ src dst, s.action ≠ .move src dst)
    (old : ∀ x ∈ usedNames f.params f.body, ∀ j, 0 < j → j ≤ total → x ≠ start.made Name.scratch j) :
    ∃ groups, g.body = groups.flatten ∧
      List.Forall₂ (IsGroup final.get? final) (withStrings strings f.body) groups := by
  rw [assigns.layout, Option.some.injEq] at layout
  subst layout
  obtain ⟨length, since⟩ := assigns.since
  have used : ∀ stmt ∈ withStrings strings f.body, ∀ x ∈ stmt.action.inputs ++ stmt.action.outputs,
      x ∈ usedNames f.params (withStrings strings f.body) := fun stmt member x operand => mem_usedNames member operand
  rw [assigns.code]
  refine moveBody_each ?_ ?_ length bound (fun _ _ => rfl) ?_
  · exact fun stmt member x operand => get?_withFrame_ne_none assigns.places (used stmt member x operand)
  · intro stmt member x operand j above below
    have isUsed := used stmt member x operand
    rw [usedNames_withStrings] at isUsed
    exact old x isUsed j (by omega) below
  · intro stmt member _ _ _ placed old
    refine moveStmt_group small placed old ?_
    obtain ⟨i, original, inBody, rfl⟩ := mem_withStrings member
    exact fun src dst isMove => plain original (List.mem_of_getElem? inBody) src dst (symbolic_eq_move.1 isMove)

end MiniC.Storage

namespace MiniC.Code.Program

open Storage

variable {p q : Program} {i : Nat} {f : Function}

/-- Storage assignment makes a group of each statement, as long as the counter of names does not overflow. -/
theorem groups_of_assign (assigned : p.assign = ⟨q, none⟩) (source : p.functions[i]? = some f)
    (hasBody : f.external = false) (plain : ∀ s ∈ f.body, ∀ src dst, s.action ≠ .move src dst)
    (old : ∀ x ∈ usedNames f.params f.body, ∀ n, x = Name.generated Name.scratch n → n ≤ p.names.count)
    (room : p.names.count.toInt + q.size < p.size + 2 ^ 63) :
    ∃ (g : Function) (l : Layout) (strings : Nat → Name) (groups : List (List Stmt)),
      q.functions[i]? = some g ∧ g.layout = some l ∧
      (∀ j label dest text, f.body[j]? = some ⟨label, .store dest (some (.str text))⟩ →
        q.global? (strings j) = some ⟨strings j, .string, some (.str text)⟩) ∧
      g.body = groups.flatten ∧
      List.Forall₂ (fun s group => IsGroup l.get? l s group ∧
          ((∀ x ∈ s.action.inputs ++ s.action.outputs, ∃ r, l.get? x = some (.register r)) → group = [s]))
        (withStrings strings f.body) groups ∧
      (∀ s ∈ g.body, (∀ callee args result, s.action ≠ .call callee args result) →
        ∀ x ∈ s.action.inputs ++ s.action.outputs, ∃ r, l.get? x = some (.register r)) ∧
      labels g.body = labels f.body := by
  obtain ⟨made, new, declared, grown, strings_made, each⟩ := assign_spec assigned
  obtain ⟨b, moves, earlier, own, later, g, strings, l, bound, parts, found, assigns⟩ := each source hasBody
  have small : made < 2 ^ 64 := by
    have least := Int64.le_toInt p.names.count
    omega
  have isNew : ∀ x ∈ usedNames f.params f.body, ∀ j, 0 < j → j ≤ made → x ≠ p.names.made Name.scratch j := by
    intro x used j above below
    exact Namer.ne_made (by omega) (old x used) above
  obtain ⟨groups, joined, areGroups⟩ := groups_of_assigns assigns assigns.layout small bound plain isNew
  refine ⟨g, _, strings, groups, found, assigns.layout, ?_, joined, ?_, ?_, ?_⟩
  · intro j label dest text at_
    obtain ⟨before, kept⟩ := assigns.extracts.kept at_
    rw [global?, declared, parts, ← List.append_assoc, ← List.append_assoc, List.find?_append, List.find?_append, before,
      kept]
    rfl
  · exact areGroups.imp fun s group isGroup => ⟨isGroup, isGroup.unchanged⟩
  · intro s member noCall
    rw [joined] at member
    obtain ⟨group, inGroups, inside⟩ := List.mem_flatten.1 member
    obtain ⟨stmt, _, isGroup⟩ := exists_of_mem_right areGroups inGroups
    exact isGroup.registers inside noCall
  · rw [assigns.code]
    exact ((keeps_withStrings strings f.body).trans (keeps_moveBody _ _ _)).labels

theorem groups_of_assign_mixed :
    ∃ (q : Program) (f g : Function) (l : Layout) (strings : Nat → Name) (groups : List (List Stmt)),
      mixed.assign = ⟨q, none⟩ ∧ mixed.functions[0]? = some f ∧ f.external = false ∧
      (∀ s ∈ f.body, ∀ src dst, s.action ≠ .move src dst) ∧
      (∀ x ∈ usedNames f.params f.body, ∀ n, x = Name.generated Name.scratch n → n ≤ mixed.names.count) ∧
      mixed.names.count.toInt + q.size < mixed.size + 2 ^ 63 ∧ q.functions[0]? = some g ∧ g.layout = some l ∧
      g.body = groups.flatten ∧ List.Forall₂ (IsGroup l.get? l) (withStrings strings f.body) groups ∧
      labels g.body = ["again"] := by
  have plain : ∀ f ∈ mixed.functions, ∀ s ∈ f.body, ∀ src dst, s.action ≠ .move src dst := by
    simp [mixed]
  have old : ∀ f ∈ mixed.functions, ∀ x ∈ usedNames f.params f.body, ∀ n, x = Name.generated Name.scratch n →
      n ≤ mixed.names.count :=
    fun f member x used n generated => absurd generated (Name.ne_generated (user_mixed f member x used) _ n)
  obtain ⟨g, l, strings, groups, found, layout, _, joined, areGroups, _, marks⟩ :=
    groups_of_assign (i := 0) assigned_mixed rfl rfl (plain _ (List.mem_cons_self ..)) (old _ (List.mem_cons_self ..))
      room_mixed
  exact ⟨_, _, g, l, strings, groups, assigned_mixed, rfl, rfl, plain _ (List.mem_cons_self ..),
    old _ (List.mem_cons_self ..), room_mixed, found, layout, joined, areGroups.imp fun _ _ => And.left, marks⟩

def rereading : Function :=
  ⟨"f", .int, [⟨.int, overlap⟩], false, [⟨[], .branch .zero overlap "end"⟩, ⟨"end", .ret overlap⟩], none⟩

def rereadOnce : Function :=
  let body : List Stmt :=
    [⟨[], .move (.stack 16 8) (.register .t6)⟩, ⟨[], .branch .zero overlap "end"⟩, ⟨"end", .ret overlap⟩]
  { rereading with
    body
    layout := some ⟨[(overlap, .register .t6)], [⟨"ra", 0, 8, some .ra⟩, ⟨"fp", 8, 8, some .fp⟩, ⟨overlap, 16, 8, none⟩], 24⟩ }

/-- Either both statements fetch the parameter or none of them does, but there is one move. -/
theorem not_groups_rereading :
    (⟨⟨Int64.maxValue⟩, [], [rereading]⟩ : Program).assign = ⟨⟨⟨Int64.minValue⟩, [], [rereadOnce]⟩, none⟩ ∧
      (∀ s ∈ rereading.body, ∀ src dst, s.action ≠ .move src dst) ∧
      (∀ x ∈ usedNames rereading.params rereading.body, ∀ kind n, x = Name.generated kind n → n ≤ Int64.maxValue) ∧
      ∀ home l strings groups, rereadOnce.body = groups.flatten →
        ¬ List.Forall₂ (IsGroup home l) (withStrings strings rereading.body) groups := by
  refine ⟨by rfl, by simp [rereading], fun x _ kind n _ => Int64.le_maxValue n, ?_⟩
  intro home l strings groups joined areGroups
  have reads : (Action.ret overlap).inputs = [overlap] := by
    rw [Action.inputs, overlap, if_neg (Name.generated_ne_nil _ _)]
  cases areGroups with
  | @cons _ first _ _ isFirst rest =>
    cases rest with
    | @cons _ second _ _ isSecond rest =>
      cases rest
      obtain ⟨ins, outs, standIn, none, length⟩ := isFirst.exists_length rfl
      obtain ⟨ins', outs', standIn', none', length'⟩ := isSecond.exists_length rfl
      obtain rfl := none.nil_of_registers (fun x never => by cases never)
      obtain rfl := none'.nil_of_registers (fun x never => by cases never)
      have same : ins.length = ins'.length := standIn.length_eq (reads ▸ standIn')
      have total := congrArg List.length joined
      simp only [List.flatten_cons, List.flatten_nil, List.length_append, List.length_nil, length, length'] at total
      have three : rereadOnce.body.length = 3 := rfl
      omega

end MiniC.Code.Program
