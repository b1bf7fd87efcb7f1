import MiniC.Proofs.Execution.Blocks
import MiniC.Proofs.Storage.Serving

namespace MiniC.Storage

open Code

/-- A statement on places for one on names: a call as it is, any other with moves around it. -/
inductive StmtBlock (l : Layout) (stmt : Stmt) : Block Stmt → Prop
  | call {callee args result} :
    stmt.action = .call callee args result → StmtBlock l stmt (.around [] stmt [])
  | moved {ins outs places places' before main} :
    stmt.action.isLocal = true → Served l stmt.action.inputs ins places →
    Served l stmt.action.outputs outs places' → places'.length ≤ 1 →
    before.map Stmt.action = places.map load → main.action = stmt.action.substitute ins outs →
    (∀ head ∈ (before ++ [main]).head?, head.label = stmt.label) →
    (∀ other ∈ (before ++ [main]).tail, other.label = []) →
    StmtBlock l stmt (.around before main (places'.map fun p => .plain (unload p)))

/-- A string constant in a statement is kept in a global. -/
def symbolic (label : Name) : Action → Action
  | .store dest (some (.str _)) => .store dest (some (.symbol label))
  | action => action

section

variable (action : Action) (label : Name)

@[simp] theorem inputs_symbolic : (symbolic label action).inputs = action.inputs := by
  unfold symbolic
  split <;> rfl

@[simp] theorem outputs_symbolic : (symbolic label action).outputs = action.outputs := by
  unfold symbolic
  split <;> rfl

@[simp] theorem isLocal_symbolic : (symbolic label action).isLocal = action.isLocal := by
  unfold symbolic
  split <;> rfl

end

def isNamed : Action → Bool
  | .move .. | .store _ (some (.symbol _)) => false
  | _ => true

variable {l : Layout} {sizes : Name → Option Int64} {names : List Name} {callees : Callees} {s s' : Named}
  {t t' : Store} {strings : Nat → Name} {i k : Nat} {action : Action} {inputs : List Word} {events : List Event}
  {flow : Flow} {result : Option Word}

theorem computes_symbolic (agrees : Agrees l sizes names s t) (plain : isNamed action = true)
    (kept : ∀ dest text, action = .store dest (some (.str text)) →
      ∃ size, l.get? (strings i) = some (.memory (strings i) size)) :
    Computes ((Named.setting sizes callees strings).constant s i) action inputs events flow result ↔
      Computes ((Store.setting callees l.get?).constant t k) (symbolic (strings i) action) inputs events flow
        result := by
  have others : ∀ {c c' : Value → Set Word}, (∀ dest value, action ≠ .store dest value) →
      (Computes c action inputs events flow result ↔ Computes c' action inputs events flow result) := by
    intro c c' noStore
    constructor <;> intro computes <;> cases computes with
    | store => exact absurd rfl (noStore _ _)
    | _ => constructor <;> assumption
  cases action with
  | store dest value =>
    rcases value with _ | value
    · constructor <;> intro computes <;> cases computes
    · cases value with
      | str text =>
        obtain ⟨size, place⟩ := kept dest text rfl
        have same : ∀ w : Word, w ∈ (Named.setting sizes callees strings).constant s i (.str text) ↔
            w ∈ (Store.setting callees l.get?).constant t k (.symbol (strings i)) := by
          intro w
          simp [Named.setting, Store.setting, place, Store.get, agrees.cells, eq_comm]
        constructor <;> intro computes <;> cases computes with
        | store allowed => exact .store (by simpa only [same] using allowed)
      | symbol => cases plain
      | _ =>
        constructor <;> intro computes <;> cases computes with
        | store allowed => exact .store allowed
  | _ => exact others fun _ _ never => by cases never

theorem mapM_named (s : Named) (xs : List Name) :
    xs.mapM ((Named.setting sizes callees strings).read s) = some (xs.map (s.get sizes)) := by
  induction xs with
  | nil => rfl
  | cons x xs ih =>
    rw [List.mapM_cons, ih]
    rfl

theorem mapM_placed (callees : Callees) (agrees : Agrees l sizes names s t) {xs : List Name} (used : ∀ x ∈ xs, x ∈ names) :
    xs.mapM ((Store.setting callees l.get?).read t) = some (xs.map (s.get sizes)) := by
  induction xs with
  | nil => rfl
  | cons x xs ih =>
    have first : (Store.setting callees l.get?).read t x = some (s.get sizes x) :=
      agrees.values x (used x (List.mem_cons_self ..))
    rw [List.mapM_cons, ih fun y member => used y (List.mem_cons_of_mem _ member), first]
    rfl

theorem outputs_length (action : Action) : action.outputs.length ≤ 1 := by
  cases action with
  | call _ _ result => by_cases empty : result = [] <;> simp [Action.outputs, empty]
  | _ => simp [Action.outputs]

theorem deliver_iff (callees : Callees) (strings : Nat → Name) (result : Option Word) {xs : List Name}
    {outs : Renaming} {places : List (Location × Register)} (served : Served l xs outs places)
    (housed : Housed l sizes names) (agrees : Agrees l sizes names s t)
    (used : ∀ x ∈ xs, x ∈ names) (single : xs.length ≤ 1) (few : places.length ≤ 1) (k : Nat) :
    Matches (fun s' t₁ => ∃ t', (Store.setting callees l.get?).language.flows k
        (places.map fun p => .plain (unload p)) t₁ = {t'} ∧ (result = none → t' = t₁) ∧ Agrees l sizes names s' t')
      {s' | (Named.setting sizes callees strings).deliver s xs result s'}
      {t₁ | (Store.setting callees l.get?).deliver t (xs.map outs.apply) result t₁} := by
  match xs, result, single with
  | [], none, _ =>
    obtain rfl := served.places_nil
    exact .singleton ⟨t, rfl, fun _ => rfl, agrees⟩
  | [], some w, _ => exact ⟨fun _ never => never.elim, fun _ never => never.elim⟩
  | [x], none, _ => exact ⟨fun _ never => never.elim, fun _ never => never.elim⟩
  | [x], some w, _ =>
    obtain ⟨t₁, t', written, flow, agrees'⟩ := served.writes housed agrees (used x (by simp)) few w k
    constructor
    · rintro s' delivered
      obtain rfl : s.put sizes x w = s' := Option.some.inj delivered
      exact ⟨t₁, written, t', flow, (nomatch ·), agrees'⟩
    · rintro t₂ delivered
      obtain rfl : t₁ = t₂ := Option.some.inj (written.symm.trans delivered)
      exact ⟨s.put sizes x w, rfl, t', flow, (nomatch ·), agrees'⟩

def LeavesAlike (l : Layout) (sizes : Name → Option Int64) (names : List Name) (v : Option Word) (s : Named)
    (v' : Option Word) (t : Store) : Prop :=
  v = v' ∧ Agrees l sizes names s t

theorem lands (agrees : Agrees l sizes names s t) (flow : Flow) :
    Language.Lands (Agrees l sizes names) (LeavesAlike l sizes names) flow s flow t := by
  cases flow with
  | next => exact .next agrees
  | goto label => exact .goto agrees
  | leave v => exact .leave ⟨rfl, agrees⟩

theorem Computes.next {constants : Value → Set Word} {w : Word}
    (computes : Computes constants action inputs events flow (some w)) : flow = .next := by
  cases computes <;> rfl

variable {stmt : Stmt} {label : Name}

theorem moved_follows {ins outs : Renaming} {places places' : List (Location × Register)} {before : List Stmt}
    {main : Stmt} (housed : Housed l sizes names)
    (used : ∀ x ∈ stmt.action.inputs ++ stmt.action.outputs, x ∈ names)
    (plain : isNamed stmt.action = true)
    (kept : ∀ dest text, stmt.action = .store dest (some (.str text)) →
      ∃ size, l.get? (strings i) = some (.memory (strings i) size))
    (here : stmt.action.isLocal = true) (served : Served l stmt.action.inputs ins places)
    (served' : Served l stmt.action.outputs outs places') (few : places'.length ≤ 1)
    (moves : before.map Stmt.action = places.map load)
    (same : main.action = (symbolic (strings i) stmt.action).substitute ins outs) :
    Language.Follows (Named.setting sizes callees strings).language (Store.setting callees l.get?).language
      (Agrees l sizes names) (LeavesAlike l sizes names) i stmt k
      (.around before main (places'.map fun p => .plain (unload p))) := by
  intro s t agrees
  obtain ⟨t₁, flow, agrees₁, reads⟩ :=
    served.reads callees housed agrees (fun x member => used x (List.mem_append_left _ member)) moves k
  have main_here : main.action.isLocal = true := by
    rw [same, Action.isLocal_substitute, isLocal_symbolic, here]
  have main_inputs : main.action.inputs.mapM ((Store.setting callees l.get?).read t₁) =
      some (stmt.action.inputs.map (s.get sizes)) := by
    rw [same, Action.inputs_substitute (by rw [isLocal_symbolic, here]) served.named, inputs_symbolic, reads]
  have main_outputs : main.action.outputs = stmt.action.outputs.map outs.apply := by
    rw [same, Action.outputs_substitute (by rw [isLocal_symbolic, here]), outputs_symbolic]
  have main_computes : ∀ {inputs events flow result},
      Computes ((Named.setting sizes callees strings).constant s i) stmt.action inputs events flow result ↔
        Computes ((Store.setting callees l.get?).constant t₁ (k + before.length)) main.action inputs events
          flow result := by
    intro inputs events flow result
    rw [same, computes_substitute served.named]
    exact computes_symbolic agrees₁ plain kept
  have delivers := fun result => deliver_iff callees strings result served' housed agrees₁
    (fun x member => used x (List.mem_append_right _ member)) (outputs_length _) few (k + before.length + 1)
  constructor
  · rintro ⟨events, way, s'⟩ acts
    change Acts _ i s stmt.action events way s' at acts
    rw [acts_iff_computes here] at acts
    obtain ⟨inputs, result, read, computes, delivered⟩ := acts
    rw [mapM_named] at read
    cases read
    obtain ⟨t₂, delivered', t', last, alone, agrees'⟩ := (delivers result).1 s' delivered
    refine ⟨(events, way, t'), ⟨t₁, by rw [flow]; rfl, t₂, ?_, ?_⟩, rfl, lands agrees' way⟩
    · change Acts _ _ t₁ main.action events way t₂
      rw [acts_iff_computes main_here, main_outputs]
      exact ⟨_, result, main_inputs, main_computes.1 computes, delivered'⟩
    · split
      · rw [last]
        rfl
      · rename_i off
        cases result with
        | none => exact alone rfl
        | some w => exact absurd (Computes.next computes) off
  · rintro ⟨events, way, t'⟩ ⟨t₁', first, t₂, acts, last⟩
    rw [flow] at first
    obtain rfl : t₁' = t₁ := first
    change Acts _ _ t₁' main.action events way t₂ at acts
    rw [acts_iff_computes main_here, main_outputs] at acts
    obtain ⟨inputs, result, read, computes, delivered⟩ := acts
    cases main_inputs.symm.trans read
    obtain ⟨s', delivered', t'', last', alone, agrees'⟩ := (delivers result).2 t₂ delivered
    have final : t' = t'' := by
      split at last
      · rw [last'] at last
        exact last
      · rename_i off
        cases result with
        | none => rw [alone rfl]; exact last
        | some w => exact absurd (Computes.next computes) off
    subst final
    refine ⟨(events, way, s'), ?_, rfl, lands agrees' way⟩
    change Acts _ i s stmt.action events way s'
    rw [acts_iff_computes here]
    exact ⟨_, result, mapM_named s _, main_computes.2 computes, delivered'⟩

theorem call_follows {callee : Name} {args : List Name} {result : Name} (housed : Housed l sizes names)
    (used : ∀ x ∈ stmt.action.inputs ++ stmt.action.outputs, x ∈ names) {main : Stmt}
    (calls : stmt.action = .call callee args result) (same : main.action = .call callee args result) :
    Language.Follows (Named.setting sizes callees strings).language (Store.setting callees l.get?).language
      (Agrees l sizes names) (LeavesAlike l sizes names) i stmt k (.around [] main []) := by
  intro s t agrees
  rw [calls] at used
  have placed := mapM_placed callees agrees fun x member => used x (List.mem_append_left _ member)
  -- the result is put into the place of its name, if it has one
  have keeps : ∀ {s₁ t₁ w}, Agrees l sizes names s₁ t₁ →
      ∃ s' t', (Named.setting sizes callees strings).keep s₁ result w = some s' ∧
        (Store.setting callees l.get?).keep t₁ result w = some t' ∧ Agrees l sizes names s' t' := by
    intro s₁ t₁ w agrees₁
    unfold Setting.keep
    split
    · exact ⟨s₁, t₁, rfl, rfl, agrees₁⟩
    · rename_i named
      have member : result ∈ names := used result (List.mem_append_right _ (by simp [Action.outputs, named]))
      obtain ⟨place, t', found, written, agrees'⟩ := agrees₁.put housed member w
      refine ⟨_, t', rfl, ?_, agrees'⟩
      change (l.get? result).bind (t₁.put w) = _
      rw [found]
      exact written
  constructor
  · rintro ⟨events, way, s'⟩ acts
    cases (language_acts_iff calls).1 acts with
    | call read called stored =>
      rw [mapM_named] at read
      cases read
      obtain ⟨cells, returned, rfl⟩ := called
      have kept : t.Keeps ⟨t.regs, t.frame, cells⟩ := ⟨rfl, fun _ _ => rfl⟩
      obtain ⟨s'', t', stored', stored'', agrees'⟩ := keeps (agrees.keep housed kept)
      cases stored'.symm.trans stored
      refine ⟨(_, .next, t'), ⟨t, rfl, t', (language_acts_iff same).2 (.call placed ?_ stored''), rfl⟩, rfl,
        .next agrees'⟩
      exact ⟨by rw [agrees.cells]; exact returned, rfl, fun _ _ => rfl⟩
  · rintro ⟨events, way, t'⟩ ⟨t₁, first, t₂, acts, last⟩
    obtain rfl : t₁ = t := first
    cases (language_acts_iff same).1 acts with
    | call read called stored =>
      cases placed.symm.trans read
      obtain ⟨returned, kept⟩ := called
      obtain ⟨s', t'', stored', stored'', agrees'⟩ := keeps (agrees.keep housed kept)
      cases stored''.symm.trans stored
      obtain rfl : t' = t₂ := last
      refine ⟨(_, .next, s'), (language_acts_iff calls).2 (.call (mapM_named s _) ?_ stored'), rfl, .next agrees'⟩
      exact ⟨_, by rw [← agrees.cells]; exact returned, rfl⟩

end MiniC.Storage
