import MiniC.Proofs.Storage.Literals
import MiniC.Proofs.Storage.Totality

namespace MiniC.Storage

open Code

variable {names : Namer} {globals : List Global} {before after : List Function} {f : Function}

theorem assignFunctions_append (fine : (assignFunctions Usage.queue names globals before).error = none) (after : List Function) :
    assignFunctions Usage.queue names globals (before ++ after) =
      { assignFunctions Usage.queue (assignFunctions Usage.queue names globals before).names (assignFunctions Usage.queue names globals before).globals after with
        result := (assignFunctions Usage.queue names globals before).result ++
          (assignFunctions Usage.queue (assignFunctions Usage.queue names globals before).names (assignFunctions Usage.queue names globals before).globals
            after).result } := by
  induction before generalizing names globals with
  | nil => rfl
  | cons f before ih =>
    rw [List.cons_append]
    cases external : f.external with
    | true =>
      rw [assignFunctions_cons_external external] at fine ⊢
      rw [assignFunctions_cons_external external, ih fine]
      rfl
    | false =>
      cases failed : (assignFunction Usage.queue names globals f).error with
      | some e =>
        rw [assignFunctions_cons_error external failed] at fine
        cases fine
      | none =>
        rw [assignFunctions_cons_ok external failed] at fine ⊢
        rw [assignFunctions_cons_ok external failed, ih fine]
        rfl

theorem exists_stop {fs : List Function} (failed : (assignFunctions Usage.queue names globals fs).error ≠ none) :
    ∃ before f after, fs = before ++ f :: after ∧ f.external = false ∧ (assignFunctions Usage.queue names globals before).error = none ∧
      (assignFunction Usage.queue (assignFunctions Usage.queue names globals before).names (assignFunctions Usage.queue names globals before).globals f).error ≠
        none := by
  induction fs generalizing names globals with
  | nil => exact absurd rfl failed
  | cons f fs ih =>
    cases external : f.external with
    | true =>
      rw [assignFunctions_cons_external external] at failed
      obtain ⟨before, g, after, rfl, hasBody, fine, stops⟩ := ih failed
      refine ⟨f :: before, g, after, rfl, hasBody, ?_⟩
      rw [assignFunctions_cons_external external]
      exact ⟨fine, stops⟩
    | false =>
      cases own : (assignFunction Usage.queue names globals f).error with
      | some e => exact ⟨[], f, fs, rfl, external, rfl, by rw [assignFunctions, own]; simp⟩
      | none =>
        rw [assignFunctions_cons_ok external own] at failed
        obtain ⟨before, g, after, rfl, hasBody, fine, stops⟩ := ih failed
        refine ⟨f :: before, g, after, rfl, hasBody, ?_⟩
        rw [assignFunctions_cons_ok external own]
        exact ⟨fine, stops⟩

theorem nodup_of_placeGlobals {l l' : Layout} {gs : List Global} (ok : placeGlobals l gs = .ok l') :
    (gs.map (·.name)).Nodup := by
  induction gs generalizing l with
  | nil => exact List.nodup_nil
  | cons g gs ih =>
    rw [placeGlobals] at ok
    split at ok
    · cases ok
    · have later := find?_of_placeGlobals (x := g.name) ok (by rw [Layout.get?_set_same]; simp)
      rw [List.map_cons, List.nodup_cons]
      refine ⟨?_, ih ok⟩
      simpa using later

theorem exists_place_iff {params : List Param} {body : List Stmt} :
    (∃ l, place Usage.queue globals params body = .ok l) ↔ (globals.map (·.name)).Nodup := by
  constructor
  · rintro ⟨l, ok⟩
    obtain ⟨named, isGlobals, _⟩ := bind_eq_ok.1 ok
    exact nodup_of_placeGlobals isGlobals
  · intro nodup
    cases placed : place Usage.queue globals params body with
    | ok l => exact ⟨l, rfl⟩
    | error name => exact absurd nodup (place_error placed)

/-- A label for a string of `body` is taken, or else two of the globals that there are then have the same name. -/
def Clashes (names : Namer) (globals : List Global) (body : List Stmt) : Prop :=
  Collides names globals body ∨ ¬ Collides names globals body ∧
    ¬ ((globals ++ stringGlobals (labelsFor names body) (literals body)).map (·.name)).Nodup

theorem assignFunction_fails_iff : (assignFunction Usage.queue names globals f).error ≠ none ↔ Clashes names globals f.body := by
  rcases assignFunction_cases names globals f with
    ⟨collides, label, same⟩ | ⟨free, ⟨name, placed, same⟩ | ⟨l, moved, placed, _, same⟩⟩
  · rw [same]
    exact ⟨fun _ => .inl collides, fun _ => by simp⟩
  · rw [same]
    exact ⟨fun _ => .inr ⟨free, place_error placed⟩, fun _ => by simp⟩
  · rw [same]
    have nodup := exists_place_iff.1 ⟨l, placed⟩
    constructor
    · intro never
      exact absurd rfl never
    · rintro (collides | ⟨_, twice⟩)
      · exact absurd collides free
      · exact absurd nodup twice

theorem result_of_error {e : Error} (failed : (assignFunction Usage.queue names globals f).error = some e) :
    ∃ body, (assignFunction Usage.queue names globals f).result = { f with body } ∧ body.length = f.body.length := by
  have length := length_extractStrings names globals f.body
  rcases assignFunction_cases names globals f with ⟨_, label, same⟩ | ⟨free, ⟨name, _, same⟩ | ⟨l, moved, _, _, same⟩⟩
  · rw [same]
    exact ⟨_, rfl, length⟩
  · rw [same]
    rw [extractStrings_eq free] at length
    exact ⟨_, rfl, length⟩
  · rw [same] at failed
    cases failed

/-- Would the operand need a register when none is left? -/
def Loan.Exhausted (loan : Loan) (x : Name) : Prop :=
  loan.lent.lookup x = none ∧ loan.pool = [] ∧ ∃ place, loan.layout.get? x = some place ∧ ∀ r, place ≠ .register r

theorem length_pool_foldl (loan : Loan) (xs : List Name) :
    loan.pool.length ≤ (xs.foldl Loan.lend loan).pool.length + xs.length := by
  induction xs generalizing loan with
  | nil => exact Nat.le_refl _
  | cons x xs ih =>
    have rest := ih (loan.lend x)
    rw [List.foldl_cons, List.length_cons]
    rcases lend_cases loan x with ⟨same, _⟩ | ⟨_, r, pool, _, _, _, isPool, gives⟩
    · rw [same] at rest ⊢
      omega
    · rw [gives] at rest ⊢
      rw [isPool, List.length_cons]
      dsimp only at rest
      omega

/-- There is a register for each operand of an action that needs one. -/
def Suffices (names : Namer) (l : Layout) (action : Action) : Prop :=
  ∀ (before : List Name) (x : Name) (after : List Name),
    (action.inputs = before ++ x :: after → ¬ (before.foldl Loan.lend (.start names l Loan.registers)).Exhausted x) ∧
    (action.outputs = before ++ x :: after → ¬ (before.foldl Loan.lend (.start (loansIn names l action).names
      (loansIn names l action).layout (loansIn names l action).pool)).Exhausted x)

theorem suffices_of_noCall (names : Namer) (l : Layout) {action : Action}
    (noCall : ∀ callee args result, action ≠ .call callee args result) : Suffices names l action := by
  intro before x after
  have few : action.inputs.length ≤ 2 := by
    by_cases here : action.isLocal = true
    · exact @inputs_length ⟨[], action⟩ here
    · cases action with
      | call => exact absurd rfl (noCall _ _ _)
      | move => exact Nat.zero_le _
      | _ => exact absurd rfl here
  have few' := outputs_length action
  have many : Loan.registers.length = 5 := by decide
  constructor
  · rintro isInput ⟨_, empty, _⟩
    have left := length_pool_foldl (.start names l Loan.registers) before
    rw [empty] at left
    rw [isInput, List.length_append, List.length_cons] at few
    change Loan.registers.length ≤ _ at left
    rw [List.length_nil] at left
    omega
  · rintro isOutput ⟨_, empty, _⟩
    have left : Loan.registers.length ≤ (loansIn names l action).pool.length + action.inputs.length :=
      length_pool_foldl (.start names l Loan.registers) action.inputs
    have left' : (loansIn names l action).pool.length ≤ _ :=
      length_pool_foldl (.start (loansIn names l action).names (loansIn names l action).layout (loansIn names l action).pool) before
    rw [empty] at left'
    rw [isOutput, List.length_append, List.length_cons] at few'
    rw [List.length_nil] at left'
    omega

end MiniC.Storage

namespace MiniC.Code.Program

open Storage

variable {p : Program} {before after : List Function} {f : Function}

/-- The program as far as these functions. -/
def upTo (p : Program) (before : List Function) : Program :=
  { p with functions := before }

/-- Processing reaches the function `f`, and cannot go on there. -/
structure StopsAt (p : Program) (before : List Function) (f : Function) (after : List Function) : Prop where
  functions : p.functions = before ++ f :: after
  hasBody : f.external = false
  reached : (p.upTo before).assign.error = none
  clashes : Clashes (p.upTo before).assign.program.names (p.upTo before).assign.program.globals f.body

/-- What is left of the program when processing stops at `f`. -/
structure LeftAt (p : Program) (before : List Function) (f : Function) (after : List Function) : Prop where
  error : ∃ e path, p.assign.error = some e ∧ e.path = .function f.name :: path
  functions : ∃ body, p.assign.program.functions =
    (p.upTo before).assign.program.functions ++ { f with body } :: after ∧ body.length = f.body.length
  earlier : List.Forall₂ (fun g g' => (g.external = true → g' = g) ∧ (g.external = false → g'.layout ≠ none)) before
    (p.upTo before).assign.program.functions

theorem assign_of_stopsAt (stops : p.StopsAt before f after) :
    ∃ e path body, p.assign.error = some e ∧ e.path = .function f.name :: path ∧ p.assign.program.functions =
      (p.upTo before).assign.program.functions ++ { f with body } :: after ∧ body.length = f.body.length := by
  have fine : (assignFunctions Usage.queue p.names p.globals before).error = none := stops.reached
  have failed : (assignFunction Usage.queue (assignFunctions Usage.queue p.names p.globals before).names
      (assignFunctions Usage.queue p.names p.globals before).globals f).error ≠ none := assignFunction_fails_iff.2 stops.clashes
  obtain ⟨e, failed⟩ := Option.ne_none_iff_exists'.1 failed
  obtain ⟨body, result, length⟩ := result_of_error failed
  have left := assignFunctions_append fine (f :: after)
  rw [assignFunctions_cons_error stops.hasBody failed after, ← stops.functions] at left
  refine ⟨_, e.path, body, congrArg Progress.error left, rfl, ?_, length⟩
  rw [← result]
  exact congrArg Progress.result left

theorem leftAt_of_stopsAt (stops : p.StopsAt before f after) : p.LeftAt before f after := by
  obtain ⟨e, path, body, failed, named, functions, length⟩ := assign_of_stopsAt stops
  constructor
  case error => exact ⟨e, path, failed, named⟩
  case functions => exact ⟨body, functions, length⟩
  case earlier =>
    apply (assignFunctions_each stops.reached).2.imp
    rintro g g' (⟨external, same⟩ | ⟨hasBody, _, _, _, _, _, _, _, _, _, assigns⟩)
    · exact ⟨fun _ => same, fun inside => by simp [external] at inside⟩
    · exact ⟨fun external => by simp [hasBody] at external, fun _ => by rw [assigns.layout]; simp⟩

/-- Storage assignment fails at the first function with a body whose strings or globals clash, and leaves the functions
behind it alone. -/
theorem assign_fails_iff (p : Program) :
    (p.assign.error ≠ none ↔ ∃ before f after, p.StopsAt before f after) ∧
      (∀ before f after, p.StopsAt before f after → p.LeftAt before f after) ∧
      ∀ names l action, (∀ callee args result, action ≠ .call callee args result) → Suffices names l action := by
  refine ⟨⟨?_, ?_⟩, fun _ _ _ => leftAt_of_stopsAt, fun names l action => suffices_of_noCall names l⟩
  · intro failed
    obtain ⟨before, f, after, functions, hasBody, fine, stops⟩ := exists_stop failed
    exact ⟨before, f, after, functions, hasBody, fine, assignFunction_fails_iff.1 stops⟩
  · rintro ⟨before, f, after, stops⟩
    obtain ⟨e, _, _, failed, _⟩ := assign_of_stopsAt stops
    rw [failed]
    simp

/-- The second of the functions with bodies needs two labels, and a global has the name of the second one. -/
def labelTaken : Program :=
  let first : List Stmt := [⟨[], .store "a" (some (.str "one"))⟩]
  let second : List Stmt := [⟨[], .store "b" (some (.str "two"))⟩, ⟨[], .store "b" (some (.str "three"))⟩]
  ⟨⟨0⟩, [⟨"x", .int, none⟩, ⟨"__str4", .string, some (.str "four")⟩], [⟨"puts", .int, [⟨.string, "s"⟩], true, [], none⟩,
    ⟨"f", .void, [], false, first, none⟩, ⟨"g", .void, [], false, second, none⟩, ⟨"h", .void, [], false, first, none⟩]⟩

theorem assign_fails_labelTaken :
    labelTaken.assign.error = some ⟨[.function "g", .strings], .labelTaken "__str4"⟩ ∧
      ∃ before f after, labelTaken.StopsAt before f after ∧ labelTaken.LeftAt before f after := by
  have failed : labelTaken.assign.error = some ⟨[.function "g", .strings], .labelTaken "__str4"⟩ := by rfl
  obtain ⟨iff, left, _⟩ := assign_fails_iff labelTaken
  obtain ⟨before, f, after, stops⟩ := iff.1 (by rw [failed]; simp)
  exact ⟨failed, before, f, after, stops, left before f after stops⟩

end MiniC.Code.Program
