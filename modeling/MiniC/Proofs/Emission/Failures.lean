import MiniC.Proofs.Emission.Labels

namespace MiniC.Assembly

open Code Storage

variable {e : Error}

/-- Causes that lie in the program and not in how it was processed. -/
def Cause.isUserError : Cause → Bool
  | .redeclaredFunction _ | .reservedFunction _ | .noEntry _ | .redeclaredGlobal _ | .globalIsFunction _
  | .reservedGlobal _ | .frameSize _ | .tooManyParams _ | .unknownFunction _ | .argCount .. | .tooManyArgs .. => true
  | _ => false

def Movable : Location → Prop
  | .nowhere => False
  | .stack offset _ => fits offset = true
  | _ => True

theorem exists_load {place : Location} (movable : Movable place) (r : Register) :
    ∃ code, move place (.register r) = .ok code := by
  cases place with
  | nowhere => exact movable.elim
  | stack offset size => exact ⟨_, if_pos movable⟩
  | _ => exact ⟨_, rfl⟩

theorem exists_unload {place : Location} (movable : Movable place) (r : Register) :
    ∃ code, move (.register r) place = .ok code := by
  cases place with
  | nowhere => exact movable.elim
  | stack offset size => exact ⟨_, if_pos movable⟩
  | _ => exact ⟨_, rfl⟩

namespace Scope

variable (scope : Scope)

/-- Names whose value can be moved from and to registers. -/
def Reaches (x : Name) : Prop :=
  ∃ place, scope.resolve x = .ok place ∧ Movable place

def Keeps (x : Name) : Prop :=
  ∃ r, scope.layout.get? x = some (.register r)

variable {scope} {x : Name}

theorem Keeps.exists_register (keeps : scope.Keeps x) : ∃ r, scope.register x = .ok r := by
  obtain ⟨r, found⟩ := keeps
  refine ⟨r, ?_⟩
  unfold register resolve
  rw [found]
  rfl

theorem Keeps.reaches (keeps : scope.Keeps x) : scope.Reaches x := by
  obtain ⟨r, found⟩ := keeps
  refine ⟨.register r, ?_, trivial⟩
  unfold resolve
  rw [found]

end Scope

def Ready (scope : Scope) : Action → Prop
  | .nop | .jump _ => True
  | .move src dst => (∃ r, dst = .register r) ∧ Movable src ∨ (∃ r, src = .register r) ∧ Movable dst
  | .store dest value => scope.Keeps dest ∧ ∃ v, value = some v ∧ (∀ text, v ≠ .str text) ∧
    ∀ name, v = .symbol name → scope.Reaches name
  | .binary op dest left right => op ∈ BinOp.all ∧ scope.Keeps dest ∧ scope.Keeps left ∧ scope.Keeps right
  | .unary op dest arg => op ∈ UnOp.all ∧ scope.Keeps dest ∧ scope.Keeps arg
  | .branch check var _ => check ∈ Check.all ∧ scope.Keeps var
  | .call _ args result => (∀ arg ∈ args, scope.Reaches arg) ∧ scope.Reaches result
  | .ret var => var = [] ∨ scope.Reaches var

/-- Calls that do not fit the function that they call. -/
def BadCall (functions : List Function) : Action → Prop
  | .call callee args _ => (∀ f ∈ functions, f.name ≠ callee) ∨
    (∃ f ∈ functions, f.name = callee ∧ f.params.length ≠ args.length) ∨ maxArgs < args.length
  | _ => False

variable {scope : Scope}

theorem exists_moveArgs {xs : List Name} (reaches : ∀ x ∈ xs, scope.Reaches x) (index : Nat) (rs : List Register) :
    ∃ code, moveArgs scope index xs rs = .ok code := by
  fun_induction moveArgs scope index xs rs with
  | case1 index x xs r rs ih =>
    obtain ⟨place, resolved, movable⟩ := reaches x List.mem_cons_self
    obtain ⟨first, moved⟩ := exists_load movable r
    obtain ⟨rest, others⟩ := ih fun y member => reaches y (List.mem_cons_of_mem x member)
    exact ⟨first ++ rest, bind_eq_ok.2 ⟨place, resolved, bind_eq_ok.2 ⟨first, within_eq_ok.2 moved,
      bind_eq_ok.2 ⟨rest, others, rfl⟩⟩⟩⟩
  | case2 => exact ⟨[], rfl⟩

theorem call_error {callee result : Name} {args : List Name}
    (failed : call scope callee args result = .error e) (reaches : ∀ arg ∈ args, scope.Reaches arg)
    (reaches' : scope.Reaches result) :
    e.cause.isUserError = true ∧ BadCall scope.functions (.call callee args result) := by
  unfold call at failed
  split at failed
  · rename_i none
    cases failed
    exact ⟨rfl, .inl (by simpa using none)⟩
  · rename_i f found
    split at failed
    · rename_i other
      cases failed
      exact ⟨rfl, .inr (.inl ⟨f, List.mem_of_find?_eq_some found, by simpa using List.find?_some found, other⟩)⟩
    split at failed
    · rename_i many
      cases failed
      exact ⟨rfl, .inr (.inr many)⟩
    obtain ⟨before, moved⟩ := exists_moveArgs reaches 0 Register.args
    rw [moved] at failed
    rcases bind_eq_error.1 failed with never | ⟨_, _, failed⟩
    · cases never
    split at failed
    · cases failed
    obtain ⟨place, resolved, movable⟩ := reaches'
    obtain ⟨after, stored⟩ := exists_unload movable resultRegister
    rw [resolved] at failed
    rcases bind_eq_error.1 failed with never | ⟨_, same, failed⟩
    · cases never
    cases same
    rw [stored] at failed
    rcases bind_eq_error.1 failed with never | ⟨_, _, failed⟩
    · cases never
    · cases failed

theorem exists_binary {op : BinOp} (known : op ∈ BinOp.all) (d l r : Register) : ∃ code, binary op d l r = .ok code := by
  cases op with
  | unknown code outside => simp [BinOp.all] at known
  | _ => exact ⟨_, rfl⟩

theorem exists_unary {op : UnOp} (known : op ∈ UnOp.all) (d a : Register) : ∃ code, unary op d a = .ok code := by
  cases op with
  | unknown code outside => simp [UnOp.all] at known
  | _ => exact ⟨_, rfl⟩

theorem exists_store {dest : Name} {v : Value} (keeps : scope.Keeps dest) (stored : ∀ text, v ≠ .str text)
    (reaches : ∀ name, v = .symbol name → scope.Reaches name) : ∃ code, store scope dest (some v) = .ok code := by
  obtain ⟨r, found⟩ := keeps
  unfold store
  rw [Scope.resolve_of_place found]
  cases v with
  | int n | char c => exact ⟨_, rfl⟩
  | str text => exact absurd rfl (stored text)
  | symbol name =>
    obtain ⟨place, resolved', movable⟩ := reaches name rfl
    obtain ⟨code, moved⟩ := exists_load movable r
    exact ⟨code, bind_eq_ok.2 ⟨_, rfl, bind_eq_ok.2 ⟨place, resolved', moved⟩⟩⟩

theorem action_error {a : Action} (failed : action scope a = .error e) (ready : Ready scope a) :
    e.cause.isUserError = true ∧ BadCall scope.functions a := by
  have never : (∃ code, action scope a = .ok code) → e.cause.isUserError = true ∧ BadCall scope.functions a := by
    rintro ⟨code, emitted⟩
    cases failed.symm.trans emitted
  cases a with
  | nop | jump => cases failed
  | call callee args result => exact call_error failed ready.1 ready.2
  | move src dst =>
    apply never
    rcases ready with ⟨⟨r, rfl⟩, movable⟩ | ⟨⟨r, rfl⟩, movable⟩
    · exact exists_load movable r
    · exact exists_unload movable r
  | store dest value =>
    obtain ⟨keeps, v, rfl, stored, reaches⟩ := ready
    exact never (exists_store keeps stored reaches)
  | binary op dest left right =>
    obtain ⟨known, keepsDest, keepsLeft, keepsRight⟩ := ready
    obtain ⟨d, isDest⟩ := keepsDest.exists_register
    obtain ⟨l, isLeft⟩ := keepsLeft.exists_register
    obtain ⟨r, isRight⟩ := keepsRight.exists_register
    obtain ⟨code, emitted⟩ := exists_binary known d l r
    exact never ⟨code, bind_eq_ok.2 ⟨d, isDest, bind_eq_ok.2 ⟨l, isLeft, bind_eq_ok.2 ⟨r, isRight, emitted⟩⟩⟩⟩
  | unary op dest arg =>
    obtain ⟨known, keepsDest, keepsArg⟩ := ready
    obtain ⟨d, isDest⟩ := keepsDest.exists_register
    obtain ⟨a, isArg⟩ := keepsArg.exists_register
    obtain ⟨code, emitted⟩ := exists_unary known d a
    exact never ⟨code, bind_eq_ok.2 ⟨d, isDest, bind_eq_ok.2 ⟨a, isArg, emitted⟩⟩⟩
  | branch check var target =>
    obtain ⟨known, keeps⟩ := ready
    obtain ⟨r, isVar⟩ := keeps.exists_register
    refine never ?_
    cases check with
    | unknown code outside => simp [Check.all] at known
    | _ => exact ⟨_, bind_eq_ok.2 ⟨r, isVar, rfl⟩⟩
  | ret var =>
    refine never ?_
    rw [action]
    split
    · exact ⟨_, rfl⟩
    · rename_i named
      obtain ⟨place, resolved, movable⟩ := ready.resolve_left named
      obtain ⟨code, moved⟩ := exists_load movable resultRegister
      exact ⟨_, bind_eq_ok.2 ⟨place, resolved, bind_eq_ok.2 ⟨code, moved, rfl⟩⟩⟩

theorem stmts_error {body : List Stmt} (failed : stmts scope body = .error e)
    (ready : ∀ s ∈ body, Ready scope s.action) :
    e.cause.isUserError = true ∧ ∃ s ∈ body, BadCall scope.functions s.action := by
  induction body with
  | nil => cases failed
  | cons s body ih =>
    rcases bind_eq_error.1 failed with here | ⟨_, _, failed⟩
    · rcases bind_eq_error.1 here with inside | ⟨_, _, never⟩
      · obtain ⟨e', failed', cause⟩ := cause_of_within inside
        obtain ⟨listed, bad⟩ := action_error failed' (ready s List.mem_cons_self)
        exact ⟨cause ▸ listed, s, List.mem_cons_self, bad⟩
      · cases never
    · rcases bind_eq_error.1 failed with there | ⟨_, _, never⟩
      · obtain ⟨listed, other, member, bad⟩ := ih there fun other member => ready other (List.mem_cons_of_mem s member)
        exact ⟨listed, other, List.mem_cons_of_mem s member, bad⟩
      · cases never

theorem not_badCall_of_stmts {body : List Stmt} {lines : List Line} (emitted : stmts scope body = .ok lines)
    (distinct : (scope.functions.map (·.name)).Nodup) : ∀ s ∈ body, ¬ BadCall scope.functions s.action := by
  induction body generalizing lines with
  | nil => simp
  | cons s body ih =>
    obtain ⟨first, here, emitted⟩ := bind_eq_ok.1 emitted
    obtain ⟨rest, there, _⟩ := bind_eq_ok.1 emitted
    obtain ⟨code, inside, _⟩ := bind_eq_ok.1 here
    have isCode := within_eq_ok.1 inside
    intro other member
    rcases List.mem_cons.1 member with rfl | later
    · cases called : other.action with
      | call callee args result =>
        rw [called] at isCode
        obtain ⟨f, _, _, found, count, few, _⟩ := call_cases isCode
        have isFunction := List.mem_of_find?_eq_some found
        have named : f.name = callee := by simpa using List.find?_some found
        rintro (undeclared | ⟨f', isFunction', named', other⟩ | many)
        · exact undeclared f isFunction named
        · obtain rfl := List.inj_on_of_nodup_map distinct isFunction isFunction' (named.trans named'.symm)
          exact other count
        · omega
      | _ => exact id
    · exact ih there other later

/-- Functions that can be emitted: their frame and parameters fit, and so do their calls. -/
structure IsSound (functions : List Function) (g : Function) (l : Layout) : Prop where
  frame : fits (-l.size) = true ∧ fits l.size = true
  params : g.params.length ≤ maxArgs
  calls : ∀ s ∈ g.body, ¬ BadCall functions s.action

variable {p : Program} {g : Function} {l : Layout}

theorem function_error (failed : function p g = .error e) (layout : g.layout = some l)
    (ready : fits l.size = true → ∀ s ∈ g.body, Ready (scopeOf p l g.exitLabel) s.action) :
    e.cause.isUserError = true ∧ ¬ IsSound p.functions g l := by
  unfold function at failed
  rw [layout] at failed
  dsimp only at failed
  split at failed
  · rename_i large
    cases failed
    exact ⟨rfl, fun sound => large sound.frame⟩
  rename_i small
  have small : fits (-l.size) = true ∧ fits l.size = true := not_not.1 small
  split at failed
  · rename_i many
    cases failed
    exact ⟨rfl, fun sound => absurd many (Nat.not_lt.2 sound.params)⟩
  rcases bind_eq_error.1 failed with inBody | ⟨_, _, never⟩
  · obtain ⟨listed, s, member, bad⟩ := stmts_error inBody (ready small.2)
    exact ⟨listed, fun sound => sound.calls s member bad⟩
  · cases never

theorem isSound_of_function {lines : List Line} (emitted : function p g = .ok lines) (layout : g.layout = some l)
    (distinct : (p.functions.map (·.name)).Nodup) : IsSound p.functions g l := by
  obtain ⟨l', body, layout', few, isBody, _⟩ := function_cases emitted
  cases layout.symm.trans layout'
  refine ⟨?_, few, not_badCall_of_stmts isBody distinct⟩
  unfold function at emitted
  rw [layout] at emitted
  dsimp only at emitted
  split at emitted
  · cases emitted
  · exact not_not.1 ‹_›

theorem functions_error {fs : List Function} (failed : functions p fs = .error e) :
    ∃ g ∈ bodies fs, ∃ e', function p g = .error e' ∧ e'.cause = e.cause := by
  induction fs with
  | nil => cases failed
  | cons f fs ih =>
    rw [functions] at failed
    split at failed
    · obtain ⟨g, member, found⟩ := ih failed
      obtain ⟨member, hasBody⟩ := mem_bodies.1 member
      exact ⟨g, mem_bodies.2 ⟨List.mem_cons_of_mem f member, hasBody⟩, found⟩
    · rename_i hasBody
      rcases bind_eq_error.1 failed with here | ⟨_, _, failed⟩
      · exact ⟨f, mem_bodies.2 ⟨List.mem_cons_self, by simpa using hasBody⟩, cause_of_within here⟩
      rcases bind_eq_error.1 failed with there | ⟨_, _, never⟩
      · obtain ⟨g, member, found⟩ := ih there
        obtain ⟨member, hasBody⟩ := mem_bodies.1 member
        exact ⟨g, mem_bodies.2 ⟨List.mem_cons_of_mem f member, hasBody⟩, found⟩
      · cases never

theorem checkFunctions_error {seen : List Name} {fs : List Function} (failed : checkFunctions seen fs = .error e) :
    e.cause.isUserError = true ∧ ¬ ((fs.map (·.name)).Nodup ∧ ∀ f ∈ fs, f.name ∉ seen ∧ f.name ∉ startupLabels) := by
  induction fs generalizing seen with
  | nil => cases failed
  | cons f fs ih =>
    rw [checkFunctions] at failed
    split at failed
    · rename_i again
      cases failed
      exact ⟨rfl, fun good => (good.2 f List.mem_cons_self).1 again⟩
    split at failed
    · rename_i reserved
      cases failed
      exact ⟨rfl, fun good => (good.2 f List.mem_cons_self).2 reserved⟩
    obtain ⟨listed, bad⟩ := ih failed
    refine ⟨listed, ?_⟩
    rintro ⟨nodup, good⟩
    rw [List.map_cons, List.nodup_cons] at nodup
    refine bad ⟨nodup.2, fun g member => ?_⟩
    obtain ⟨new, free⟩ := good g (List.mem_cons_of_mem f member)
    refine ⟨fun seenNow => ?_, free⟩
    rcases List.mem_cons.1 seenNow with same | old
    · exact nodup.1 (same ▸ List.mem_map_of_mem member)
    · exact new old

theorem globals_error {functions : List Function} {seen : List Name} {gs : List Global}
    (failed : globals functions seen gs = .error e) (typed : ∀ g ∈ gs, ∃ part, globalData g = .ok part) :
    e.cause.isUserError = true ∧ ¬ ((gs.map (·.name)).Nodup ∧ ∀ g ∈ gs, g.name ∉ seen ∧ IsFit functions g) := by
  induction gs generalizing seen with
  | nil => cases failed
  | cons g gs ih =>
    rcases bind_eq_error.1 failed with here | ⟨_, _, failed⟩
    · obtain ⟨e', failed', cause⟩ := cause_of_within here
      rw [← cause]
      unfold global at failed'
      split at failed'
      · rename_i again
        cases failed'
        exact ⟨rfl, fun good => (good.2 g List.mem_cons_self).1 again⟩
      split at failed'
      · rename_i isFunction
        cases failed'
        refine ⟨rfl, fun good => ?_⟩
        obtain ⟨f, member, same⟩ := List.any_eq_true.1 isFunction
        exact (good.2 g List.mem_cons_self).2.notFunction f member (by simpa using same)
      split at failed'
      · rename_i reserved
        cases failed'
        exact ⟨rfl, fun good => (good.2 g List.mem_cons_self).2.notStartup reserved⟩
      · obtain ⟨part, isPart⟩ := typed g List.mem_cons_self
        cases failed'.symm.trans isPart
    · rcases bind_eq_error.1 failed with there | ⟨_, _, never⟩
      · obtain ⟨listed, bad⟩ := ih there fun h member => typed h (List.mem_cons_of_mem g member)
        refine ⟨listed, fun ⟨nodup, good⟩ => bad ?_⟩
        rw [List.map_cons, List.nodup_cons] at nodup
        refine ⟨nodup.2, fun h member => ?_⟩
        obtain ⟨new, fit⟩ := good h (List.mem_cons_of_mem g member)
        refine ⟨fun seenNow => ?_, fit⟩
        rcases List.mem_cons.1 seenNow with same | old
        · exact nodup.1 (same ▸ List.mem_map_of_mem member)
        · exact new old
      · cases never

structure IsSoundProgram (entry : Name) (q : Program) : Prop where
  functions : (q.functions.map (·.name)).Nodup
  free : ∀ f ∈ q.functions, f.name ∉ startupLabels
  entry : ∃ f ∈ q.functions, f.name = entry ∧ f.external = false
  globals : (q.globals.map (·.name)).Nodup
  fit : ∀ h ∈ q.globals, IsFit q.functions h
  bodies : ∀ g ∈ bodies q.functions, ∀ l, g.layout = some l → IsSound q.functions g l

theorem ofProgram_error {s : Startup} {q : Program} (failed : ofProgram s q = .error e)
    (typed : ∀ h ∈ q.globals, ∃ part, globalData h = .ok part)
    (ready : ∀ g ∈ bodies q.functions, ∃ l, g.layout = some l ∧
      (fits l.size = true → ∀ s ∈ g.body, Ready (scopeOf q l g.exitLabel) s.action)) :
    e.cause.isUserError = true ∧ ¬ IsSoundProgram s.entry q := by
  unfold ofProgram at failed
  rcases bind_eq_error.1 failed with names | ⟨_, _, failed⟩
  · obtain ⟨listed, bad⟩ := checkFunctions_error names
    exact ⟨listed, fun sound => bad ⟨sound.functions, fun f member => ⟨List.not_mem_nil, sound.free f member⟩⟩⟩
  split at failed
  · rename_i none
    cases failed
    refine ⟨rfl, fun sound => ?_⟩
    obtain ⟨f, member, named, hasBody⟩ := sound.entry
    simp only [Bool.not_eq_true', List.any_eq_false, Bool.and_eq_true, beq_iff_eq] at none
    exact none f member ⟨named, by simp [hasBody]⟩
  rcases bind_eq_error.1 failed with inData | ⟨_, _, failed⟩
  · obtain ⟨listed, bad⟩ := globals_error inData typed
    exact ⟨listed, fun sound => bad ⟨sound.globals, fun h member => ⟨List.not_mem_nil, sound.fit h member⟩⟩⟩
  rcases bind_eq_error.1 failed with inCode | ⟨_, _, never⟩
  · obtain ⟨g, member, e', failed', cause⟩ := functions_error inCode
    obtain ⟨l, layout, isReady⟩ := ready g member
    obtain ⟨listed, bad⟩ := function_error failed' layout isReady
    exact ⟨cause ▸ listed, fun sound => bad (sound.bodies g member l layout)⟩
  · cases never

theorem isSoundProgram_of_isAssembly {s : Startup} {q : Program} {data lines : List Line} {codes : List (List Line)}
    (isAssembly : IsAssembly s q data codes lines) (emitted : ofProgram s q = .ok lines) : IsSoundProgram s.entry q := by
  refine ⟨isAssembly.names, isAssembly.free, isAssembly.entry, isAssembly.isData.names,
    fun h member => (isAssembly.isData.fit h member).2, ?_⟩
  intro g member l layout
  obtain ⟨member, hasBody⟩ := mem_bodies.1 member
  obtain ⟨i, found⟩ := List.getElem?_of_mem member
  obtain ⟨_, _, _, isCode, _⟩ := functions_of_ofProgram emitted
  obtain ⟨_, _, _, isPart, _⟩ := functions_part isCode found hasBody
  exact isSound_of_function isPart layout isAssembly.names

end MiniC.Assembly
