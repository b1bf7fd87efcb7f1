import MiniC.Proofs.Compilation.Stages
import MiniC.Proofs.Emission.Readiness
import MiniC.Proofs.Lowering.Size
import Mathlib.Algebra.Order.BigOperators.Group.List
import Mathlib.Algebra.Order.Group.Nat

namespace MiniC

open Code Storage Assembly

/-- What is wrong with programs that cannot be compiled. -/
inductive Faulty (entry : Name) (p : Program) : Prop
  | shared (twice : ¬ (p.globals.map (·.name) ++ p.functions.map (·.name)).Nodup)
  | reserved {name : Name} (declared : name ∈ p.globals.map (·.name) ++ p.functions.map (·.name))
    (isReserved : name ∈ startupLabels)
  | noEntry (none : ∀ f ∈ p.functions, f.name = entry → f.external = true)
  | params {f : Function} (member : f ∈ bodies p.functions) (many : maxArgs < f.params.length)
  | frame {f : Function} (member : f ∈ bodies p.functions)
    (large : 2047 < 16 + 8 * (frameNames p.globals f.params f.body).length)
  | call {f : Function} {s : Stmt} (member : f ∈ bodies p.functions) (inBody : s ∈ f.body)
    (bad : BadCall p.functions s.action)

structure IsLowered (p : Program) : Prop where
  globals : ∀ h ∈ p.globals, Name.isGenerated h.name = false ∧ ∃ part, globalData h = .ok part
  functions : ∀ f ∈ p.functions, Name.isGenerated f.name = false
  bodies : ∀ f ∈ p.functions, AllLowered f.body ∧ ∃ a b, OfSource.Writes ⟨0⟩ none a b f.body
  names : ∃ made ≤ lines p.functions, p.names = Namer.after ⟨0⟩ made

theorem isLowered_of_ofSource {x : Source.Program} {p : Program} (wellFormed : x.WellFormed)
    (lowered : Program.ofSource x = .ok p) : IsLowered p := by
  have lowersTo := Program.lowersTo_of_ofSource wellFormed lowered
  refine ⟨?_, ?_, ?_, ?_⟩
  · intro h member
    obtain ⟨y, inTree, isGlobal⟩ := exists_of_mem_right lowersTo.globals member
    have good := wellFormed.globals y inTree
    exact ⟨OfSource.name_of_global isGlobal ▸ good.name.notGenerated, exists_globalData good isGlobal⟩
  · intro f member
    obtain ⟨y, inTree, isFunction⟩ := exists_of_mem_right lowersTo.functions member
    exact isFunction.name ▸ (wellFormed.functions y inTree).name.notGenerated
  · intro f member
    obtain ⟨y, inTree, isFunction⟩ := exists_of_mem_right lowersTo.functions member
    exact ⟨Program.allLowered_of_ofSource lowered f member, isFunction.body⟩
  · obtain ⟨made, names, few, _⟩ := lowersTo.numbered
    exact ⟨made, few, names⟩

/-- Programs that are small enough for the counter of names and for sizes of frames. -/
structure IsSmall (p : Program) : Prop where
  lines : 5 * lines p.functions < 2 ^ 64
  frames : ∀ f ∈ p.functions, 16 + 8 * (frameNames p.globals f.params f.body).length < 2 ^ 63

section

variable {p q : Program} (isLowered : IsLowered p) (isSmall : IsSmall p)

include isLowered isSmall

theorem proceeds_assign :
    Proceeds p.globals ⟨0⟩ 0 (5 * lines p.functions) p.globals (assignFunctions Usage.queue p.names p.globals p.functions) := by
  obtain ⟨made, few, names⟩ := isLowered.names
  have small := isSmall.lines
  have proceeds := @proceeds_assignFunctions ⟨0⟩ made p.globals p.globals (fun h member => (isLowered.globals h member).1)
    p.functions (fun h member => .inl member) (by omega)
  rw [names]
  refine ⟨fun fine => ?_, proceeds.fails⟩
  obtain ⟨b, below, advances⟩ := proceeds.advances fine
  exact ⟨b, by omega, advances⟩

theorem assign_error {e : Storage.Error} (failed : p.assign.error = some e) :
    (∃ name, e.cause = .redeclared name) ∧ ¬ (p.globals.map (·.name)).Nodup :=
  (proceeds_assign isLowered isSmall).fails e failed

section

variable (assigned : p.assign = ⟨q, none⟩)

include assigned

theorem globals_of_assign : ∃ new, q.globals = p.globals ++ new ∧
    (∀ h ∈ new, h ∈ p.globals ∨ ∃ n text, h = ⟨Name.generated Name.string n, .string, some (.str text)⟩) ∧
    ((p.globals.map (·.name)).Nodup → (q.globals.map (·.name)).Nodup) := by
  unfold Program.assign Program.assignBy at assigned
  rw [Assigned.mk.injEq] at assigned
  obtain ⟨rfl, ok⟩ := assigned
  obtain ⟨⟨new, declared⟩, _⟩ := assignFunctions_each ok
  obtain ⟨b, _, _, old, distinct⟩ := (proceeds_assign isLowered isSmall).advances ok
  refine ⟨new, declared, fun h member => ?_, distinct⟩
  have inside : h ∈ (assignFunctions Usage.queue p.names p.globals p.functions).globals := by
    rw [declared]
    exact List.mem_append_right _ member
  exact (old h inside).imp_right fun ⟨j, _, text, isString⟩ => ⟨_, text, isString⟩

theorem frame_of_assignsTo {f g : Function} (member : f ∈ p.functions) (hasBody : f.external = false)
    (assignsTo : AssignsTo p.globals q.globals f g) :
    ∃ l, g.layout = some l ∧ 8 * l.slots.length = 16 + 8 * (frameNames p.globals f.params f.body).length ∧
      l.size = Int64.ofNat (8 * l.slots.length) ∧
      (8 * l.slots.length < 2048 → ∀ s ∈ g.body, Ready (scopeOf q l g.exitLabel) s.action) := by
  rcases assignsTo with ⟨external, _⟩ | ⟨_, start, a, moves, earlier, new, later, strings, l, globals, assigns⟩
  · cases hasBody.symm.trans external
  obtain ⟨lowered, low, high, writes⟩ := isLowered.bodies f member
  obtain ⟨added, declared, old, _⟩ := globals_of_assign isLowered isSmall assigned
  have isOld : ∀ h ∈ p.globals ++ earlier ++ new, h ∈ p.globals ∨ ∃ n, h.name = Name.generated Name.string n := by
    intro h inside
    have isGlobal : h ∈ q.globals := by
      rw [globals]
      exact List.mem_append_left _ inside
    rw [declared] at isGlobal
    rcases List.mem_append.1 isGlobal with isDeclared | isAdded
    · exact .inl isDeclared
    · exact (old h isAdded).imp_right fun ⟨n, text, isString⟩ => ⟨n, by rw [isString]⟩
  have operands : ∀ s ∈ f.body, ∀ x ∈ s.action.inputs ++ s.action.outputs, ∀ n, x ≠ Name.generated Name.string n :=
    fun s inBody x isOperand => operand_ne_string (operands_of_isWritten (writes.each s inBody).action x isOperand)
  have slots := length_slots_of_assigns assigns isOld operands
  have layout := assigns.layout
  obtain ⟨_, _, sized, _⟩ := get?_place assigns.places
  have later := later_of_assigns assigns layout
  refine ⟨_, layout, ?_, ?_, fun small s inside => ?_⟩
  · rw [later.slots, slots, Nat.mul_add]
  · rw [later.size, later.slots, (Layout.size_withFrame sized).1]
  · rw [later.slots] at small
    obtain ⟨i, original, inBody, _, placed, becomes⟩ := becomes_of_assigns assigns layout lowered inside
    have written := (writes.each original (List.mem_of_getElem? inBody)).action
    refine ready_of_becomes assigns layout small globals ?_ inBody written placed becomes
    rintro x (⟨_, named⟩ | ⟨j, _, _, rfl⟩)
    · exact named
    · exact Name.generated_ne_nil _ _

theorem globalData_of_assign : ∀ h ∈ q.globals, ∃ part, globalData h = .ok part := by
  intro h member
  obtain ⟨new, declared, old, _⟩ := globals_of_assign isLowered isSmall assigned
  have isOld : h ∈ p.globals ∨ ∃ n text, h = ⟨Name.generated Name.string n, .string, some (.str text)⟩ := by
    rw [declared] at member
    rcases List.mem_append.1 member with isDeclared | isAdded
    · exact .inl isDeclared
    · exact old h isAdded
  rcases isOld with isDeclared | ⟨n, text, rfl⟩
  · exact (isLowered.globals h isDeclared).2
  · exact ⟨_, rfl⟩

theorem ready_of_assign : ∀ g ∈ bodies q.functions, ∃ l, g.layout = some l ∧
    (fits l.size = true → ∀ s ∈ g.body, Ready (scopeOf q l g.exitLabel) s.action) := by
  intro g member
  obtain ⟨inside, hasBody⟩ := mem_bodies.1 member
  obtain ⟨f, isFunction, here⟩ := exists_of_mem_right (assignsTo_of_assign assigned) inside
  have external := (keeps_of_assignsTo here).2.2.1
  obtain ⟨l, layout, slots, size, ready⟩ :=
    frame_of_assignsTo isLowered isSmall assigned isFunction (external.symm.trans hasBody) here
  refine ⟨l, layout, fun small => ready ?_⟩
  rw [size] at small
  exact (fits_ofNat (slots ▸ isSmall.frames f isFunction)).1 small

theorem isSound_iff {f g : Function} (member : f ∈ p.functions) (hasBody : f.external = false)
    (assignsTo : AssignsTo p.globals q.globals f g) {l : Layout} (layout : g.layout = some l) :
    IsSound q.functions g l ↔ 16 + 8 * (frameNames p.globals f.params f.body).length ≤ 2047 ∧
      f.params.length ≤ maxArgs ∧ ∀ s ∈ f.body, ¬ BadCall p.functions s.action := by
  obtain ⟨l', layout', slots, size, _⟩ := frame_of_assignsTo isLowered isSmall assigned member hasBody assignsTo
  cases layout.symm.trans layout'
  rw [slots] at size
  have small := isSmall.frames f member
  obtain ⟨_, params, _, keeps⟩ := keeps_of_assignsTo assignsTo
  have signatures : List.Forall₂ (fun f g => g.name = f.name ∧ g.params = f.params) p.functions q.functions :=
    (assignsTo_of_assign assigned).imp fun f g assignsTo =>
      ⟨(keeps_of_assignsTo assignsTo).1, (keeps_of_assignsTo assignsTo).2.1⟩
  have calls : (∀ s ∈ g.body, ¬ BadCall q.functions s.action) ↔ ∀ s ∈ f.body, ¬ BadCall p.functions s.action := by
    simp only [badCall_congr signatures]
    exact badCalls_of_keeps keeps
  constructor
  · intro sound
    have frame := (fits_ofNat small).1 (size ▸ sound.frame.2)
    exact ⟨by omega, params ▸ sound.params, calls.1 sound.calls⟩
  · rintro ⟨frame, few, good⟩
    refine ⟨?_, params ▸ few, calls.2 good⟩
    rw [size]
    exact ⟨fits_neg_ofNat (by omega), (fits_ofNat small).2 (by omega)⟩

theorem isSoundProgram_of_not_faulty {entry : Name} (fine : ¬ Faulty entry p) : IsSoundProgram entry q := by
  have assignsTo := assignsTo_of_assign assigned
  have names := names_of_assignsTo assignsTo
  obtain ⟨new, declared, old, distinct⟩ := globals_of_assign isLowered isSmall assigned
  have apart : (p.globals.map (·.name) ++ p.functions.map (·.name)).Nodup := not_not.1 fun twice => fine (.shared twice)
  rw [List.nodup_append] at apart
  refine ⟨names ▸ apart.2.1, ?_, ?_, distinct apart.1, ?_, ?_⟩
  · intro g member isReserved
    have isName : g.name ∈ p.functions.map (·.name) := names ▸ List.mem_map_of_mem member
    exact fine (.reserved (List.mem_append_right _ isName) isReserved)
  · by_contra none
    refine fine (.noEntry fun f member named => ?_)
    obtain ⟨g, inside, here⟩ := exists_of_mem_left assignsTo member
    obtain ⟨name, _, external, _⟩ := keeps_of_assignsTo here
    by_contra hasBody
    exact none ⟨g, inside, name.trans named, external.trans (by simpa using hasBody)⟩
  · intro h member
    rw [declared] at member
    have cases : h ∈ p.globals ∨ Name.isGenerated h.name = true := by
      rcases List.mem_append.1 member with isDeclared | isAdded
      · exact .inl isDeclared
      · refine (old h isAdded).imp_right ?_
        rintro ⟨n, text, rfl⟩
        exact Name.isGenerated_generated _ n
    constructor
    · intro g inside same
      have isName : g.name ∈ p.functions.map (·.name) := names ▸ List.mem_map_of_mem inside
      rcases cases with isDeclared | generated
      · exact apart.2.2 h.name (List.mem_map_of_mem isDeclared) g.name isName same.symm
      · obtain ⟨f, isFunction, name⟩ := List.mem_map.1 isName
        have user := isLowered.functions f isFunction
        rw [name, same, generated] at user
        cases user
    · intro isReserved
      rcases cases with isDeclared | generated
      · exact fine (.reserved (List.mem_append_left _ (List.mem_map_of_mem isDeclared)) isReserved)
      · have user : ∀ name ∈ startupLabels, Name.isGenerated name = false := by decide
        cases (user h.name isReserved).symm.trans generated
  · intro g member l layout
    obtain ⟨inside, hasBody⟩ := mem_bodies.1 member
    obtain ⟨f, isFunction, here⟩ := exists_of_mem_right assignsTo inside
    have external := (keeps_of_assignsTo here).2.2.1
    have isBody : f ∈ bodies p.functions := mem_bodies.2 ⟨isFunction, external.symm.trans hasBody⟩
    refine (isSound_iff isLowered isSmall assigned isFunction (external.symm.trans hasBody) here layout).2 ⟨?_, ?_, ?_⟩
    · exact Nat.not_lt.1 fun large => fine (.frame isBody large)
    · exact Nat.not_lt.1 fun many => fine (.params isBody many)
    · exact fun s inBody bad => fine (.call isBody inBody bad)

theorem not_faulty_of_isSoundProgram {entry : Name} (sound : IsSoundProgram entry q) : ¬ Faulty entry p := by
  have assignsTo := assignsTo_of_assign assigned
  have names := names_of_assignsTo assignsTo
  obtain ⟨new, declared, _, _⟩ := globals_of_assign isLowered isSmall assigned
  have isGlobal : ∀ {h}, h ∈ p.globals → h ∈ q.globals := by
    intro h member
    rw [declared]
    exact List.mem_append_left _ member
  have isSound : ∀ {f}, f ∈ bodies p.functions → 16 + 8 * (frameNames p.globals f.params f.body).length ≤ 2047 ∧
      f.params.length ≤ maxArgs ∧ ∀ s ∈ f.body, ¬ BadCall p.functions s.action := by
    intro f member
    obtain ⟨inside, hasBody⟩ := mem_bodies.1 member
    obtain ⟨g, isFunction, here⟩ := exists_of_mem_left assignsTo inside
    obtain ⟨l, layout, _⟩ := frame_of_assignsTo isLowered isSmall assigned inside hasBody here
    refine (isSound_iff isLowered isSmall assigned inside hasBody here layout).1 (sound.bodies g ?_ l layout)
    exact mem_bodies.2 ⟨isFunction, (keeps_of_assignsTo here).2.2.1.trans hasBody⟩
  intro faulty
  cases faulty with
  | shared twice =>
    refine twice (List.nodup_append.2 ⟨?_, names ▸ sound.functions, ?_⟩)
    · have nodup := sound.globals
      rw [declared, List.map_append, List.nodup_append] at nodup
      exact nodup.1
    · rintro x isGlobalName y isFunctionName rfl
      obtain ⟨h, inside, rfl⟩ := List.mem_map.1 isGlobalName
      rw [← names] at isFunctionName
      obtain ⟨g, isFunction, same⟩ := List.mem_map.1 isFunctionName
      exact (sound.fit h (isGlobal inside)).notFunction g isFunction same
  | @reserved name isName isReserved =>
    rcases List.mem_append.1 isName with isGlobalName | isFunctionName
    · obtain ⟨h, inside, rfl⟩ := List.mem_map.1 isGlobalName
      exact (sound.fit h (isGlobal inside)).notStartup isReserved
    · rw [← names] at isFunctionName
      obtain ⟨g, isFunction, rfl⟩ := List.mem_map.1 isFunctionName
      exact sound.free g isFunction isReserved
  | noEntry none =>
    obtain ⟨g, isFunction, named, hasBody⟩ := sound.entry
    obtain ⟨f, inside, here⟩ := exists_of_mem_right assignsTo isFunction
    obtain ⟨name, _, external, _⟩ := keeps_of_assignsTo here
    cases (external.symm.trans hasBody).symm.trans (none f inside (name.symm.trans named))
  | params member many => exact absurd many (Nat.not_lt.2 (isSound member).2.1)
  | frame member large => exact absurd large (Nat.not_lt.2 (isSound member).1)
  | call member inBody bad => exact (isSound member).2.2 _ inBody bad

end

end

theorem lines_le_weight (fs : List Function) : lines fs ≤ OfSource.weight fs := by
  refine List.sum_le_sum fun f _ => ?_
  exact Nat.le_trans (length_le_cost f.body) (Nat.le_add_left _ _)

theorem frameNames_le_weight (globals : List Global) {fs : List Function} {f : Function} (member : f ∈ fs) :
    (frameNames globals f.params f.body).length ≤ OfSource.weight fs := by
  have distinct := (List.dedup_sublist (f.params.map (·.name) ++ (f.body.flatMap fun s =>
    s.action.inputs ++ s.action.outputs).filter fun x => x ∉ globals.map (·.name))).length_le
  have operands := operands_le_cost f.body
  have fewer := List.length_filter_le (fun x => decide (x ∉ globals.map (·.name)))
    (f.body.flatMap fun s => s.action.inputs ++ s.action.outputs)
  have here : f.params.length + cost f.body ≤ OfSource.weight fs := List.le_sum_of_mem (List.mem_map_of_mem member)
  rw [List.length_append, List.length_map] at distinct
  rw [frameNames]
  omega

theorem isSmall_of_parse {text : Bytes} {x : Source.Program} {p : Program} (parsed : Source.parse text = .ok x)
    (lowered : Program.ofSource x = .ok p) (small : text.length < 2 ^ 56) : IsSmall p := by
  have nodes := Source.weight_le_of_parse parsed
  have weight := Program.weight_le_of_ofSource (Source.wellFormed_of_parse parsed) lowered
  refine ⟨?_, fun f member => ?_⟩
  · have total := lines_le_weight p.functions
    omega
  · have names := frameNames_le_weight p.globals member
    omega

/-- Errors that lie in the program and not in how it was processed. -/
def CompileError.isUserError : CompileError → Bool
  | .lower _ => false
  | .assign e => match e.cause with
    | .redeclared _ => true
    | .labelTaken _ => false
  | .emit e => e.cause.isUserError

theorem compileCode_error {s : Startup} {p : Program} (isLowered : IsLowered p) (isSmall : IsSmall p) {e : CompileError}
    (failed : compileCode s p = .error e) : e.isUserError = true ∧ Faulty s.entry p := by
  unfold compileCode at failed
  cases assigned : p.assign with
  | mk q error =>
    rw [assigned] at failed
    cases error with
    | some fault =>
      cases failed
      obtain ⟨⟨name, cause⟩, twice⟩ := assign_error isLowered isSmall (congrArg Assigned.error assigned)
      refine ⟨?_, .shared fun nodup => twice (List.nodup_append.1 nodup).1⟩
      simp only [CompileError.isUserError, cause]
    | none =>
      dsimp only at failed
      cases emitted : ofProgram s q with
      | ok lines =>
        rw [emitted] at failed
        cases failed
      | error fault =>
        rw [emitted] at failed
        cases failed
        obtain ⟨listed, bad⟩ := ofProgram_error emitted (globalData_of_assign isLowered isSmall assigned)
          (ready_of_assign isLowered isSmall assigned)
        exact ⟨listed, not_not.1 fun fine => bad (isSoundProgram_of_not_faulty isLowered isSmall assigned fine)⟩

/-- Code that was lowered from a text fails to compile if and only if something is wrong with it, and for causes that
lie in it. In texts that are shorter, neither the counter of names nor the size of a frame comes round. -/
theorem compileCode_fails_iff (s : Startup) {text : Bytes} {p : Program} (lowered : lower text = .ok p)
    (small : text.length < 2 ^ 56) : ((∃ e, compileCode s p = .error e) ↔ Faulty s.entry p) ∧
      ∀ e, compileCode s p = .error e → e.isUserError = true := by
  obtain ⟨x, parsed, isCode⟩ := lower_eq_ok.1 lowered
  have isLowered := isLowered_of_ofSource (Source.wellFormed_of_parse parsed) isCode
  have isSmall := isSmall_of_parse parsed isCode small
  refine ⟨⟨?_, fun faulty => ?_⟩, fun e failed => (compileCode_error isLowered isSmall failed).1⟩
  · rintro ⟨e, failed⟩
    exact (compileCode_error isLowered isSmall failed).2
  · cases compiled : compileCode s p with
    | error e => exact ⟨e, rfl⟩
    | ok lines =>
      obtain ⟨q, assigned, emitted⟩ := compileCode_eq_ok.1 compiled
      obtain ⟨data, codes, isAssembly⟩ := (Stages.mk parsed isCode assigned emitted).exists_isAssembly
      have sound := isSoundProgram_of_isAssembly isAssembly emitted
      exact absurd faulty (not_faulty_of_isSoundProgram isLowered isSmall assigned sound)

def miscalling : Source.Program :=
  let pos := Source.Position.nowhere
  let n := Source.Expr.var pos "n"
  let body : List Source.Stmt :=
    [.ifStmt pos (.binary pos .lt n (.literal ⟨pos, .int 2⟩)) [.returnStmt pos (.call pos "add" [n])] [],
      .returnStmt pos n]
  ⟨[], [⟨pos, "add", .int, [⟨.int, "a"⟩, ⟨.int, "b"⟩], true, []⟩, ⟨pos, "main", .int, [⟨.int, "n"⟩], false, body⟩]⟩

def miscallingText : Bytes :=
  "int add(int a, int b);\n\nint main(int n) \x7b\n\tif (n < 2) \x7b\n\t\treturn add(n);\n\t\x7d\n\treturn n;\n\x7d\n"

def miscaller : Program :=
  (Program.ofSource miscalling).toOption.getD ⟨⟨0⟩, [], []⟩

theorem lowered_miscalling : Program.ofSource miscalling = .ok miscaller :=
  eq_ok_getD (by decide +kernel)

set_option maxRecDepth 4000 in
theorem refused_miscaller : (compileCode .default miscaller).toOption = none := by
  decide +kernel

theorem compileCode_fails_miscaller : lower miscallingText = .ok miscaller ∧ miscallingText.length < 2 ^ 56 ∧
    Faulty Startup.default.entry miscaller ∧ ∃ e, compileCode .default miscaller = .error e ∧ e.isUserError = true := by
  have printed : miscalling.format = .ok miscallingText := by decide +kernel
  have lowered := lower_format (by decide) printed lowered_miscalling
  have small : miscallingText.length < 2 ^ 56 := by decide
  obtain ⟨fails, listed⟩ := compileCode_fails_iff .default lowered small
  have refused := refused_miscaller
  cases failed : compileCode .default miscaller with
  | error e => exact ⟨lowered, small, fails.1 ⟨e, failed⟩, e, rfl, listed e failed⟩
  | ok lines =>
    rw [failed] at refused
    cases refused

end MiniC
