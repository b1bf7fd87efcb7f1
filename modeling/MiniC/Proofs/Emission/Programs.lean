import MiniC.Proofs.Emission.Functions
import MiniC.Proofs.Lowering.Shape
import MiniC.Proofs.Storage.Places

namespace MiniC.Assembly

open Code Storage

variable {queue : Queue Usage Usage.less}

theorem exitLabel_ne_generated (g : Function) {kind : Bytes} (isKind : kind ∈ Name.kinds) (n : Int64) :
    Name.generated kind n ≠ g.exitLabel := by
  intro same
  have told := Name.kind?_generated isKind n
  rw [same] at told
  cases told

theorem symbolic_cases (label : Name) {action : Action} (lowered : action.IsLowered) :
    (symbolic label action).IsLowered ∨ ∃ dest label', symbolic label action = .store dest (some (.symbol label')) := by
  unfold symbolic
  split
  · exact .inr ⟨_, _, rfl⟩
  · exact .inl lowered

section

variable {start : Namer} {a moves : Nat} {globals new later : List Global} {f g : Function}
  {strings : Nat → Name} {l final : Layout} {q : Program}
  (assigns : Assigns queue start a moves globals new f g strings l) (layout : g.layout = some final)

include assigns layout

theorem usable_of_withFrame (declared : q.globals = globals ++ new ++ later) {x : Name} {place : Location}
    (found : l.withFrame.get? x = some place) : Usable q final place := by
  have slots := (later_of_assigns assigns layout).slots
  rcases get?_withFrame_cases assigns.places found with
    ⟨r, free, rfl, _⟩ | ⟨slot, member, _, size, rfl⟩ | ⟨h, isGlobal, rfl⟩
  · exact List.mem_append_left _ free
  · exact ⟨slot, by rw [slots]; exact member, rfl⟩
  · refine ⟨h, ?_, rfl⟩
    rw [Program.global?, declared, List.find?_append, isGlobal]
    rfl

theorem usable_of_assigns (declared : q.globals = globals ++ new ++ later) {x : Name} {place : Location}
    (found : final.get? x = some place) : Usable q final place := by
  rcases (later_of_assigns assigns layout).places x with same | ⟨_, r, scratch, register⟩
  · rw [same] at found
    exact usable_of_withFrame assigns layout declared found
  · cases register.symm.trans found
    exact List.mem_append_right _ scratch

theorem resolves_of_assigns (declared : q.globals = globals ++ new ++ later) (exit : Name) :
    Resolves q final exit := by
  intro x place resolved
  unfold Scope.resolve at resolved
  split at resolved
  · rename_i found
    cases resolved
    exact usable_of_assigns assigns layout declared found
  · split at resolved
    · rename_i h found
      cases resolved
      have named : h.name = x := by simpa using List.find?_some found
      exact ⟨h, by rw [named]; exact found, rfl⟩
    · cases resolved

theorem settled_of_becomes (declared : q.globals = globals ++ new ++ later) {action action' : Action}
    (lowered : action.IsLowered ∨ ∃ dest label, action = .store dest (some (.symbol label)))
    (placed : ∀ x ∈ action.outputs, l.withFrame.get? x ≠ none)
    (becomes : Becomes l.withFrame final action action') : Settled q final g.exitLabel action' := by
  cases becomes with
  | load scratch _ found =>
    exact ⟨usable_of_withFrame assigns layout declared found, List.mem_append_right _ scratch⟩
  | unload scratch _ found =>
    exact ⟨List.mem_append_right _ scratch, usable_of_withFrame assigns layout declared found⟩
  | call is =>
    rw [is]
    trivial
  | other _ _ writes =>
    cases action with
    | store dest value =>
      have isOutput : dest ∈ (Action.store dest value).outputs := List.mem_singleton_self dest
      exact writes dest isOutput (placed dest isOutput)
    | jump target | branch check var target =>
      rcases lowered with ⟨n, rfl⟩ | ⟨_, _, never⟩
      · exact exitLabel_ne_generated g (by decide) n
      · cases never
    | move src dst =>
      rcases lowered with never | ⟨_, _, never⟩
      · exact never.elim
      · cases never
    | _ => trivial

theorem becomes_of_assigns (lowered : AllLowered f.body) {s : Stmt} (member : s ∈ g.body) :
    ∃ (i : Nat) (original : Stmt), f.body[i]? = some original ∧ (s.label = [] ∨ s.label = original.label) ∧
      (∀ x ∈ original.action.inputs ++ original.action.outputs, l.withFrame.get? x ≠ none) ∧
      Becomes l.withFrame final (symbolic (strings i) original.action) s.action := by
  refine becomes_of_plain assigns layout ?_ member
  intro stmt inBody src dst isMove
  have isLowered := (lowered stmt inBody).2
  rw [isMove] at isLowered
  exact isLowered

theorem prepared_of_assigns (declared : q.globals = globals ++ new ++ later) (lowered : AllLowered f.body) :
    Prepared q g final := by
  have before := later_of_assigns assigns layout
  obtain ⟨_, _, sized, _⟩ := get?_place assigns.places
  have slotted := Layout.slotted_withFrame sized
  rw [← before.slots] at slotted
  constructor
  case resolves => exact resolves_of_assigns assigns layout declared _
  case aligned =>
    intro slot member
    obtain ⟨⟨k, offset⟩, _⟩ := slotted slot member
    rw [offset, Int64.toBitVec_ofNat', BitVec.toNat_ofNat]
    omega
  case saves => exact fun slot member => (slotted slot member).2
  case labels =>
    intro s member
    obtain ⟨_, original, inBody, label, _⟩ := becomes_of_assigns assigns layout lowered member
    rcases label with empty | same
    · rw [empty]
      exact (exitLabel_ne_nil g).symm
    · rw [same]
      rcases (lowered original (List.mem_of_getElem? inBody)).1 with empty | ⟨n, generated⟩
      · exact fun exits => exitLabel_ne_nil g (exits.symm.trans empty)
      · exact fun exits => exitLabel_ne_generated g (by decide) n (generated.symm.trans exits)
  case settled =>
    intro s member
    obtain ⟨i, original, inBody, _, placed, becomes⟩ := becomes_of_assigns assigns layout lowered member
    have isLowered := (lowered original (List.mem_of_getElem? inBody)).2
    refine settled_of_becomes assigns layout declared (symbolic_cases (strings i) isLowered) ?_ becomes
    intro x output
    rw [outputs_symbolic] at output
    exact placed x (List.mem_append_right _ output)

theorem param_of_assigns {param : Param} (member : param ∈ f.params)
    (unmade : ∀ j, a + new.length < j → j ≤ a + new.length + moves → param.name ≠ start.made Name.scratch j) :
    ∃ slot ∈ final.slots, ∃ size, final.get? param.name = some (.stack slot.offset size) := by
  have isParam : f.params.any fun p => p.name = param.name := List.any_eq_true.2 ⟨param, member, by simp⟩
  obtain ⟨slot, inside, size, place⟩ := get?_withFrame_param assigns.places isParam
  refine ⟨slot, ?_, size, (get?_of_unmade assigns layout unmade).trans place⟩
  rw [(later_of_assigns assigns layout).slots]
  exact inside

end

theorem functions_part {p : Program} {fs : List Function} {code : List Line} {i : Nat} {g : Function}
    (emitted : functions p fs = .ok code) (found : fs[i]? = some g) (hasBody : g.external = false) :
    ∃ before part behind, function p g = .ok part ∧ code = before ++ part ++ behind := by
  induction fs generalizing code i with
  | nil => cases found
  | cons f fs ih =>
    rw [functions] at emitted
    split at emitted
    · rename_i external
      cases i with
      | zero =>
        cases found
        rw [external] at hasBody
        cases hasBody
      | succ i => exact ih emitted found
    · obtain ⟨first, here, emitted⟩ := bind_eq_ok.1 emitted
      obtain ⟨rest, there, done⟩ := bind_eq_ok.1 emitted
      cases done
      cases i with
      | zero =>
        cases found
        exact ⟨[], first, rest, within_eq_ok.1 here, rfl⟩
      | succ i =>
        obtain ⟨before, part, behind, isCode, rfl⟩ := ih there found
        exact ⟨first ++ before, part, behind, isCode, by simp⟩

theorem functions_of_ofProgram {s : Startup} {p : Program} {lines : List Line} (emitted : ofProgram s p = .ok lines) :
    ∃ before code behind, functions p p.functions = .ok code ∧ lines = before ++ code ++ behind := by
  unfold ofProgram at emitted
  obtain ⟨_, _, emitted⟩ := bind_eq_ok.1 emitted
  split at emitted
  · cases emitted
  · obtain ⟨data, _, emitted⟩ := bind_eq_ok.1 emitted
    obtain ⟨code, isCode, done⟩ := bind_eq_ok.1 emitted
    cases done
    exact ⟨_, code, _, isCode, rfl⟩

/-- The code of a function in the lines of its program: it stands behind the function's label, and each
statement of the body has a block in it. -/
structure CodeOf (q : Program) (g : Function) (l : Layout) (lines code : List Line) (blocks : List (Block Line)) :
    Prop where
  part : ∃ before behind, lines = before ++ [Line.blank, .label g.name] ++ code ++ behind
  each : List.Forall₂ (fun s b => stmt (scopeOf q l g.exitLabel) s = .ok b.code) g.body blocks
  whole : code = (entering l g.params).map Line.instr ++ (Language.joined blocks ++ lastLines l g.exitLabel)

/-- What becomes of a function: its code does what its body does on places from where it was entered. -/
structure Emits (p q : Program) (f g : Function) (l : Layout) (lines code : List Line) (blocks : List (Block Line)) :
    Prop where
  name : g.name = f.name
  params : g.params = f.params
  few : f.params.length ≤ maxArgs
  layout : g.layout = some l
  aligned : Aligned l
  inFrame : ∀ param ∈ f.params, (∀ j, 0 < j → p.size + j ≤ q.size → param.name ≠ p.names.made Name.scratch j) →
    ∃ slot ∈ l.slots, ∃ size, l.get? param.name = some (.stack slot.offset size)
  isCode : CodeOf q g l lines code blocks
  simulates : ∀ (host : Host q) (base : Word), host.Clear l base →
    Language.Simulates (onPlaces host l g.exitLabel).language (ofBody host l g.exitLabel) g.body blocks
      (Holds host l base) (LeavesWith host l base)
  runs : ∀ (host : Host q) (base : Word) (t : Store) (m : Machine), host.Clear l base →
    Holds host l base t (afterAll host.symbols m (entering l f.params)) →
    (onPlaces host l g.exitLabel).language.Traces g.body t = (host.language l g.exitLabel).Traces code m ∧
      ∀ events, Matches (ReturnAlike host) ((onPlaces host l g.exitLabel).language.Outcomes g.body t events)
        ((host.language l g.exitLabel).Outcomes code m events)

theorem exists_emits {x : Source.Program} {p q : Program} {s : Startup} {lines : List Line} {i : Nat} {f : Function}
    (lowered : Program.ofSource x = .ok p) (assigned : p.assign = ⟨q, none⟩) (emitted : ofProgram s q = .ok lines)
    (source : p.functions[i]? = some f) (hasBody : f.external = false) :
    ∃ g l code blocks, q.functions[i]? = some g ∧ Emits p q f g l lines code blocks := by
  obtain ⟨made, new, declared, grown, _, each⟩ := Program.assign_spec assigned
  obtain ⟨_, _, earlier, own, later, g, strings, l, bound, parts, found, assigns⟩ := each source hasBody
  have globals : q.globals = p.globals ++ earlier ++ own ++ later := by
    rw [declared, parts]
    simp
  have same : g.name = f.name ∧ g.params = f.params ∧ g.external = f.external := by
    rw [assigns.others]
    exact ⟨rfl, rfl, rfl⟩
  obtain ⟨before, all, behind, isCode, rfl⟩ := functions_of_ofProgram emitted
  obtain ⟨before', part, behind', isPart, rfl⟩ := functions_part isCode found (same.2.2.trans hasBody)
  obtain ⟨final, body, layout, few, isBody, rfl⟩ := function_cases isPart
  have lowered : AllLowered f.body := Program.allLowered_of_ofSource lowered f (List.mem_of_getElem? source)
  have prepared := prepared_of_assigns assigns layout globals lowered
  obtain ⟨inner, blocks, joined, realized⟩ :=
    realized_stmts isBody prepared.resolves prepared.aligned prepared.labels prepared.settled
  have realizes : ∀ (host : Host q) (base : Word), host.Clear final base →
      List.Forall₂ (Realizes host final g.exitLabel base) g.body blocks :=
    fun host base clear => realized.imp fun _ _ both => both.2 host base clear
  refine ⟨g, final, (entering final g.params).map .instr ++ (body ++ lastLines final g.exitLabel), blocks, found, ?_⟩
  constructor
  case name => exact same.1
  case params => exact same.2.1
  case few => exact same.2.1 ▸ few
  case layout => exact layout
  case aligned => exact prepared.aligned
  case inFrame =>
    intro param member unmade
    exact param_of_assigns assigns layout member fun j above below => unmade j (by omega) (by omega)
  case isCode =>
    refine ⟨⟨before ++ before', behind' ++ behind, ?_⟩, realized.imp fun _ _ both => both.1, by rw [joined]⟩
    simp
  case simulates => exact fun host base clear => simulates_of_realizes (realizes host base clear)
  case runs =>
    intro host base t m clear holds
    rw [← same.2.1] at holds
    exact prepared.runs inner joined (realizes host base clear) holds

end MiniC.Assembly

namespace MiniC.Code.Program

open Assembly Storage

/-- The code of a function does what its body does on places, statement by statement, from parameters in
their places on, as long as no parameter has one of the names that are made for scratch registers. -/
theorem runs_emitted_matches {x : Source.Program} {p q : Program} {s : Startup} {lines : List Line} {i : Nat}
    {f : Function} (lowered : Program.ofSource x = .ok p) (assigned : p.assign = ⟨q, none⟩)
    (emitted : ofProgram s q = .ok lines) (source : p.functions[i]? = some f) (hasBody : f.external = false)
    (unmade : ∀ param ∈ f.params, ∀ j, 0 < j → p.size + j ≤ q.size → param.name ≠ p.names.made Name.scratch j) :
    ∃ g l code blocks, q.functions[i]? = some g ∧ g.name = f.name ∧ g.params = f.params ∧ g.layout = some l ∧
      CodeOf q g l lines code blocks ∧
      ∀ (host : Assembly.Host q) (m : Machine), host.Clear l (m.get .sp - l.size.toBitVec) →
        Language.Simulates (onPlaces host l g.exitLabel).language (ofBody host l g.exitLabel) g.body blocks
          (Holds host l (m.get .sp - l.size.toBitVec)) (LeavesWith host l (m.get .sp - l.size.toBitVec)) ∧
        ∃ frame t, (onPlaces host l g.exitLabel).bindAll g.params
            ((Register.args.take g.params.length).map m.get) ⟨m.get, frame, host.cells m.memory⟩ = some t ∧
          (onPlaces host l g.exitLabel).language.Traces g.body t =
            (host.language l g.exitLabel).Traces code m ∧
          ∀ events, Matches (ReturnAlike host)
            ((onPlaces host l g.exitLabel).language.Outcomes g.body t events)
            ((host.language l g.exitLabel).Outcomes code m events) := by
  obtain ⟨g, l, code, blocks, found, emits⟩ := exists_emits lowered assigned emitted source hasBody
  refine ⟨g, l, code, blocks, found, emits.name, emits.params, emits.layout, emits.isCode, fun host m clear => ?_⟩
  have inFrame := fun param member => emits.inFrame param member (unmade param member)
  obtain ⟨frame, t, bound, holds⟩ := entering_holds g.exitLabel emits.aligned emits.few inFrame clear
  refine ⟨emits.simulates host _ clear, frame, t, ?_, emits.runs host _ t m clear holds⟩
  rw [emits.params]
  exact bound

/-- `char low; int show(string text, char c); int main(int n, int step) { while (n) { low = low + step;
n = n - 1; } return show("low", low); }` -/
def counting : Source.Program :=
  let pos := Source.Position.nowhere
  let low := Source.Expr.var pos "low"
  let n := Source.Expr.var pos "n"
  let body : List Source.Stmt :=
    [.whileStmt pos n
      [.assign pos "low" (.binary pos .add low (.var pos "step")),
        .assign pos "n" (.binary pos .sub n (.literal ⟨pos, .int 1⟩))],
      .returnStmt pos (.call pos "show" [.literal ⟨pos, .str "low"⟩, low])]
  ⟨[⟨pos, "low", .char, none⟩],
    [⟨pos, "show", .int, [⟨.string, "text"⟩, ⟨.char, "c"⟩], true, []⟩,
      ⟨pos, "main", .int, [⟨.int, "n"⟩, ⟨.int, "step"⟩], false, body⟩]⟩

def counter : Program :=
  (ofSource counting).toOption.getD ⟨⟨0⟩, [], []⟩

theorem names_counter : counter.assign.program.globals.map (·.name) = ["low", "__str12"] := by
  decide +kernel

theorem frame_counter {g : Function} {l : Layout} (found : counter.assign.program.functions[1]? = some g)
    (layout : g.layout = some l) :
    l.size = 88 ∧ ∀ slot ∈ l.slots, slot.offset ∈ [0, 8, 16, 24, 32, 40, 48, 56, 64, 72, 80] := by
  have frames : (counter.assign.program.functions[1]?.bind fun f => f.layout.map fun l =>
      (l.size, l.slots.map (·.offset))) = some (88, [0, 8, 16, 24, 32, 40, 48, 56, 64, 72, 80]) := by decide +kernel
  rw [found, Option.bind_some, layout, Option.map_some, Option.some.injEq, Prod.mk.injEq] at frames
  refine ⟨frames.1, fun slot member => ?_⟩
  rw [← frames.2]
  exact List.mem_map_of_mem member

theorem global_counter {x : Name} {g : Global} (found : counter.assign.program.global? x = some g) :
    x = "low" ∨ x = "__str12" := by
  have named : g.name = x := by simpa using List.find?_some found
  have member : g.name ∈ counter.assign.program.globals.map (·.name) :=
    List.mem_map_of_mem (List.mem_of_find?_eq_some found)
  rw [names_counter, named] at member
  simpa using member

def counterHost : Assembly.Host counter.assign.program where
  symbols x := if x = "low" then 0x1000 else 0x1008
  callees _ _ _ := {(7, fun _ => 0)}
  apart {x y g h} foundX foundY other := by
    have first := Memory.Width.bytes_le (widthOfGlobal g)
    have second := Memory.Width.bytes_le (widthOfGlobal h)
    have apart : ∀ {n k}, n ≤ 8 → k ≤ 8 → Memory.Apart 0x1000 n 0x1008 k := by
      intro n k small small'
      refine Memory.apart_of_le ?_ ?_
      · change 0x1000 + n ≤ 0x1008
        omega
      · change 0x1008 + k ≤ 2 ^ 64
        omega
    rcases global_counter foundX with rfl | rfl <;> rcases global_counter foundY with rfl | rfl
    · exact absurd rfl other
    · exact apart first second
    · exact (apart second first).symm
    · exact absurd rfl other
  proper {callee args cells w cells'} does x := by
    cases does
    cases counter.assign.program.global? x with
    | none => rfl
    | some g =>
      change (0 : Word) = (widthOfGlobal g).cut 0
      cases widthOfGlobal g <;> rfl

def counterMachine : Machine :=
  ⟨fun _ => 0x2000, fun _ => 0⟩

theorem clear_counter {g : Function} {l : Layout} (found : counter.assign.program.functions[1]? = some g)
    (layout : g.layout = some l) : counterHost.Clear l (counterMachine.get .sp - l.size.toBitVec) := by
  have pointer : counterMachine.get .sp = 0x2000 := rfl
  obtain ⟨size, offsets⟩ := frame_counter found layout
  intro slot member x h isGlobal
  have width := Memory.Width.bytes_le (widthOfGlobal h)
  have below : (counterHost.symbols x).toNat ≤ 0x1008 := by
    rcases global_counter isGlobal with rfl | rfl <;> decide
  have above : ∀ offset ∈ ([0, 8, 16, 24, 32, 40, 48, 56, 64, 72, 80] : List Int64),
      0x1010 ≤ ((0x2000 : Word) - (88 : Int64).toBitVec + offset.toBitVec).toNat ∧
        ((0x2000 : Word) - (88 : Int64).toBitVec + offset.toBitVec).toNat ≤ 0x2000 := by decide
  have place := above slot.offset (offsets slot member)
  rw [size, pointer]
  refine .symm (Memory.apart_of_le ?_ ?_)
  · omega
  · simp only [Width.bytes]
    omega

theorem runs_emitted_counting :
    ∃ p q lines, ∃ f g : Function, ∃ l code blocks, Program.ofSource counting = .ok p ∧ p.assign = ⟨q, none⟩ ∧
      ofProgram .default q = .ok lines ∧ p.functions[1]? = some f ∧ f.external = false ∧
      (∀ param ∈ f.params, ∀ j, 0 < j → p.size + j ≤ q.size → param.name ≠ p.names.made Name.scratch j) ∧
      q.functions[1]? = some g ∧ g.layout = some l ∧ CodeOf q g l lines code blocks ∧
      ∃ (host : Assembly.Host q) (m : Machine), host.Clear l (m.get .sp - l.size.toBitVec) ∧
        ∃ frame t, (onPlaces host l g.exitLabel).bindAll g.params
            ((Register.args.take g.params.length).map m.get) ⟨m.get, frame, host.cells m.memory⟩ = some t ∧
          (onPlaces host l g.exitLabel).language.Traces g.body t =
            (host.language l g.exitLabel).Traces code m ∧
          ∀ events, Matches (ReturnAlike host)
            ((onPlaces host l g.exitLabel).language.Outcomes g.body t events)
            ((host.language l g.exitLabel).Outcomes code m events) := by
  have lowered : ofSource counting = .ok counter := eq_ok_getD (by decide +kernel)
  have assigned : counter.assign = ⟨counter.assign.program, none⟩ := assign_of_error (by decide +kernel)
  have accepted : (ofProgram .default counter.assign.program).toOption.isSome = true := by decide +kernel
  obtain ⟨lines, emitted⟩ := isSome_toOption.1 accepted
  have user : ∀ f ∈ counter.functions, ∀ param ∈ f.params, Name.isGenerated param.name = false := by
    decide +kernel
  have unmade : ∀ f ∈ counter.functions, ∀ param ∈ f.params, ∀ j, 0 < j →
      counter.size + j ≤ counter.assign.program.size → param.name ≠ counter.names.made Name.scratch j :=
    fun f member param inParams _ _ _ => Name.ne_generated (user f member param inParams) Name.scratch _
  have source : counter.functions[1]? = some counter.functions[1] := rfl
  have inside := List.mem_of_getElem? source
  obtain ⟨g, l, code, blocks, found, _, _, layout, isCode, runs⟩ :=
    runs_emitted_matches lowered assigned emitted source rfl (unmade _ inside)
  have clear := clear_counter found layout
  exact ⟨_, _, lines, _, g, l, code, blocks, lowered, assigned, emitted, source, rfl, unmade _ inside, found, layout,
    isCode, counterHost, counterMachine, clear, (runs _ _ clear).2⟩

/-- `int main(int __s6) { if (0) { __s6 = __s6; } return __s6; }`, whose parameter has the first name that
is made for a scratch register. -/
def shadowed : Source.Program :=
  let pos := Source.Position.nowhere
  let param := Source.Expr.var pos "__s6"
  let body : List Source.Stmt :=
    [.ifStmt pos (.literal ⟨pos, .int 0⟩) [.assign pos "__s6" param] [], .returnStmt pos param]
  ⟨[], [⟨pos, "main", .int, [⟨.int, "__s6"⟩], false, body⟩]⟩

def selected : Layout :=
  ⟨[("__s6", .register .t6), ("__t4", .register .s1), ("__t1", .register .s2), ("__t5", .register .s3)],
    [⟨"ra", 0, 8, some .ra⟩, ⟨"fp", 8, 8, some .fp⟩, ⟨"s1", 16, 8, some .s1⟩, ⟨"s2", 24, 8, some .s2⟩,
      ⟨"s3", 32, 8, some .s3⟩, ⟨"__s6", 40, 8, none⟩], 48⟩

def selecting : Function :=
  let body : List Stmt :=
    [⟨[], .store "__t4" (some (.int 0))⟩, ⟨[], .unary .copy "__t1" "__t4"⟩, ⟨[], .branch .zero "__t1" "__L2"⟩,
      ⟨[], .move (.stack 40 8) (.register .t6)⟩, ⟨[], .unary .copy "__s6" "__s6"⟩, ⟨[], .jump "__L3"⟩,
      ⟨"__L2", .nop⟩, ⟨"__L3", .nop⟩, ⟨[], .unary .copy "__t5" "__s6"⟩, ⟨[], .ret "__t5"⟩]
  ⟨"main", .int, [⟨.int, "__s6"⟩], false, body, some selected⟩

def selection : Program :=
  ⟨⟨6⟩, [], [selecting]⟩

theorem closes_selecting {host : Assembly.Host selection} {t t' : Store} {outcome : Outcome} :
    (∃ count, (onPlaces host selected selecting.exitLabel).language.Closes selecting.body count 0 t outcome t') ↔
      outcome = .returned (some (t.regs .t6)) ∧
        t' = ⟨Function.update (Function.update (Function.update t.regs .s1 0) .s2 0) .s3 (t.regs .t6), t.frame,
          t.cells⟩ := by
  let m := onPlaces host selected selecting.exitLabel
  let t₁ : Store := { t with regs := Function.update t.regs .s1 0 }
  let t₂ : Store := { t₁ with regs := Function.update t₁.regs .s2 0 }
  let t₃ : Store := { t₂ with regs := Function.update t₂.regs .s3 (t.regs .t6) }
  have stored : m.write t "__t4" 0 = some t₁ := rfl
  have tested : m.write t₁ "__t1" 0 = some t₂ := rfl
  have copied : m.write t₂ "__t5" (t.regs .t6) = some t₃ := rfl
  have jumps : (∃ count, m.language.Closes selecting.body count 2 t₂ outcome t') ↔
      ∃ count, m.language.Closes selecting.body count 6 t₂ outcome t' := by
    have zero : m.read t₂ "__t1" = some 0 := rfl
    constructor
    · rintro ⟨count, closes⟩
      obtain ⟨count', _, _, found, rest⟩ := (closes_branch rfl rfl zero rfl).1 closes
      cases found
      exact ⟨count', rest⟩
    · rintro ⟨count, rest⟩
      exact ⟨count + 1, (closes_branch rfl rfl zero rfl).2 ⟨count, 6, rfl, rfl, rest⟩⟩
  rw [closes_next rfl (acts_store_iff rfl stored), closes_next rfl (acts_unary_iff rfl rfl tested), jumps,
    closes_next rfl acts_nop_iff, closes_next rfl acts_nop_iff, closes_next rfl (acts_unary_iff rfl rfl copied)]
  constructor
  · rintro ⟨count, closes⟩
    obtain ⟨_, _, value, gives, rfl⟩ := (closes_return rfl rfl).1 closes
    obtain ⟨_, left, same⟩ := (acts_give_iff (by decide) rfl).1 gives
    cases left
    exact ⟨rfl, same⟩
  · rintro ⟨rfl, same⟩
    exact ⟨0, (closes_return rfl rfl).2 ⟨rfl, [], _, (acts_give_iff (by decide) rfl).2 ⟨rfl, rfl, same⟩, rfl⟩⟩

def selectionHost : Assembly.Host selection where
  symbols _ := 0
  callees _ _ _ := ∅
  apart foundX := nomatch foundX
  proper does := does.elim

def selectionMachine : Machine :=
  ⟨fun r => if r = .a0 then 1 else 0, fun _ => 0⟩

/-- The code of a function whose parameter has the name of a scratch register does not start from its
argument. -/
theorem runs_emitted_shadowed :
    ∃ p lines, ∃ f : Function, ∃ code, Program.ofSource shadowed = .ok p ∧ p.assign = ⟨selection, none⟩ ∧
      ofProgram .default selection = .ok lines ∧ p.functions[0]? = some f ∧ f.external = false ∧
      (∃ before behind, lines = before ++ [Line.blank, .label "main"] ++ code ++ behind) ∧
      ∃ (host : Assembly.Host selection) (m : Machine), host.Clear selected (m.get .sp - selected.size.toBitVec) ∧
        ∀ frame t, (onPlaces host selected selecting.exitLabel).bindAll selecting.params [m.get .a0]
            ⟨m.get, frame, host.cells m.memory⟩ = some t →
          ¬ ∀ events, Matches (ReturnAlike host)
            ((onPlaces host selected selecting.exitLabel).language.Outcomes selecting.body t events)
            ((host.language selected selecting.exitLabel).Outcomes code m events) := by
  obtain ⟨p, f, lowered, assigned, source, hasBody, same⟩ : ∃ p f, ofSource shadowed = .ok p ∧
      p.assign = ⟨selection, none⟩ ∧ p.functions[0]? = some f ∧ f.external = false ∧
        f.params = selecting.params := ⟨_, _, rfl, rfl, rfl, rfl, rfl⟩
  have accepted : (ofProgram .default selection).toOption.isSome = true := by decide +kernel
  obtain ⟨lines, emitted⟩ := isSome_toOption.1 accepted
  obtain ⟨g, l, code, blocks, found, emits⟩ := exists_emits lowered assigned emitted source hasBody
  obtain rfl : selecting = g := Option.some.inj found
  obtain rfl : selected = l := Option.some.inj emits.layout
  have clear : selectionHost.Clear selected (selectionMachine.get .sp - selected.size.toBitVec) :=
    fun _ _ _ _ found => nomatch found
  refine ⟨p, lines, f, code, lowered, assigned, emitted, source, hasBody, emits.isCode.part, selectionHost,
    selectionMachine, clear, fun frame t bound every => ?_⟩
  have argument : t.regs .t6 = 1 := by
    cases bound
    rfl
  -- nothing is bound when the function is entered, so that its scratch register is still zero
  have inFrame : ∀ param ∈ ([] : List Param), ∃ slot ∈ selected.slots, ∃ size,
      selected.get? param.name = some (.stack slot.offset size) := by simp
  obtain ⟨unbound, _, entered, holds⟩ := entering_holds selecting.exitLabel emits.aligned (by decide) inFrame clear
  cases entered
  rw [show entering selected [] = entering selected f.params by rw [same]; rfl] at holds
  obtain ⟨count, events, ends⟩ : ∃ count, (onPlaces selectionHost selected selecting.exitLabel).language.Closes
      selecting.body count 0 ⟨selectionMachine.get, unbound, selectionHost.cells selectionMachine.memory⟩
      (.returned (some 0)) _ := closes_selecting.2 ⟨rfl, rfl⟩
  obtain ⟨out, ended, alike⟩ := ((emits.runs _ _ _ _ clear holds).2 events).1 (.returned (some 0), _) ⟨count, ends⟩
  obtain ⟨out', ⟨count', ends'⟩, alike'⟩ := (every events).2 out ended
  have given := (closes_selecting.1 ⟨count', events, ends'⟩).1
  have zero : out.2.get resultRegister = 0 := alike.2.1 0 rfl
  have one : out.2.get resultRegister = 1 := by rw [alike'.2.1 _ given, argument]
  cases zero.symm.trans one

end MiniC.Code.Program
