import MiniC.Proofs.Compilation.Failures
import MiniC.Proofs.Compilation.Linking
import MiniC.Proofs.Emission.Convention

namespace MiniC

open Code Storage Assembly

variable {queue : Queue Usage Usage.less}

section

variable {start : Namer} {a moves : Nat} {globals new later : List Global} {f g : Function} {strings : Nat → Name}
  {l final : Layout} {q : Program} (assigns : Assigns queue start a moves globals new f g strings l)
  (layout : g.layout = some final)

include assigns layout

theorem isFrame_of_assigns (small : 8 * final.slots.length < 2048) : IsFrame final := by
  have before := later_of_assigns assigns layout
  obtain ⟨_, _, sized, _⟩ := get?_place assigns.places
  constructor
  case offsets =>
    rw [before.slots]
    exact Layout.offset_withFrame sized
  case size => rw [before.size, before.slots, (Layout.size_withFrame sized).1]
  case small => exact small
  case saves =>
    rw [before.slots]
    exact fun slot member => (Layout.slotted_withFrame sized slot member).2
  case link =>
    rw [before.slots]
    exact Layout.exists_save (Layout.ra_mem_registersToSave l)

end

namespace Stages

variable {s : Startup} {text : Bytes} {x : Source.Program} {p q : Program} {lines : List Line}
  (stages : Stages s text x p q lines)

include stages

theorem exists_hasCode (isSmall : IsSmall p) {g : Function} (member : g ∈ q.functions) (hasBody : g.external = false) :
    ∃ l before body behind, HasCode q lines g l before body behind := by
  obtain ⟨_, _, f, inCode, _, assignsTo⟩ := stages.exists_source member
  have isLowered := isLowered_of_ofSource stages.wellFormed stages.lowered
  have hasBody' : f.external = false := (keeps_of_assignsTo assignsTo).2.2.1.symm.trans hasBody
  obtain ⟨i, found⟩ := List.getElem?_of_mem member
  obtain ⟨first, all, last, isCode, parts⟩ := functions_of_ofProgram stages.emitted
  obtain ⟨before, part, behind, isPart, rfl⟩ := functions_part isCode found hasBody
  obtain ⟨l, layout, slots, size, _⟩ := frame_of_assignsTo isLowered isSmall stages.assigned inCode hasBody' assignsTo
  have fit : 8 * l.slots.length < 2048 := by
    obtain ⟨data, codes, isAssembly⟩ := stages.exists_isAssembly
    have sound := (isSoundProgram_of_isAssembly isAssembly stages.emitted).bodies g (mem_bodies.2 ⟨member, hasBody⟩) l layout
    have bound := isSmall.frames f inCode
    exact (fits_ofNat (by omega)).1 (size ▸ sound.frame.2)
  obtain ⟨l', body, layout', _, isBody, rfl⟩ := function_cases isPart
  cases layout.symm.trans layout'
  rcases assignsTo with ⟨external, _⟩ | ⟨_, _, _, _, _, _, _, _, _, globals, assigns⟩
  · cases hasBody'.symm.trans external
  have lowered := Program.allLowered_of_ofSource stages.lowered f inCode
  have prepared := stages.prepared member hasBody layout
  have marks := (isBodyCode_of_stmts prepared.resolves isBody prepared.settled).marks
  refine ⟨l, first ++ before ++ [Line.blank], body, behind ++ last, layout, isFrame_of_assigns assigns layout fit, ?_, ?_, ?_⟩
  · intro param _ offset size placed
    exact writable_of_assigns assigns layout globals placed
  · refine tame_stmts (writable_of_resolve assigns layout globals) isBody (by simp) ?_ ?_
    · intro stmt inBody target isTarget
      rw [marks]
      exact List.mem_append_left _ ((stages.written member).2 stmt inBody target isTarget)
    · exact fun stmt inBody src dst isMove => writable_of_move assigns layout globals lowered inBody isMove
  · rw [parts, functionLines]
    simp

theorem hasCodes (isSmall : IsSmall p) : HasCodes q lines := by
  obtain ⟨data, codes, isAssembly⟩ := stages.exists_isAssembly
  have few := isSmall.lines
  exact ⟨nodup_labels isAssembly (stages.wellNamed_of_lines (by omega)), fun g => stages.exists_hasCode isSmall⟩

end Stages

theorem isCodeOf_functionLines {q : Program} {lines : List Line} {g : Function} {l : Layout} {before body behind : List Line}
    (code : HasCode q lines g l before body behind) : IsCodeOf g.name (functionLines g l body) := by
  refine ⟨(entering l g.params).map .instr ++ (body ++ Line.label g.exitLabel :: (leaving l).map .instr), ?_, ?_⟩
  · simp [functionLines, lastLines]
  · have entered : Instr.jumpRegister .ra ∉ entering l g.params := fun member =>
      absurd (isData_of_entering l g.params _ member) (by decide)
    have left : Instr.jumpRegister .ra ∉ leaving l := fun member =>
      absurd (isData_of_leaving l _ member) (by decide)
    simpa [entered, left] using code.tame.notMem_jumpRegister .ra

/-- What the calling convention asks for while a function runs that was entered in some state of the machine. Control is in
its code; where it returns, the stack pointer and the registers that have to be saved are as they were; of the stack it
writes its frame only; and where it calls, the stack ends with its frame. -/
structure Complies {q : Program} {lines : List Line} (image : Image q lines) (a : Activation) (pc : Nat) (m : Machine) :
    Prop where
  inside : ∃ before code behind, lines = before ++ code ++ behind ∧ IsCodeOf a.function.name code ∧
    before.length ≤ pc ∧ pc < before.length + code.length
  returns : ∀ r, lines[pc]? = some (.instr (.jumpRegister r)) →
    r = .ra ∧ ∀ kept ∈ .sp :: Register.calleeSaved, m.get kept = a.entry.get kept
  writes : ∀ width r offset base, lines[pc]? = some (.instr (.store width r offset base)) →
    ∀ byte, Memory.Within (m.get base + offset.toBitVec) width.bytes byte → image.InStack byte → a.InFrame byte
  calls : ∀ name, lines[pc]? = some (.instr (.call name)) → (m.get .sp).toNat + a.size = (a.entry.get .sp).toNat

example : Register.calleeSaved =
    [.ra, .fp, .s1, .s2, .s3, .s4, .s5, .s6, .s7, .s8, .s9, .s10, .s11] := by
  decide

theorem complies_of_runs {q : Program} {lines : List Line} {image : Image q lines} {a : Activation} {pc : Nat} {m : Machine}
    (runs : Runs image a pc m) : Complies image a pc m := by
  constructor
  case inside =>
    obtain ⟨l, before, body, behind, code, above, below⟩ := runs.inside
    exact ⟨before, _, behind, by rw [List.append_assoc, ← code.parts], isCodeOf_functionLines code, above, below⟩
  case returns =>
    intro r here
    obtain ⟨isLink, keeps⟩ := runs.returns here
    exact ⟨isLink, keeps.registers⟩
  case writes => exact fun _ _ _ _ here _ written inStack => runs.stores here written inStack
  case calls => exact fun _ here => runs.sp_at_call here

/-- Compiled programs keep the calling convention in every state that they come to. In texts that are shorter, neither the
counter of names nor the size of a frame comes round. -/
theorem complies_of_compile {s : Startup} {text : Bytes} {lines : List Line} (compiled : compile s text = .ok lines)
    (small : text.length < 2 ^ 56) : ∃ x p q, Stages s text x p q lines ∧
      ∀ (image : Image q lines) (a : Activation) (as : List Activation) (pc : Nat) (m : Machine),
        image.Reaches ⟨a :: as, pc, m⟩ → Complies image a pc m := by
  obtain ⟨x, p, q, stages⟩ := exists_stages compiled
  have hasCodes := stages.hasCodes (isSmall_of_parse stages.parsed stages.lowered small)
  refine ⟨x, p, q, stages, fun image a as pc m reaches => ?_⟩
  exact complies_of_runs (orderly_of_reaches hasCodes reaches).1

/-- `char c; int put(int c); int twice(int n) { c = put(n); return n + n; } int main(int n) { return twice(n); }` -/
def relaying : Source.Program :=
  let pos := Source.Position.nowhere
  let n := Source.Expr.var pos "n"
  ⟨[⟨pos, "c", .char, none⟩],
    [⟨pos, "put", .int, [⟨.int, "c"⟩], true, []⟩,
      ⟨pos, "twice", .int, [⟨.int, "n"⟩], false,
        [.assign pos "c" (.call pos "put" [n]), .returnStmt pos (.binary pos .add n n)]⟩,
      ⟨pos, "main", .int, [⟨.int, "n"⟩], false, [.returnStmt pos (.call pos "twice" [n])]⟩]⟩

def relayingText : Bytes :=
  "char c;\n\nint put(int c);\n\nint twice(int n) \x7b\n\tc = put(n);\n\treturn n + n;\n\x7d\n\n" ++
    "int main(int n) \x7b\n\treturn twice(n);\n\x7d\n"

def relay : Program :=
  (Program.ofSource relaying).toOption.getD ⟨⟨0⟩, [], []⟩

def placedRelay : Program :=
  relay.assign.program

def relayLines : List Line :=
  (compileCode .default relay).toOption.getD []

theorem lowered_relaying : Program.ofSource relaying = .ok relay :=
  eq_ok_getD (by decide +kernel)

theorem assigned_relay : relay.assign = ⟨placedRelay, none⟩ :=
  Program.assign_of_error (by decide +kernel)

def IsStraight (code : List Line) : Bool :=
  code.all fun
    | .instr i => i.isData
    | _ => true

theorem Assembly.Image.Reaches.straight {q : Program} {lines : List Line} {image : Image q lines} {as : List Activation}
    {pc n : Nat} {m : Machine} (reaches : image.Reaches ⟨as, pc, m⟩) (isStraight : IsStraight ((lines.drop pc).take n) = true)
    {line : Line} (there : lines[pc + n]? = some line) : ∃ m', image.Reaches ⟨as, pc + n, m'⟩ := by
  induction n generalizing pc m with
  | zero => exact ⟨m, reaches⟩
  | succ n ih =>
    have inside : pc < lines.length := by
      have := (List.getElem?_eq_some_iff.1 there).1
      omega
    have here : lines[pc]? = some lines[pc] := List.getElem?_eq_getElem inside
    rw [drop_of_getElem? here, List.take_succ_cons] at isStraight
    obtain ⟨first, others⟩ := Bool.and_eq_true_iff.1 isStraight
    rw [← Nat.add_assoc, Nat.add_right_comm] at there ⊢
    generalize lines[pc] = next at here first
    cases next with
    | instr i => exact ih (reaches.step (.data here first)) others there
    | _ => exact ih (reaches.step (.pass here nofun)) others there

/-- The way of the run below: where it enters `main` and `twice`, where these call, and where `twice` is left. -/
def isRelay (lines : List Line) : Bool :=
  lines.length < 2 ^ 64 && lines[46]? = some (Line.label "main") && IsStraight ((lines.drop 46).take 8) &&
    lines[54]? = some (Line.instr (.call "twice")) && lines[18]? = some (Line.label "twice") &&
    IsStraight ((lines.drop 18).take 9) && lines[27]? = some (Line.instr (.call "put")) &&
    IsStraight ((lines.drop 28).take 8) && lines[36]? = some (Line.instr (.jump "__exit_twice")) &&
    lines[37]? = some (Line.label "__exit_twice") && IsStraight ((lines.drop 37).take 7) &&
    lines[44]? = some (Line.instr (.jumpRegister .ra))

set_option maxRecDepth 4000 in
theorem compiled_relay : compileCode .default relay = .ok relayLines ∧ isRelay relayLines = true := by
  have compiles : (compileCode .default relay).toOption.any isRelay = true := by decide +kernel
  obtain ⟨lines, compiled, way⟩ := any_toOption.1 compiles
  have same : relayLines = lines := by
    rw [relayLines, compiled]
    rfl
  rw [same]
  exact ⟨compiled, way⟩

def relayEntry : Machine :=
  ⟨fun _ => BitVec.ofNat 64 4096, fun _ => 0⟩

theorem functions_relay : placedRelay.functions.map (fun f => (f.name, f.external, Activation.size ⟨f, relayEntry⟩)) =
    [(Bytes.ofString "put", true, 0), (Bytes.ofString "twice", false, 48), (Bytes.ofString "main", false, 40)] := by
  decide +kernel

def relayImage : Image placedRelay relayLines where
  symbols _ := BitVec.ofNat 64 65536
  address i := BitVec.ofNat 64 i
  low := 0
  high := 4096
  distinct := by
    intro i j order inside same k above below
    have way := compiled_relay.2
    simp only [isRelay, Bool.and_eq_true, decide_eq_true_iff, and_assoc] at way
    have few := way.1
    have := congrArg BitVec.toNat same
    simp only [BitVec.toNat_ofNat] at this
    omega
  apart := by
    intro h _ b inside
    have width : (widthOfGlobal h).bytes ≤ 8 := Memory.Width.bytes_le _
    have := b.isLt
    simp only [Memory.Within, BitVec.toNat_sub, BitVec.toNat_ofNat] at inside
    omega

/-- `main` has called `twice`, which has called `put` and returns. -/
theorem complies_of_compile_relay : compile .default relayingText = .ok relayLines ∧ relayingText.length < 2 ^ 56 ∧
    relayLines[44]? = some (Line.instr (.jumpRegister .ra)) ∧ ∃ (twice main : Activation) (m : Machine),
      relayImage.Reaches ⟨[twice, main], 44, m⟩ ∧ Complies relayImage twice 44 m := by
  have printed : relaying.format = .ok relayingText := by decide +kernel
  have compiled := compile_format (by decide) printed lowered_relaying compiled_relay.1
  have small : relayingText.length < 2 ^ 56 := by decide +kernel
  obtain ⟨x, p, q, stages, complies⟩ := complies_of_compile compiled small
  cases (lower_eq_ok.2 ⟨x, stages.parsed, stages.lowered⟩).symm.trans (lower_format (by decide) printed lowered_relaying)
  cases stages.assigned.symm.trans assigned_relay
  have way := compiled_relay.2
  simp only [isRelay, Bool.and_eq_true, decide_eq_true_iff, and_assoc] at way
  obtain ⟨_, atMain, inMain, callsTwice, atTwice, inTwice, callsPut, goesOn, jumps, atExit, leaves, returns⟩ := way
  have declared := functions_relay
  simp only [List.map_eq_cons_iff, List.map_eq_nil_iff, Prod.mk.injEq] at declared
  obtain ⟨put, _, functions, ⟨isPut, external, _⟩, twice, _, rfl, ⟨isTwice, hasBody, size⟩, main, _, rfl,
    ⟨isMain, hasBody', size'⟩, rfl⟩ := declared
  have entered : relayImage.Reaches ⟨[⟨main, relayEntry⟩], 46, relayEntry⟩ := by
    refine .enter (by simp [functions]) hasBody' (isMain ▸ atMain) ⟨?_, Nat.le_refl _⟩
    rw [size']
    exact (by decide : 40 ≤ (BitVec.ofNat 64 4096).toNat)
  obtain ⟨m₁, calls⟩ := entered.straight inMain callsTwice
  have stack : (m₁.get .sp).toNat + Activation.size ⟨main, relayEntry⟩ = 4096 :=
    (complies relayImage _ _ _ _ calls).calls "twice" callsTwice
  have room : relayImage.HasRoom ⟨twice, relayImage.link m₁ 54⟩ := by
    have kept : (relayImage.link m₁ 54).get .sp = m₁.get .sp := Machine.get_set_other _ _ (by decide)
    have frame : Activation.size ⟨twice, relayImage.link m₁ 54⟩ = 48 := size
    rw [size'] at stack
    rw [Image.HasRoom, kept, frame]
    exact ⟨by change 0 + 48 ≤ _; omega, by change _ ≤ 4096; omega⟩
  have called := calls.step (.call (isTwice ▸ callsTwice) (by simp [functions]) hasBody (isTwice ▸ atTwice) room)
  obtain ⟨m₂, calls'⟩ := called.straight inTwice callsPut
  have back := calls'.step (.external (isPut ▸ callsPut) (by simp [functions]) external ⟨fun _ _ => rfl, fun _ _ _ => rfl⟩)
  obtain ⟨m₃, ends⟩ := back.straight goesOn jumps
  obtain ⟨m₄, left⟩ := (ends.step (.jump jumps atExit)).straight leaves returns
  exact ⟨compiled, small, returns, _, _, m₄, left, complies relayImage _ _ _ _ left⟩

end MiniC
