import MiniC.Proofs.Emission.Readiness

namespace MiniC.Assembly

open Code Storage

variable {queue : Queue Usage Usage.less} {lines : List Line} {i : Instr}

/-- Does an instruction read or write relative to the stack pointer, or move it? -/
def Instr.usesStack : Instr → Bool
  | .load _ _ _ base | .store _ _ _ base => base == .sp
  | .immediate _ rd _ _ => rd == .sp
  | _ => false

/-- An instruction that reads and writes slots of the frame only, and that leaves the stack pointer alone or moves it by
the size of the frame. -/
def Instr.UsesSlots (l : Layout) : Instr → Prop
  | .load width rd offset base => rd ≠ .sp ∧ (base = .sp → width = .word ∧ ∃ slot ∈ l.slots, slot.offset = offset)
  | .store width _ offset base => base = .sp → width = .word ∧ ∃ slot ∈ l.slots, slot.offset = offset
  | .immediate op rd rs value => rd = .sp → op = .addi ∧ rs = .sp ∧ (value = l.size ∨ value = -l.size)
  | .li rd _ | .la rd _ | .arith _ rd _ _ | .unary _ rd _ | .readHartId rd => rd ≠ .sp
  | .jump _ | .branch .. | .call _ | .jumpRegister _ => True

/-- A place that is not the stack pointer, and that is a slot if it is in the frame. -/
def Reaches (l : Layout) : Location → Prop
  | .register r => r ≠ .sp
  | .stack offset _ => ∃ slot ∈ l.slots, slot.offset = offset
  | .nowhere | .memory .. => True

theorem reaches_of_usable {p : Program} {l : Layout} {place : Location} (usable : Usable p l place) : Reaches l place := by
  cases place with
  | register r =>
    have known : ∀ r ∈ nameRegisters, r ≠ .sp := by decide
    exact known r usable
  | stack offset size => exact usable
  | nowhere | memory => trivial

variable {p : Program} {l : Layout} {exit : Name} {code : List Instr}

theorem usesSlots_of_move {src dst : Location} (emitted : move src dst = .ok code) (reaches : Reaches l src)
    (reaches' : Reaches l dst) : ∀ i ∈ code, i.UsesSlots l := by
  have temporary : Register.temporary ≠ .sp := by decide
  unfold move at emitted
  split at emitted
  case h_1 =>
    cases emitted
    exact List.forall_mem_singleton.2 fun isPointer => absurd isPointer reaches'
  case h_2 =>
    split at emitted <;> cases emitted
    exact List.forall_mem_singleton.2 fun _ => ⟨rfl, reaches'⟩
  case h_3 =>
    cases emitted
    exact List.forall_mem_cons.2 ⟨temporary, List.forall_mem_singleton.2 fun isPointer => absurd isPointer temporary⟩
  case h_4 =>
    split at emitted <;> cases emitted
    exact List.forall_mem_singleton.2 ⟨reaches', fun _ => ⟨rfl, reaches⟩⟩
  case h_5 =>
    cases emitted
    exact List.forall_mem_cons.2
      ⟨temporary, List.forall_mem_singleton.2 ⟨reaches', fun isPointer => absurd isPointer temporary⟩⟩
  case h_6 => cases emitted

theorem usesSlots_of_binary {op : BinOp} {d a b : Register} (emitted : binary op d a b = .ok code) (free : d ≠ .sp) :
    ∀ i ∈ code, i.UsesSlots l := by
  have temporary : Register.temporary ≠ .sp := by decide
  cases op with
  | eq | ne | logAnd | logOr =>
    cases emitted
    simp [Instr.UsesSlots, free, temporary]
  | unknown => cases emitted
  | _ =>
    cases emitted
    exact List.forall_mem_singleton.2 free

theorem usesSlots_of_unary {op : UnOp} {d a : Register} (emitted : unary op d a = .ok code) (free : d ≠ .sp) :
    ∀ i ∈ code, i.UsesSlots l := by
  have temporary : Register.temporary ≠ .sp := by decide
  cases op with
  | unknown => cases emitted
  | _ =>
    cases emitted
    simp [Instr.UsesSlots, free, temporary]

section

variable (reaches : ∀ {x place}, (scopeOf p l exit).resolve x = .ok place → Reaches l place)

include reaches

theorem ne_sp_of_register {x : Name} {r : Register} (found : (scopeOf p l exit).register x = .ok r) : r ≠ .sp :=
  reaches (resolve_of_register found)

theorem usesSlots_of_action {a : Action} (emitted : action (scopeOf p l exit) a = .ok code)
    (moves : ∀ src dst, a = .move src dst → Reaches l src ∧ Reaches l dst) : ∀ i ∈ code, i.UsesSlots l := by
  have temporary : Register.temporary ≠ .sp := by decide
  refine forall_of_pieces emitted fun piece => ?_
  cases piece with
  | move moved gives gets =>
    refine usesSlots_of_move moved ?_ ?_
    · cases gives with
      | place found => exact reaches found
      | temporary => exact temporary
      | result => exact args_ne_sp _ (by decide)
      | own isMove => exact (moves _ _ isMove).1
    · cases gets with
      | place found => exact reaches found
      | arg isArg => exact args_ne_sp _ isArg
      | own isMove => exact (moves _ _ isMove).2
  | constant => exact List.forall_mem_singleton.2 temporary
  | binary found computed => exact usesSlots_of_binary computed (ne_sp_of_register reaches found)
  | unary found computed => exact usesSlots_of_unary computed (ne_sp_of_register reaches found)
  | jump | branch | call => exact List.forall_mem_singleton.2 trivial

theorem usesSlots_of_stmts {body : List Stmt} (emitted : stmts (scopeOf p l exit) body = .ok lines)
    (moves : ∀ s ∈ body, ∀ src dst, s.action = .move src dst → Reaches l src ∧ Reaches l dst) :
    ∀ i, .instr i ∈ lines → i.UsesSlots l := by
  induction body generalizing lines with
  | nil =>
    cases emitted
    exact fun _ never => nomatch never
  | cons s body ih =>
    obtain ⟨first, here, emitted⟩ := bind_eq_ok.1 emitted
    obtain ⟨rest, there, done⟩ := bind_eq_ok.1 emitted
    cases done
    obtain ⟨code, inside, done⟩ := bind_eq_ok.1 here
    cases done
    obtain ⟨movesHere, movesThere⟩ := List.forall_mem_cons.1 moves
    intro i member
    rcases List.mem_append.1 member with inFirst | inRest
    · rcases List.mem_append.1 inFirst with label | instr
      · split at label
        · cases label
        · cases List.mem_singleton.1 label
      · obtain ⟨i', inCode, same⟩ := List.mem_map.1 instr
        cases same
        exact usesSlots_of_action reaches (within_eq_ok.1 inside) movesHere i inCode
    · exact ih there movesThere i inRest

end

theorem usesSlots_of_entering {params : List Param}
    (spilled : ∀ param ∈ params, ∀ place, l.get? param.name = some place → Reaches l place) :
    ∀ i ∈ entering l params, i.UsesSlots l := by
  have spills : ∀ rs, ∀ i ∈ spillParams l params rs, i.UsesSlots l := by
    intro rs
    fun_induction spillParams l params rs with
    | case1 param params r rs offset size found ih =>
      obtain ⟨here, there⟩ := List.forall_mem_cons.1 spilled
      exact List.forall_mem_cons.2 ⟨fun _ => ⟨rfl, here _ found⟩, ih there⟩
    | case2 param params r rs _ ih => exact ih (List.forall_mem_cons.1 spilled).2
    | case3 => exact List.forall_mem_nil _
  refine List.forall_mem_append.2 ⟨List.forall_mem_cons.2 ⟨fun _ => ⟨rfl, rfl, .inr rfl⟩, ?_⟩, spills _⟩
  intro i member
  obtain ⟨slot, inside, saved⟩ := List.mem_filterMap.1 member
  obtain ⟨r, _, rfl⟩ := Option.map_eq_some_iff.1 saved
  exact fun _ => ⟨rfl, slot, inside, rfl⟩

theorem usesSlots_of_leaving (saves : ∀ slot ∈ l.slots, ∀ r, slot.saves = some r → r ∈ Register.calleeSaved) :
    ∀ i ∈ leaving l, i.UsesSlots l := by
  have kept : ∀ r ∈ Register.calleeSaved, r ≠ .sp := by decide
  refine List.forall_mem_append.2 ⟨fun i member => ?_, List.forall_mem_singleton.2 fun _ => ⟨rfl, rfl, .inl rfl⟩⟩
  obtain ⟨slot, inside, r, saved, rfl⟩ := restores member
  exact ⟨kept r (saves slot inside r saved), fun _ => ⟨rfl, slot, inside, rfl⟩⟩

theorem usesSlots_of_function {g : Function} (emitted : function p g = .ok lines)
    (layout : g.layout = some l) (reaches : ∀ {x place}, (scopeOf p l g.exitLabel).resolve x = .ok place → Reaches l place)
    (moves : ∀ s ∈ g.body, ∀ src dst, s.action = .move src dst → Reaches l src ∧ Reaches l dst)
    (saves : ∀ slot ∈ l.slots, ∀ r, slot.saves = some r → r ∈ Register.calleeSaved) :
    ∀ i, .instr i ∈ lines → i.UsesSlots l := by
  obtain ⟨l', body, layout', _, isBody, rfl⟩ := function_cases emitted
  cases layout.symm.trans layout'
  have entered : ∀ i ∈ entering l g.params, i.UsesSlots l := by
    refine usesSlots_of_entering fun param _ place found => reaches (x := param.name) ?_
    exact Scope.resolve_of_place found
  have left : ∀ i ∈ leaving l ++ [Instr.jumpRegister .ra], i.UsesSlots l :=
    List.forall_mem_append.2 ⟨usesSlots_of_leaving saves, List.forall_mem_singleton.2 trivial⟩
  have ofMap : ∀ {i : Instr} {code : List Instr}, Line.instr i ∈ code.map .instr → i ∈ code := by
    intro i code member
    obtain ⟨_, inside, same⟩ := List.mem_map.1 member
    cases same
    exact inside
  intro i member
  simp only [List.cons_append, List.nil_append, List.mem_cons, List.mem_append, lastLines, reduceCtorEq,
    false_or] at member
  rcases member with first | inBody | last
  · exact entered i (ofMap first)
  · exact usesSlots_of_stmts reaches isBody moves i inBody
  · exact left i (ofMap last)

section

variable {start : Namer} {a moves : Nat} {globals new later : List Global} {f g : Function}
  {strings : Nat → Name} {l final : Layout} {q : Program}
  (assigns : Assigns queue start a moves globals new f g strings l) (layout : g.layout = some final)

include assigns layout

theorem reaches_of_move (declared : q.globals = globals ++ new ++ later)
    (plain : ∀ s ∈ f.body, ∀ src dst, s.action ≠ .move src dst) {s : Stmt} (member : s ∈ g.body) {src dst : Location}
    (isMove : s.action = .move src dst) : Reaches final src ∧ Reaches final dst := by
  have scratches : ∀ r ∈ Register.scratchPool, r ≠ .sp := by decide
  obtain ⟨i, original, inBody, _, _, becomes⟩ := becomes_of_plain assigns layout plain member
  have noMove : ∀ src dst, symbolic (strings i) original.action ≠ .move src dst :=
    fun src dst same => plain original (List.mem_of_getElem? inBody) src dst (symbolic_eq_move.1 same)
  generalize symbolic (strings i) original.action = action at becomes noMove
  generalize s.action = action' at becomes isMove
  cases becomes with
  | load scratch _ found =>
    cases isMove
    exact ⟨reaches_of_usable (usable_of_withFrame assigns layout declared found), scratches _ scratch⟩
  | unload scratch _ found =>
    cases isMove
    exact ⟨scratches _ scratch, reaches_of_usable (usable_of_withFrame assigns layout declared found)⟩
  | call is => cases is.symm.trans isMove
  | other =>
    cases action with
    | move src dst => exact absurd rfl (noMove src dst)
    | _ => cases isMove

theorem usesSlots_of_assigns (declared : q.globals = globals ++ new ++ later)
    (plain : ∀ s ∈ f.body, ∀ src dst, s.action ≠ .move src dst)
    (emitted : function q g = .ok lines) : ∀ i, .instr i ∈ lines → i.UsesSlots final := by
  obtain ⟨_, _, sized, _⟩ := get?_place assigns.places
  have slotted := Layout.slotted_withFrame sized
  rw [← (later_of_assigns assigns layout).slots] at slotted
  refine usesSlots_of_function emitted layout ?_ ?_ fun slot member => (slotted slot member).2
  · exact fun resolved => reaches_of_usable (resolves_of_assigns assigns layout declared _ resolved)
  · exact fun s member src dst => reaches_of_move assigns layout declared plain member

theorem length_slots_le : final.slots.length ≤ 2 + (usedNames f.params f.body).length := by
  rw [(later_of_assigns assigns layout).slots, length_slots assigns.places, ← usedNames_withStrings strings]
  refine Nat.add_le_add_left ((List.dedup_sublist _).length_le.trans ?_) 2
  rw [usedNames, List.length_append, List.length_append]
  exact Nat.add_le_add_left (List.length_filter_le _ _) _

theorem offset_of_assigns {slot : Slot} (member : slot ∈ final.slots) :
    ∃ k < final.slots.length, slot.offset = Int64.ofNat (8 * k) := by
  obtain ⟨_, _, sized, _⟩ := get?_place assigns.places
  rw [(later_of_assigns assigns layout).slots] at member ⊢
  obtain ⟨k, below, rfl⟩ := List.mem_iff_getElem.1 member
  exact ⟨k, below, Layout.offset_withFrame sized (List.getElem?_eq_getElem below)⟩

theorem size_of_assigns : final.size = Int64.ofNat (8 * final.slots.length) := by
  obtain ⟨_, _, sized, _⟩ := get?_place assigns.places
  rw [(later_of_assigns assigns layout).size, (later_of_assigns assigns layout).slots]
  exact (Layout.size_withFrame sized).1

end

/-- Offsets of a word in a frame of some size. -/
def InFrame (size offset : Int64) : Prop :=
  0 ≤ offset.toInt ∧ offset.toInt + 8 ≤ size.toInt ∧ 8 ∣ offset.toInt

/-- An instruction that reads and writes whole words of the frame only, and that leaves the stack pointer alone or moves
it by the size of the frame. -/
def Instr.KeepsToFrame (size : Int64) : Instr → Prop
  | .load width rd offset base => rd ≠ .sp ∧ (base = .sp → width = .word ∧ InFrame size offset)
  | .store width _ offset base => base = .sp → width = .word ∧ InFrame size offset
  | .immediate op rd rs value => rd = .sp → op = .addi ∧ rs = .sp ∧ (value = size ∨ value = -size)
  | .li rd _ | .la rd _ | .arith _ rd _ _ | .unary _ rd _ | .readHartId rd => rd ≠ .sp
  | .jump _ | .branch .. | .call _ | .jumpRegister _ => True

theorem fits_iff {n : Int64} : fits n = true ↔ -2048 ≤ n.toInt ∧ n.toInt ≤ 2047 := by
  have low : (-2048 : Int64).toInt = -2048 := by decide
  have high : (2048 : Int64).toInt = 2048 := by decide
  rw [fits, Bool.and_eq_true, decide_eq_true_iff, decide_eq_true_iff, Int64.le_iff_toInt_le, Int64.lt_iff_toInt_lt, low,
    high]
  omega

theorem keepsToFrame_of_usesSlots (uses : i.UsesSlots l)
    (inFrame : ∀ slot ∈ l.slots, InFrame l.size slot.offset) : i.KeepsToFrame l.size := by
  have word : ∀ {width : Width} {offset : Int64}, (width = .word ∧ ∃ slot ∈ l.slots, slot.offset = offset) →
      width = .word ∧ InFrame l.size offset := by
    rintro width _ ⟨isWord, slot, member, rfl⟩
    exact ⟨isWord, inFrame slot member⟩
  cases i with
  | load => exact ⟨uses.1, fun isPointer => word (uses.2 isPointer)⟩
  | store => exact fun isPointer => word (uses isPointer)
  | _ => exact uses

theorem inFrame_of_slots (size : l.size = Int64.ofNat (8 * l.slots.length))
    (offsets : ∀ slot ∈ l.slots, ∃ k < l.slots.length, slot.offset = Int64.ofNat (8 * k)) (few : l.slots.length < 2 ^ 60) :
    ∀ slot ∈ l.slots, InFrame l.size slot.offset := by
  intro slot member
  obtain ⟨k, below, offset⟩ := offsets slot member
  rw [size, offset, InFrame, Int64.toInt_ofNat_of_lt (by omega), Int64.toInt_ofNat_of_lt (by omega)]
  omega

theorem not_instr_of_globalData {g : Global} {part : List Line} (emitted : globalData g = .ok part) :
    .instr i ∉ part := by
  unfold globalData at emitted
  split at emitted
  case h_1 | h_2 | h_3 => split at emitted <;> cases emitted <;> simp
  case h_4 => cases emitted

theorem not_instr_of_globals {functions : List Function} {seen : List Name} {gs : List Global} {data : List Line}
    (emitted : globals functions seen gs = .ok data) : .instr i ∉ data := by
  induction gs generalizing seen data with
  | nil =>
    cases emitted
    exact List.not_mem_nil
  | cons g gs ih =>
    obtain ⟨first, here, emitted⟩ := bind_eq_ok.1 emitted
    obtain ⟨rest, there, done⟩ := bind_eq_ok.1 emitted
    cases done
    rw [List.mem_append, not_or]
    exact ⟨not_instr_of_globalData (global_cases (within_eq_ok.1 here)).2.2, ih there⟩

theorem function_of_mem {fs : List Function} {code : List Line} (emitted : functions p fs = .ok code) {line : Line}
    (member : line ∈ code) : ∃ g ∈ fs, g.external = false ∧ ∃ part, function p g = .ok part ∧ line ∈ part := by
  induction fs generalizing code with
  | nil =>
    cases emitted
    cases member
  | cons f fs ih =>
    rw [functions] at emitted
    split at emitted
    · obtain ⟨g, later, found⟩ := ih emitted member
      exact ⟨g, List.mem_cons_of_mem _ later, found⟩
    · rename_i hasBody
      obtain ⟨first, here, emitted⟩ := bind_eq_ok.1 emitted
      obtain ⟨rest, there, done⟩ := bind_eq_ok.1 emitted
      cases done
      rcases List.mem_append.1 member with inFirst | inRest
      · exact ⟨f, List.mem_cons_self, Bool.eq_false_iff.2 hasBody, first, within_eq_ok.1 here, inFirst⟩
      · obtain ⟨g, later, found⟩ := ih there inRest
        exact ⟨g, List.mem_cons_of_mem _ later, found⟩

theorem function_of_usesStack {s : Startup} {q : Program} (emitted : ofProgram s q = .ok lines)
    (member : .instr i ∈ lines) (uses : i.usesStack = true) :
    ∃ g ∈ q.functions, g.external = false ∧ ∃ code, function q g = .ok code ∧ .instr i ∈ code := by
  unfold ofProgram at emitted
  obtain ⟨_, _, emitted⟩ := bind_eq_ok.1 emitted
  split at emitted
  · cases emitted
  obtain ⟨data, isData, emitted⟩ := bind_eq_ok.1 emitted
  obtain ⟨code, isCode, done⟩ := bind_eq_ok.1 emitted
  cases done
  have noStart : .instr i ∉ startup s := by
    intro inside
    simp only [startup, List.mem_cons, Line.instr.injEq, reduceCtorEq, false_or, List.not_mem_nil, or_false] at inside
    rcases inside with rfl | rfl | rfl | rfl | rfl <;> cases uses
  have notLast : i ≠ .jump "halt" := by
    rintro rfl
    cases uses
  have inCode : .instr i ∈ code := by
    simpa [not_instr_of_globals isData, noStart, notLast] using member
  exact function_of_mem isCode inCode

/-- A program whose functions keep to their frames, as an assembler sees it: offsets are inside of the frame, and frames
are entered and left by numbers that fit into an instruction. -/
structure KeepsToFrames (q : Program) (lines : List Line) : Prop where
  functions : ∀ g ∈ q.functions, g.external = false → ∃ l before code behind,
    g.layout = some l ∧ function q g = .ok code ∧ lines = before ++ code ++ behind ∧
      (∀ i, .instr i ∈ code → i.KeepsToFrame l.size) ∧
      (-2048 ≤ l.size.toInt ∧ l.size.toInt ≤ 2047) ∧ -2048 ≤ (-l.size).toInt ∧ (-l.size).toInt ≤ 2047
  elsewhere : ∀ i, .instr i ∈ lines → i.usesStack = true →
    ∃ g ∈ q.functions, g.external = false ∧ ∃ code, function q g = .ok code ∧ .instr i ∈ code

/-- Assembly of a program to which storage was assigned keeps to the frames of its functions. Functions have fewer than
2 ^ 59 names, as all lists in the memory of a machine do. -/
theorem keepsToFrames_of_assign {p q : Program} {s : Startup} {lines : List Line} (assigned : p.assign = ⟨q, none⟩)
    (plain : ∀ f ∈ p.functions, ∀ stmt ∈ f.body, ∀ src dst, stmt.action ≠ .move src dst)
    (few : ∀ f ∈ p.functions, (usedNames f.params f.body).length < 2 ^ 59) (emitted : ofProgram s q = .ok lines) :
    KeepsToFrames q lines where
  functions := by
    intro g member hasBody
    obtain ⟨i, found⟩ := List.mem_iff_getElem?.1 member
    obtain ⟨before, all, behind, isAll, rfl⟩ := functions_of_ofProgram emitted
    obtain ⟨first, code, last, isCode, rfl⟩ := functions_part isAll found hasBody
    obtain ⟨final, _, layout, _⟩ := function_cases isCode
    have distinct : (q.functions.map (·.name)).Nodup := by
      obtain ⟨_, checked, _⟩ := bind_eq_ok.1 emitted
      exact (checkFunctions_cases checked).1
    have fit := (isSound_of_function isCode layout distinct).frame
    obtain ⟨f, isFunction, assigns⟩ := exists_of_mem_right (assignsTo_of_assign assigned) member
    refine ⟨final, before ++ first, code, last ++ behind, layout, isCode, by simp, ?_, fits_iff.1 fit.2, fits_iff.1 fit.1⟩
    rcases assigns with ⟨external, rfl⟩ | ⟨_, start, a, moves, earlier, new, later, strings, l, declared, assigns⟩
    · exact absurd (external.symm.trans hasBody) (by decide)
    have small : final.slots.length < 2 ^ 60 := by
      have bound := length_slots_le assigns layout
      have names := few f isFunction
      omega
    have inFrame := inFrame_of_slots (size_of_assigns assigns layout) (fun _ => offset_of_assigns assigns layout) small
    exact fun i inCode => keepsToFrame_of_usesSlots
      (usesSlots_of_assigns assigns layout declared (plain f isFunction) isCode i inCode) inFrame
  elsewhere := fun _ => function_of_usesStack emitted

def framing : Program :=
  let body : List Stmt :=
    [⟨[], .call "g" ["a", "b"] "x"⟩, ⟨[], .binary .add "y" "x" "a"⟩, ⟨[], .unary .copy "spare" "y"⟩, ⟨[], .ret "y"⟩]
  ⟨⟨0⟩, [⟨"total", .int, none⟩], [⟨"g", .int, [⟨.int, "u"⟩, ⟨.int, "v"⟩], true, [], none⟩,
    ⟨"main", .int, [⟨.int, "a"⟩, ⟨.int, "b"⟩], false, body, none⟩]⟩

theorem keepsToFrames_framing :
    ∃ q lines, framing.assign = ⟨q, none⟩ ∧ ofProgram .default q = .ok lines ∧
      (q.functions.filterMap (·.layout)).map (·.size) = [56] ∧ KeepsToFrames q lines := by
  have assigned : framing.assign = ⟨framing.assign.program, none⟩ := Program.assign_of_error (by decide +kernel)
  have plain : ∀ f ∈ framing.functions, ∀ s ∈ f.body, ∀ src dst, s.action ≠ .move src dst := by
    have named : ∀ f ∈ framing.functions, ∀ s ∈ f.body, isNamed s.action = true := by decide
    intro f member s inBody src dst isMove
    have never := named f member s inBody
    rw [isMove] at never
    cases never
  have few : ∀ f ∈ framing.functions, (usedNames f.params f.body).length < 2 ^ 59 := by decide +kernel
  have accepted : (ofProgram .default framing.assign.program).toOption.isSome = true := by decide +kernel
  obtain ⟨lines, emitted⟩ := isSome_toOption.1 accepted
  exact ⟨_, lines, assigned, emitted, by decide +kernel, keepsToFrames_of_assign assigned plain few emitted⟩

end MiniC.Assembly
