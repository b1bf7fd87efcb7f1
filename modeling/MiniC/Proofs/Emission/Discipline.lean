import MiniC.Proofs.Emission.Symbols

namespace MiniC.Assembly

open Code Storage

variable {queue : Queue Usage Usage.less} {x : Name}

def Free (l : Layout) (r : Register) : Prop :=
  r ≠ .sp ∧ (r ∈ Register.calleeSaved → ∃ slot ∈ l.slots, slot.saves = some r)

def Writable (p : Program) (l : Layout) : Location → Prop
  | .nowhere => False
  | .register r => Free l r
  | .stack offset _ => ∃ slot ∈ l.slots, slot.saves = none ∧ slot.offset = offset
  | .memory label size => ∃ h ∈ p.globals, h.name = label ∧ h.ty.size = size

def Instr.IsTame (l : Layout) (targets : List Name) : Instr → Prop
  | .li rd _ | .la rd _ | .arith _ rd _ _ | .unary _ rd _ | .immediate _ rd _ _ | .load _ rd _ _ => Free l rd
  | .store width _ offset base => width = .word ∧ base = .sp ∧ ∃ slot ∈ l.slots, slot.saves = none ∧ slot.offset = offset
  | .jump target | .branch _ _ target => target ∈ targets
  | .call _ => True
  | .jumpRegister _ | .readHartId _ => False

/-- Lines of such instructions. Globals are written through the temporary, right behind the instruction that puts the
address there. -/
inductive IsTame (p : Program) (l : Layout) (targets : List Name) : List Line → Prop
  | nil : IsTame p l targets []
  | label {name : Name} {code : List Line} (rest : IsTame p l targets code) : IsTame p l targets (.label name :: code)
  | instr {i : Instr} {code : List Line} (tame : i.IsTame l targets) (rest : IsTame p l targets code) :
    IsTame p l targets (.instr i :: code)
  | through {h : Global} {r : Register} {code : List Line} (member : h ∈ p.globals) (rest : IsTame p l targets code) :
    IsTame p l targets (.instr (.la .temporary h.name) :: .instr (.store (widthOfGlobal h) r 0 .temporary) :: code)

variable {p : Program} {l : Layout} {exit : Name} {targets : List Name}

theorem IsTame.append {first second : List Line} (left : IsTame p l targets first) (right : IsTame p l targets second) :
    IsTame p l targets (first ++ second) := by
  induction left with
  | nil => exact right
  | label _ ih => exact .label ih
  | instr tame _ ih => exact .instr tame ih
  | through member _ ih => exact .through member ih

theorem IsTame.from_label {lines before behind : List Line} {name : Name} (tame : IsTame p l targets lines)
    (split : lines = before ++ .label name :: behind) : IsTame p l targets (.label name :: behind) := by
  induction tame generalizing before with
  | nil => simp at split
  | @label _ code rest ih =>
    cases before with
    | nil =>
      obtain ⟨-, rfl⟩ := List.cons.inj split
      exact .label rest
    | cons => exact ih (List.cons.inj split).2
  | instr _ _ ih =>
    cases before with
    | nil => cases (List.cons.inj split).1
    | cons => exact ih (List.cons.inj split).2
  | through _ _ ih =>
    rcases before with _ | ⟨_, _ | ⟨_, before⟩⟩
    · cases (List.cons.inj split).1
    · cases (List.cons.inj (List.cons.inj split).2).1
    · exact ih (List.cons.inj (List.cons.inj split).2).2

theorem IsTame.notMem_jumpRegister {lines : List Line} (tame : IsTame p l targets lines) (r : Register) :
    .instr (.jumpRegister r) ∉ lines := by
  induction tame with
  | nil => exact List.not_mem_nil
  | label _ ih | through _ _ ih => simpa using ih
  | @instr i code here _ ih =>
    have goesOn : i ≠ .jumpRegister r := by
      rintro rfl
      exact here
    simpa [Ne.symm goesOn] using ih

theorem free_of_scratch {r : Register} (scratch : r ∈ Register.scratchPool) : Free l r := by
  have known : ∀ r ∈ Register.scratchPool, r ≠ .sp ∧ r ∉ Register.calleeSaved := by decide
  exact (known r scratch).imp_right fun notSaved saved => absurd saved notSaved

theorem free_of_arg {r : Register} (isArg : r ∈ Register.args) : Free l r := by
  have known : ∀ r ∈ Register.args, r ≠ .sp ∧ r ∉ Register.calleeSaved := by decide
  exact (known r isArg).imp_right fun notSaved saved => absurd saved notSaved

theorem free_temporary : Free l .temporary :=
  ⟨by decide, fun saved => absurd saved (by decide)⟩

section

variable {start : Namer} {a moves : Nat} {globals new later : List Global} {f g : Function} {strings : Nat → Name}
  {l final : Layout} {q : Program} (assigns : Assigns queue start a moves globals new f g strings l)
  (layout : g.layout = some final) (declared : q.globals = globals ++ new ++ later)

include assigns layout declared

theorem writable_of_withFrame {place : Location} (found : l.withFrame.get? x = some place) :
    Writable q final place := by
  have slots := (later_of_assigns assigns layout).slots
  rcases get?_withFrame_cases assigns.places found with
    ⟨r, isLocal, rfl, saved⟩ | ⟨slot, member, isVar, size, rfl⟩ | ⟨h, isGlobal, rfl⟩
  · have known : ∀ r ∈ Register.locals, r ≠ .sp := by decide
    exact ⟨known r isLocal, fun _ => slots ▸ saved⟩
  · exact ⟨slot, slots ▸ member, isVar, rfl⟩
  · refine ⟨h, ?_, by simpa using List.find?_some isGlobal, rfl⟩
    rw [declared]
    exact List.mem_append_left _ (List.mem_of_find?_eq_some isGlobal)

theorem writable_of_assigns {place : Location} (found : final.get? x = some place) : Writable q final place := by
  rcases (later_of_assigns assigns layout).places x with same | ⟨_, r, scratch, register⟩
  · exact writable_of_withFrame assigns layout declared (same.symm.trans found)
  · cases register.symm.trans found
    exact free_of_scratch scratch

theorem writable_of_resolve {place : Location} (found : (scopeOf q final exit).resolve x = .ok place) :
    Writable q final place := by
  unfold Scope.resolve at found
  split at found
  · rename_i placed
    cases found
    exact writable_of_assigns assigns layout declared placed
  · split at found
    · rename_i h isGlobal
      cases found
      exact ⟨h, List.mem_of_find?_eq_some isGlobal, rfl, rfl⟩
    · cases found

theorem writable_of_move (lowered : AllLowered f.body) {s : Stmt} (member : s ∈ g.body) {src dst : Location}
    (isMove : s.action = .move src dst) : Writable q final dst := by
  obtain ⟨i, original, inBody, _, _, becomes⟩ := becomes_of_assigns assigns layout lowered member
  have isLowered := symbolic_cases (strings i) (lowered original (List.mem_of_getElem? inBody)).2
  generalize symbolic (strings i) original.action = action at becomes isLowered
  generalize s.action = action' at becomes isMove
  cases becomes with
  | load scratch =>
    cases isMove
    exact free_of_scratch scratch
  | unload _ _ found =>
    cases isMove
    exact writable_of_withFrame assigns layout declared found
  | call is => cases is.symm.trans isMove
  | other =>
    cases action with
    | move =>
      rcases isLowered with never | ⟨_, _, never⟩
      · exact never.elim
      · cases never
    | _ => cases isMove

end

section

variable {code : List Instr}

theorem tame_move {src dst : Location} (emitted : move src dst = .ok code) (writable : Writable p l dst) :
    IsTame p l targets (code.map .instr) := by
  unfold move at emitted
  split at emitted
  case h_1 =>
    cases emitted
    exact .instr writable .nil
  case h_2 =>
    split at emitted <;> cases emitted
    exact .instr ⟨rfl, rfl, writable⟩ .nil
  case h_3 =>
    cases emitted
    obtain ⟨h, member, rfl, rfl⟩ := writable
    exact .through member .nil
  case h_4 =>
    split at emitted <;> cases emitted
    exact .instr writable .nil
  case h_5 =>
    cases emitted
    exact .instr free_temporary (.instr writable .nil)
  case h_6 => cases emitted

theorem tame_binary {op : BinOp} {d a b : Register} (emitted : binary op d a b = .ok code) (free : Free l d) :
    IsTame p l targets (code.map .instr) := by
  cases op with
  | eq | ne | logAnd | logOr =>
    cases emitted
    exact .instr free_temporary (.instr free .nil)
  | unknown => cases emitted
  | _ =>
    cases emitted
    exact .instr free .nil

theorem tame_unary {op : UnOp} {d a : Register} (emitted : unary op d a = .ok code) (free : Free l d) :
    IsTame p l targets (code.map .instr) := by
  cases op with
  | logNeg =>
    cases emitted
    exact .instr free_temporary (.instr free .nil)
  | unknown => cases emitted
  | _ =>
    cases emitted
    exact .instr free .nil

variable (writes : ∀ {x place}, (scopeOf p l exit).resolve x = .ok place → Writable p l place)

include writes

theorem free_of_register {r : Register} (found : (scopeOf p l exit).register x = .ok r) : Free l r :=
  writes (resolve_of_register found)

theorem tame_action {a : Action} (emitted : action (scopeOf p l exit) a = .ok code) (exits : exit ∈ targets)
    (arrives : ∀ t, a.target? = some t → t ∈ targets) (moves : ∀ src dst, a = .move src dst → Writable p l dst) :
    IsTame p l targets (code.map .instr) := by
  refine of_pieces (P := fun code => IsTame p l targets (code.map .instr)) emitted .nil ?_ fun piece => ?_
  · intro first second left right
    rw [List.map_append]
    exact left.append right
  cases piece with
  | move moved _ gets =>
    refine tame_move moved ?_
    cases gets with
    | place found => exact writes found
    | arg isArg => exact free_of_arg isArg
    | own isMove => exact moves _ _ isMove
  | constant => exact .instr free_temporary .nil
  | binary found computed => exact tame_binary computed (free_of_register writes found)
  | unary found computed => exact tame_unary computed (free_of_register writes found)
  | jump jumps =>
    rcases jumps with rfl | ⟨_, _, rfl⟩
    · exact .instr (arrives _ rfl) .nil
    · exact .instr exits .nil
  | branch branches =>
    subst branches
    exact .instr (arrives _ rfl) .nil
  | call => exact .instr trivial .nil

theorem tame_stmts {body : List Stmt} {lines : List Line} (emitted : stmts (scopeOf p l exit) body = .ok lines)
    (exits : exit ∈ targets) (arrives : ∀ s ∈ body, ∀ t, s.action.target? = some t → t ∈ targets)
    (moves : ∀ s ∈ body, ∀ src dst, s.action = .move src dst → Writable p l dst) : IsTame p l targets lines := by
  induction body generalizing lines with
  | nil =>
    cases emitted
    exact .nil
  | cons s body ih =>
    obtain ⟨first, here, emitted⟩ := bind_eq_ok.1 emitted
    obtain ⟨rest, there, done⟩ := bind_eq_ok.1 emitted
    obtain ⟨code, inside, made⟩ := bind_eq_ok.1 here
    cases done
    cases made
    have tame : IsTame p l targets (code.map .instr) :=
      tame_action writes (within_eq_ok.1 inside) exits (arrives s List.mem_cons_self) (moves s List.mem_cons_self)
    have others := ih there (fun s' member => arrives s' (List.mem_cons_of_mem s member))
      fun s' member => moves s' (List.mem_cons_of_mem s member)
    refine IsTame.append ?_ others
    split
    · exact tame
    · exact .label tame

end

end MiniC.Assembly
