import MiniC.Proofs.Emission.Calls

namespace MiniC.Code

section

variable {S : Type} {m : Setting S} {i : Nat} {s s' s'' : S} {events : List Event} {flow : Flow} {a b w : Word}

theorem acts_nop_iff : Acts m i s .nop events flow s' ↔ events = [] ∧ flow = .next ∧ s' = s := by
  constructor
  · intro acts
    cases acts
    exact ⟨rfl, rfl, rfl⟩
  · rintro ⟨rfl, rfl, rfl⟩
    exact .nop

theorem acts_store_iff {dest : Name} {value : Value} (constant : m.constant s i value = {w})
    (written : m.write s dest w = some s') :
    Acts m i s (.store dest (some value)) events flow s'' ↔ events = [] ∧ flow = .next ∧ s'' = s' := by
  constructor
  · intro acts
    cases acts with
    | store chosen put =>
      rw [constant] at chosen
      cases chosen
      cases written.symm.trans put
      exact ⟨rfl, rfl, rfl⟩
  · rintro ⟨rfl, rfl, rfl⟩
    exact .store (by rw [constant]; rfl) written

theorem acts_binary_iff {op : BinOp} {dest left right : Name} (first : m.read s left = some a)
    (second : m.read s right = some b) (value : op.eval? a b = some w) (written : m.write s dest w = some s') :
    Acts m i s (.binary op dest left right) events flow s'' ↔ events = [] ∧ flow = .next ∧ s'' = s' := by
  constructor
  · intro acts
    cases acts with
    | binary first' second' value' put =>
      cases first.symm.trans first'
      cases second.symm.trans second'
      cases value.symm.trans value'
      cases written.symm.trans put
      exact ⟨rfl, rfl, rfl⟩
  · rintro ⟨rfl, rfl, rfl⟩
    exact .binary first second value written

theorem acts_unary_iff {op : UnOp} {dest arg : Name} (read : m.read s arg = some a) (value : op.eval? a = some w)
    (written : m.write s dest w = some s') :
    Acts m i s (.unary op dest arg) events flow s'' ↔ events = [] ∧ flow = .next ∧ s'' = s' := by
  constructor
  · intro acts
    cases acts with
    | unary read' value' put =>
      cases read.symm.trans read'
      cases value.symm.trans value'
      cases written.symm.trans put
      exact ⟨rfl, rfl, rfl⟩
  · rintro ⟨rfl, rfl, rfl⟩
    exact .unary read value written

theorem acts_move_iff {src dst : Storage.Location} (moved : m.transfer s src dst = some s') :
    Acts m i s (.move src dst) events flow s'' ↔ events = [] ∧ flow = .next ∧ s'' = s' := by
  constructor
  · intro acts
    cases acts with
    | move moved' =>
      cases moved.symm.trans moved'
      exact ⟨rfl, rfl, rfl⟩
  · rintro ⟨rfl, rfl, rfl⟩
    exact .move moved

theorem acts_give_iff {var : Name} (named : var ≠ []) (read : m.read s var = some a) :
    Acts m i s (.ret var) events flow s' ↔ events = [] ∧ flow = .leave (some a) ∧ s' = s := by
  constructor
  · intro acts
    cases acts with
    | leave => exact absurd rfl named
    | give _ read' =>
      cases read.symm.trans read'
      exact ⟨rfl, rfl, rfl⟩
  · rintro ⟨rfl, rfl, rfl⟩
    exact .give named read

end

end MiniC.Code

namespace MiniC.Assembly

open Code Storage

variable {r : Register} {dest target : Name}

/-- What the assembly of an action needs that its names alone do not give. -/
def Settled (p : Program) (l : Layout) (exit : Name) : Action → Prop
  | .move src dst => Usable p l src ∧ Usable p l dst
  | .store dest _ => ∃ r, l.get? dest = some (.register r)
  | .jump target | .branch _ _ target => target ≠ exit
  | _ => True

def Realized (p : Program) (l : Layout) (exit : Name) (s : Stmt) (lines : List Line) : Prop :=
  ∃ b : Block Line, b.code = lines ∧
    ∀ (host : Host p) (base : Word), host.Clear l base → Realizes host l exit base s b

variable {p : Program} {l : Layout} {exit : Name} {s : Stmt} {code : List Instr}

theorem resolve_of_register {scope : Scope} {x : Name} (found : scope.register x = .ok r) :
    scope.resolve x = .ok (.register r) := by
  unfold Scope.register at found
  obtain ⟨place, resolved, found⟩ := bind_eq_ok.1 found
  split at found
  · cases found
    exact resolved
  · cases found

theorem Yields.written {host : Host p} {base : Word} {t : Store} {m : Machine} {x : Name} {d : Register} {w : Word}
    (usable : Resolves p l exit) (resolved : (scopeOf p l exit).resolve x = .ok (.register d))
    (yields : Yields host l base t m code d w) :
    ∃ t', (onPlaces host l exit).write t x w = some t' ∧ Holds host l base t' (afterAll host.symbols m code) :=
  ⟨_, by rw [write_of_resolve resolved]; rfl, yields.holds (usable resolved)⟩

theorem read_register {host : Host p} {base : Word} {t : Store} {m : Machine} {x : Name}
    (usable : Resolves p l exit) (resolved : (scopeOf p l exit).resolve x = .ok (.register r))
    (holds : Holds host l base t m) : (onPlaces host l exit).read t x = some (m.get r) := by
  rw [read_of_resolve resolved, holds.registers r (usable resolved)]
  rfl

theorem realized_constant {value : Value} {n : Int64}
    (is : s.action = .store dest (some value)) (usable : Resolves p l exit)
    (resolved : (scopeOf p l exit).resolve dest = .ok (.register r))
    (means : ∀ (host : Host p) t i, (onPlaces host l exit).constant t i value = {n.toBitVec}) :
    Realized p l exit s (labelLines s.label ++
      [Instr.li .temporary n, .immediate .addi r .temporary 0].map .instr) := by
  refine ⟨_, rfl, fun host base _ => .of_data (by simp [Instr.isData]) fun i t m holds => ?_⟩
  have yields : Yields host l base t m [.li .temporary n, .immediate .addi r .temporary 0] r n.toBitVec := by
    refine .through holds rfl ?_
    simp [Instr.after, Immediate.eval, get_set_temporary]
  obtain ⟨t', written, holds'⟩ := yields.written usable resolved
  refine ⟨t', holds', ?_⟩
  rw [is]
  exact acts_store_iff (means host t i) written

theorem realized_store {value : Option Value} (is : s.action = .store dest value)
    (emitted : store (scopeOf p l exit) dest value = .ok code) (usable : Resolves p l exit)
    (settled : ∃ r, l.get? dest = some (.register r)) :
    Realized p l exit s (labelLines s.label ++ code.map .instr) := by
  obtain ⟨r, place⟩ := settled
  have resolved : (scopeOf p l exit).resolve dest = .ok (.register r) := Scope.resolve_of_place place
  unfold store at emitted
  rw [resolved] at emitted
  cases value with
  | none => cases emitted
  | some value =>
    cases value with
    | int n =>
      cases emitted
      exact realized_constant is usable resolved fun _ _ _ => rfl
    | char c =>
      cases emitted
      refine realized_constant is usable resolved fun host t i => ?_
      change {c.toBitVec.setWidth 64} = _
      congr 1
      apply BitVec.eq_of_toNat_eq
      simp
    | str text => cases emitted
    | symbol name =>
      change ((scopeOf p l exit).resolve name >>= fun src => move src (.register r)) = .ok code at emitted
      obtain ⟨src, source, moved⟩ := bind_eq_ok.1 emitted
      refine ⟨_, rfl, fun host base _ => .of_data (isData_of_move moved) fun i t m holds => ?_⟩
      obtain ⟨w, value, yields⟩ := move_to moved (usable source) holds
      obtain ⟨t', written, holds'⟩ := yields.written usable resolved
      refine ⟨t', holds', ?_⟩
      rw [is]
      refine acts_store_iff ?_ written
      change {w | (onPlaces host l exit).read t name = some w} = _
      rw [read_of_resolve source, value]
      ext w'
      simp [eq_comm]

theorem realized_move {src dst : Location} (is : s.action = .move src dst) (emitted : move src dst = .ok code)
    (aligned : Aligned l) (fromUsable : Usable p l src) (toUsable : Usable p l dst) :
    Realized p l exit s (labelLines s.label ++ code.map .instr) := by
  refine ⟨_, rfl, fun host base clear => .of_data (isData_of_move emitted) fun i t m holds => ?_⟩
  suffices moves : ∃ t', (onPlaces host l exit).transfer t src dst = some t' ∧
      Holds host l base t' (afterAll host.symbols m code) by
    obtain ⟨t', moved, holds'⟩ := moves
    refine ⟨t', holds', ?_⟩
    rw [is]
    exact acts_move_iff moved
  have transfers : (onPlaces host l exit).transfer t src dst = (t.get src).bind fun w => t.put w dst := rfl
  rw [transfers]
  cases src with
  | register r =>
    obtain ⟨t', put, holds'⟩ := move_from emitted toUsable holds aligned clear
      fun same => absurd fromUsable (same ▸ temporary_not_mem)
    refine ⟨t', ?_, holds'⟩
    rw [holds.registers r fromUsable] at put
    exact put
  | nowhere => exact fromUsable.elim
  | stack | memory =>
    cases dst with
    | register d =>
      obtain ⟨w, value, yields⟩ := move_to emitted fromUsable holds
      exact ⟨_, by rw [value]; rfl, yields.holds toUsable⟩
    | _ => cases emitted

theorem realized_binary {op : BinOp} {left right : Name} (is : s.action = .binary op dest left right)
    (emitted : action (scopeOf p l exit) (.binary op dest left right) = .ok code) (usable : Resolves p l exit) :
    Realized p l exit s (labelLines s.label ++ code.map .instr) := by
  unfold action at emitted
  obtain ⟨d, destFound, emitted⟩ := bind_eq_ok.1 emitted
  obtain ⟨a, leftFound, emitted⟩ := bind_eq_ok.1 emitted
  obtain ⟨b, rightFound, emitted⟩ := bind_eq_ok.1 emitted
  refine ⟨_, rfl, fun host base _ => .of_data (isData_of_binary emitted) fun i t m holds => ?_⟩
  obtain ⟨w, value, yields⟩ := binary_yields emitted holds
  obtain ⟨t', written, holds'⟩ := yields.written usable (resolve_of_register destFound)
  refine ⟨t', holds', ?_⟩
  rw [is]
  exact acts_binary_iff (read_register usable (resolve_of_register leftFound) holds)
    (read_register usable (resolve_of_register rightFound) holds) value written

theorem realized_unary {op : UnOp} {arg : Name} (is : s.action = .unary op dest arg)
    (emitted : action (scopeOf p l exit) (.unary op dest arg) = .ok code) (usable : Resolves p l exit) :
    Realized p l exit s (labelLines s.label ++ code.map .instr) := by
  unfold action at emitted
  obtain ⟨d, destFound, emitted⟩ := bind_eq_ok.1 emitted
  obtain ⟨a, argFound, emitted⟩ := bind_eq_ok.1 emitted
  refine ⟨_, rfl, fun host base _ => .of_data (isData_of_unary emitted) fun i t m holds => ?_⟩
  obtain ⟨w, value, yields⟩ := unary_yields emitted holds
  obtain ⟨t', written, holds'⟩ := yields.written usable (resolve_of_register destFound)
  refine ⟨t', holds', ?_⟩
  rw [is]
  exact acts_unary_iff (read_register usable (resolve_of_register argFound) holds) value written

theorem Realizes.of_last {host : Host p} {base : Word} {before : List Instr} {core : Instr}
    (data : ∀ i ∈ before, i.isData = true)
    (step : ∀ i t m, Holds host l base t m → ∃ events flow t' flow' m',
      (∀ out : List Event × Flow × Store, Code.Acts (onPlaces host l exit) i t s.action out.1 out.2.1 out.2.2 ↔
        out = (events, flow, t')) ∧
      (∀ out : List Event × Flow × Machine, (ofBody host l exit).acts 0 (afterAll host.symbols m before)
        (.instr core) out.1 out.2.1 out.2.2 ↔ out = (events, flow', m')) ∧
      Language.Lands (Holds host l base) (LeavesWith host l base) flow t' flow' m') :
    Realizes host l exit base s (.around (labelLines s.label ++ before.map .instr) (.instr core) []) := by
  have none : ∀ i ∈ ([] : List Instr), i.isData = true := by simp
  change Realizes host l exit base s (.around _ _ (([] : List Instr).map .instr))
  refine .of_core data none fun i t m holds => ?_
  obtain ⟨events, flow, t', flow', m', source, machine, lands⟩ := step i t m holds
  constructor
  · intro out acts
    obtain rfl := (source out).1 acts
    exact ⟨(events, flow', m'), ⟨m', (machine _).2 rfl, by split <;> rfl⟩, rfl, lands⟩
  · rintro ⟨events', way, m''⟩ ⟨m₁, acts, after⟩
    cases (machine (events', way, m₁)).1 acts
    have same : m'' = m' := after.trans (by split <;> rfl)
    subst same
    exact ⟨(events, flow, t'), (source _).2 rfl, rfl, lands⟩

section

variable {host : Host p} {m : Machine}

theorem jump_cases {events : List Event} {flow : Flow} {m' : Machine}
    (acts : Acts host l exit m (.instr (.jump target)) events flow m') :
    events = (if target = exit then [] else [.jump target]) ∧ flow = .goto target ∧ m' = m := by
  cases acts with
  | data never => cases never
  | jump => exact ⟨rfl, rfl, rfl⟩

theorem branch_cases {condition : Condition} {events : List Event} {flow : Flow}
    {m' : Machine} (acts : Acts host l exit m (.instr (.branch condition r target)) events flow m') :
    (events, flow, m') = if condition.holds (m.get r) then ([.jump target], .goto target, m) else ([], .next, m) := by
  cases acts with
  | data never => cases never
  | taken holds => rw [if_pos holds]
  | passed fails => rw [if_neg (by simp [fails])]

theorem acts_jump_iff (other : target ≠ exit) (out : List Event × Flow × Machine) :
    (ofBody host l exit).acts 0 m (.instr (.jump target)) out.1 out.2.1 out.2.2 ↔
      out = ([.jump target], .goto target, m) := by
  have stays : Flow.goto target ≠ .goto exit := fun same => other (Flow.goto.inj same)
  obtain ⟨events, flow, m'⟩ := out
  constructor
  · rintro ⟨way, acts, landed : flow = _⟩
    obtain ⟨seen, rfl, rfl⟩ := jump_cases acts
    rw [if_neg stays] at landed
    rw [if_neg other] at seen
    rw [landed, show events = _ from seen]
  · intro same
    cases same
    refine ⟨.goto target, ?_, (if_neg stays).symm⟩
    have acts := @Acts.jump p host l exit m target
    rwa [if_neg other] at acts

theorem acts_exit_iff (out : List Event × Flow × Machine) :
    (ofBody host l exit).acts 0 m (.instr (.jump exit)) out.1 out.2.1 out.2.2 ↔ out = ([], .leave none, m) := by
  obtain ⟨events, flow, m'⟩ := out
  constructor
  · rintro ⟨way, acts, landed : flow = _⟩
    obtain ⟨seen, rfl, rfl⟩ := jump_cases acts
    rw [if_pos rfl] at landed seen
    rw [landed, show events = _ from seen]
  · intro same
    cases same
    refine ⟨.goto exit, ?_, (if_pos rfl).symm⟩
    have acts := @Acts.jump p host l exit m exit
    rwa [if_pos rfl] at acts

theorem acts_branch_iff {condition : Condition} {r : Register} {target : Name} (other : target ≠ exit)
    (out : List Event × Flow × Machine) :
    (ofBody host l exit).acts 0 m (.instr (.branch condition r target)) out.1 out.2.1 out.2.2 ↔
      out = if condition.holds (m.get r) then ([.jump target], .goto target, m) else ([], .next, m) := by
  have stays : Flow.goto target ≠ .goto exit := fun same => other (Flow.goto.inj same)
  obtain ⟨events, flow, m'⟩ := out
  constructor
  · rintro ⟨way, acts, landed : flow = _⟩
    have goes := branch_cases acts
    have same : way = flow := by
      rw [landed, if_neg]
      rintro rfl
      split at goes
      · exact stays (Prod.mk.inj (Prod.mk.inj goes).2).1.symm
      · cases goes
    rw [same] at goes
    exact goes
  · intro same
    split at same
    · rename_i holds
      cases same
      exact ⟨.goto target, .taken holds, (if_neg stays).symm⟩
    · rename_i fails
      cases same
      exact ⟨.next, .passed (by simpa using fails), rfl⟩

end

theorem realized_jump (is : s.action = .jump target) (other : target ≠ exit) :
    Realized p l exit s (labelLines s.label ++ [Instr.jump target].map .instr) := by
  refine ⟨.around (labelLines s.label ++ [].map .instr) (.instr (.jump target)) [], by simp [Block.code],
    fun host base _ => .of_last (by simp) fun i t m holds => ?_⟩
  refine ⟨_, .goto target, t, _, _, ?_, acts_jump_iff other, .goto holds⟩
  rintro ⟨events, flow, t'⟩
  rw [is]
  constructor
  · intro acts
    cases acts
    rfl
  · intro same
    cases same
    exact .jump

theorem realized_branch {check : Check} {var : Name} (is : s.action = .branch check var target)
    (emitted : action (scopeOf p l exit) (.branch check var target) = .ok code) (usable : Resolves p l exit)
    (other : target ≠ exit) : Realized p l exit s (labelLines s.label ++ code.map .instr) := by
  unfold action at emitted
  obtain ⟨r, found, emitted⟩ := bind_eq_ok.1 emitted
  obtain ⟨condition, rfl, same⟩ : ∃ condition, code = [.branch condition r target] ∧
      ∀ a, check.holds? a = some (condition.holds a) := by
    cases check with
    | zero => cases emitted; exact ⟨.zero, rfl, fun _ => rfl⟩
    | nonzero => cases emitted; exact ⟨.nonzero, rfl, fun _ => rfl⟩
    | unknown => cases emitted
  refine ⟨.around (labelLines s.label ++ [].map .instr) (.instr (.branch condition r target)) [], by simp [Block.code],
    fun host base _ => .of_last (by simp) fun i t m holds => ?_⟩
  have read := read_register usable (resolve_of_register found) holds
  have machine := @acts_branch_iff p l exit host m condition r target other
  cases decided : condition.holds (m.get r) with
  | true =>
    rw [decided] at machine
    refine ⟨_, .goto target, t, _, _, ?_, machine, .goto holds⟩
    rintro ⟨events, flow, t'⟩
    rw [is]
    constructor
    · intro acts
      cases acts with
      | taken => rfl
      | passed read' fails =>
        cases read.symm.trans read'
        rw [same, decided] at fails
        cases fails
    · intro equal
      cases equal
      exact .taken read (by rw [same, decided])
  | false =>
    rw [decided] at machine
    refine ⟨_, .next, t, _, _, ?_, machine, .next holds⟩
    rintro ⟨events, flow, t'⟩
    rw [is]
    constructor
    · intro acts
      cases acts with
      | passed => rfl
      | taken read' succeeds =>
        cases read.symm.trans read'
        rw [same, decided] at succeeds
        cases succeeds
    · intro equal
      cases equal
      exact .passed read (by rw [same, decided])

theorem realized_return {var : Name} (is : s.action = .ret var)
    (emitted : action (scopeOf p l exit) (.ret var) = .ok code) (usable : Resolves p l exit) :
    Realized p l exit s (labelLines s.label ++ code.map .instr) := by
  rw [action] at emitted
  split at emitted
  · rename_i empty
    subst empty
    cases emitted
    refine ⟨.around (labelLines s.label ++ [].map .instr) (.instr (.jump exit)) [], by simp [Block.code, scopeOf],
      fun host base _ => .of_last (by simp) fun i t m holds => ?_⟩
    have none_given : LeavesWith host l base none t none m := ⟨rfl, by simp, holds⟩
    refine ⟨_, .leave none, t, _, _, ?_, acts_exit_iff, .leave none_given⟩
    rintro ⟨events, flow, t'⟩
    rw [is]
    constructor
    · intro acts
      cases acts with
      | leave => rfl
      | give named => exact absurd rfl named
    · intro equal
      cases equal
      exact .leave
  · rename_i named
    obtain ⟨src, resolved, emitted⟩ := bind_eq_ok.1 emitted
    obtain ⟨before, moved, emitted⟩ := bind_eq_ok.1 emitted
    cases emitted
    refine ⟨.around (labelLines s.label ++ before.map .instr) (.instr (.jump exit)) [], by simp [Block.code, scopeOf],
      fun host base _ => .of_last (isData_of_move moved) fun i t m holds => ?_⟩
    obtain ⟨w, value, yields⟩ := move_to moved (usable resolved) holds
    have gives : (afterAll host.symbols m before).get resultRegister = w := yields.get_same (by decide)
    have ready := yields.holds_other (by decide) (by decide)
    refine ⟨_, .leave (some w), t, _, _, ?_, acts_exit_iff, .leave ⟨rfl, fun w' same => ?_, ready⟩⟩
    · rintro ⟨events, flow, t'⟩
      have read : (onPlaces host l exit).read t var = some w := by rw [read_of_resolve resolved, value]
      rw [is, acts_give_iff named read, Prod.mk.injEq, Prod.mk.injEq]
    · cases same
      exact gives

theorem realized_stmt {lines : List Line} (emitted : stmt (scopeOf p l exit) s = .ok lines)
    (usable : Resolves p l exit) (aligned : Aligned l) (settled : Settled p l exit s.action) :
    Realized p l exit s lines := by
  unfold stmt at emitted
  obtain ⟨code, inside, done⟩ := bind_eq_ok.1 emitted
  cases done
  replace emitted := within_eq_ok.1 inside
  change Realized p l exit s (labelLines s.label ++ code.map .instr)
  cases is : s.action with
  | nop =>
    rw [is] at emitted
    cases emitted
    refine ⟨.quiet (labelLines s.label ++ [].map .instr), rfl, fun host base _ => .of_data (by simp) ?_⟩
    refine fun i t m holds => ⟨t, holds, ?_⟩
    intro events flow t''
    rw [is]
    exact acts_nop_iff
  | store dest value =>
    rw [is] at emitted settled
    exact realized_store is emitted usable settled
  | binary op dest left right =>
    rw [is] at emitted
    exact realized_binary is emitted usable
  | unary op dest arg =>
    rw [is] at emitted
    exact realized_unary is emitted usable
  | jump target =>
    rw [is] at emitted settled
    cases emitted
    exact realized_jump is settled
  | branch check var target =>
    rw [is] at emitted settled
    exact realized_branch is emitted usable settled
  | call callee args result =>
    rw [is] at emitted
    exact realizes_call is emitted usable aligned
  | ret var =>
    rw [is] at emitted
    exact realized_return is emitted usable
  | move src dst =>
    rw [is] at emitted settled
    exact realized_move is emitted aligned settled.1 settled.2

end MiniC.Assembly
