import MiniC.Proofs.Emission.Realizing
import MiniC.Proofs.Faults

namespace MiniC.Assembly

open Code Storage

variable {xs : List Name} {code : List Instr}

variable {p : Program} {host : Host p} {l : Layout} {exit : Name} {base : Word} {t : Store} {m : Machine}

theorem Host.exists_memory (host : Host p) {cells : Cells} (proper : Proper p cells) (memory : Memory) :
    ∃ memory' : Memory, host.cells memory' = cells ∧
      ∀ a, (∀ x g, p.global? x = some g → ¬ Memory.Within (host.symbols x) (widthOfGlobal g).bytes a) →
        memory' a = memory a := by
  have each : ∀ a, ∃ byte : BitVec 8,
      (∀ x g, p.global? x = some g → Memory.Within (host.symbols x) (widthOfGlobal g).bytes a →
        byte = memory.store (host.symbols x) (cells x) (widthOfGlobal g) a) ∧
      ((∀ x g, p.global? x = some g → ¬ Memory.Within (host.symbols x) (widthOfGlobal g).bytes a) →
        byte = memory a) := by
    intro a
    by_cases owned : ∃ x g, p.global? x = some g ∧ Memory.Within (host.symbols x) (widthOfGlobal g).bytes a
    · obtain ⟨x, g, found, inside⟩ := owned
      refine ⟨memory.store (host.symbols x) (cells x) (widthOfGlobal g) a, fun y h found' inside' => ?_,
        fun outside => absurd inside (outside x g found)⟩
      have same : x = y := by
        by_contra other
        exact host.apart found found' other a inside inside'
      subst same
      cases found.symm.trans found'
      rfl
    · refine ⟨memory a, fun x g found inside => ?_, fun _ => rfl⟩
      exact absurd ⟨x, g, found, inside⟩ owned
  choose memory' inside outside using each
  refine ⟨memory', ?_, outside⟩
  funext x
  have fitting := proper x
  unfold Host.cells
  cases found : p.global? x with
  | none =>
    rw [found] at fitting
    exact fitting.symm
  | some g =>
    rw [found] at fitting
    have written := Memory.load_congr fun a here => inside a x g found here
    exact (written.trans Memory.load_store_same).trans fitting.symm

theorem kept_registers : ∀ r ∈ .sp :: .fp :: Register.locals,
    r ≠ .zero ∧ r ≠ .a0 ∧ r ∉ Register.scratchPool := by
  decide

theorem scratch_registers : ∀ r ∈ Register.scratchPool, r ≠ .zero ∧ r ≠ .a0 := by
  decide

theorem Holds.call_forth (holds : Holds host l base t m) (clear : host.Clear l base) {t₁ : Store}
    (keeps : t.Keeps t₁) (proper : Proper p t₁.cells) (w : Word) :
    ∃ m', m'.get .a0 = w ∧ m.Keeps l m' ∧ Holds host l base t₁ m' := by
  obtain ⟨memory, cells, same⟩ := host.exists_memory proper m.memory
  let m' : Machine :=
    ⟨fun r => if r = .a0 then w else if r ∈ Register.scratchPool then t₁.regs r else m.get r, memory⟩
  have kept : ∀ r ∈ .sp :: .fp :: Register.locals, m'.get r = m.get r := by
    intro r member
    obtain ⟨nonzero, notResult, notScratch⟩ := kept_registers r member
    simp [Machine.get, m', nonzero, notResult, notScratch]
  have inFrame : ∀ slot ∈ l.slots, ∀ a, Memory.Within (base + slot.offset.toBitVec) Width.word.bytes a →
      memory a = m.memory a :=
    fun slot member a inside => same a fun x g found => clear slot member found a inside
  refine ⟨m', rfl, ⟨kept, by rwa [holds.pointer]⟩, ?_⟩
  constructor
  case pointer => rw [kept _ (by simp), holds.pointer]
  case registers =>
    intro r member
    rcases List.mem_append.1 member with inLocals | scratch
    · rw [kept r (by simp [inLocals]), holds.registers r member, keeps.2 r inLocals]
    · obtain ⟨nonzero, notResult⟩ := scratch_registers r scratch
      simp [Machine.get, m', nonzero, notResult, scratch]
  case frame =>
    intro slot member
    rw [keeps.1, ← holds.frame slot member]
    exact Memory.load_congr (inFrame slot member)
  case cells => exact cells

theorem Holds.call_back (holds : Holds host l base t m) {m' : Machine} (keeps : m.Keeps l m') :
    ∃ t₁, t.Keeps t₁ ∧ t₁.cells = host.cells m'.memory ∧ Holds host l base t₁ m' := by
  obtain ⟨kept, inFrame⟩ := keeps
  rw [holds.pointer] at inFrame
  refine ⟨⟨m'.get, t.frame, host.cells m'.memory⟩, ⟨rfl, ?_⟩, rfl, ?_⟩
  · intro r inLocals
    change m'.get r = t.regs r
    rw [kept r (by simp [inLocals]), holds.registers r (List.mem_append_left _ inLocals)]
  · constructor
    case pointer => rw [kept _ (by simp), holds.pointer]
    case registers => exact fun _ _ => rfl
    case frame =>
      intro slot member
      exact (Memory.load_congr (inFrame slot member)).trans (holds.frame slot member)
    case cells => rfl

def Resolves (p : Program) (l : Layout) (exit : Name) : Prop :=
  ∀ {x place}, (scopeOf p l exit).resolve x = .ok place → Usable p l place

theorem read_of_resolve {x : Name} {place : Location} (resolved : (scopeOf p l exit).resolve x = .ok place)
    (t : Store) : (onPlaces host l exit).read t x = t.get place := by
  change ((scopeOf p l exit).resolve x).toOption.bind t.get = _
  rw [resolved]
  rfl

theorem write_of_resolve {x : Name} {place : Location} (resolved : (scopeOf p l exit).resolve x = .ok place)
    (t : Store) (w : Word) : (onPlaces host l exit).write t x w = t.put w place := by
  change ((scopeOf p l exit).resolve x).toOption.bind (t.put w) = _
  rw [resolved]
  rfl

def Outside (rs : List Register) : Prop :=
  ∀ r ∈ rs, r ∉ nameRegisters ∧ r ≠ .sp ∧ r ≠ .zero ∧ r ≠ .temporary

theorem moveArgs_cons {scope : Scope} {index : Nat} {x : Name} {r : Register} {rs : List Register}
    (emitted : moveArgs scope index (x :: xs) (r :: rs) = .ok code) :
    ∃ place first rest, scope.resolve x = .ok place ∧ move place (.register r) = .ok first ∧
      moveArgs scope (index + 1) xs rs = .ok rest ∧ code = first ++ rest := by
  rw [moveArgs] at emitted
  obtain ⟨place, resolved, emitted⟩ := bind_eq_ok.1 emitted
  obtain ⟨first, moved, emitted⟩ := bind_eq_ok.1 emitted
  obtain ⟨rest, others, emitted⟩ := bind_eq_ok.1 emitted
  cases emitted
  exact ⟨place, first, rest, resolved, within_eq_ok.1 moved, others, rfl⟩

theorem isData_of_moveArgs {scope : Scope} {index : Nat} {rs : List Register}
    (emitted : moveArgs scope index xs rs = .ok code) : ∀ i ∈ code, i.isData = true := by
  induction xs generalizing index rs code with
  | nil =>
    cases rs <;> cases emitted <;> simp
  | cons x xs ih =>
    cases rs with
    | nil => cases emitted; simp
    | cons r rs =>
      obtain ⟨place, first, rest, _, moved, others, rfl⟩ := moveArgs_cons emitted
      intro i member
      rcases List.mem_append.1 member with inFirst | inRest
      · exact isData_of_move moved i inFirst
      · exact ih others i inRest

theorem moveArgs_holds {index : Nat} {rs : List Register}
    (emitted : moveArgs (scopeOf p l exit) index xs rs = .ok code) (usable : Resolves p l exit)
    (distinct : rs.Nodup) (outside : Outside rs) (enough : xs.length ≤ rs.length) (holds : Holds host l base t m) :
    Holds host l base t (afterAll host.symbols m code) ∧
      (∀ r, r ∉ rs → r ≠ .temporary → (afterAll host.symbols m code).get r = m.get r) ∧
      xs.mapM ((onPlaces host l exit).read t) = some ((rs.take xs.length).map (afterAll host.symbols m code).get) := by
  induction xs generalizing index rs code m with
  | nil =>
    have none : code = [] := by cases rs <;> cases emitted <;> rfl
    subst none
    exact ⟨holds, fun _ _ _ => rfl, by simp⟩
  | cons x xs ih =>
    cases rs with
    | nil => simp at enough
    | cons r rs =>
      obtain ⟨place, first, rest, resolved, moved, others, rfl⟩ := moveArgs_cons emitted
      obtain ⟨notIn, distinct⟩ := List.nodup_cons.1 distinct
      obtain ⟨unnamed, notPointer, nonzero, notTemporary⟩ := outside r (by simp)
      obtain ⟨w, value, yields⟩ := move_to moved (usable resolved) holds
      obtain ⟨holds', same, values⟩ := ih others distinct (fun r' member => outside r' (List.mem_cons_of_mem _ member))
        (by simpa using enough) (yields.holds_other unnamed notPointer)
      rw [afterAll_append]
      refine ⟨holds', ?_, ?_⟩
      · intro r' absent other
        rw [same r' (fun member => absent (List.mem_cons_of_mem _ member)) other]
        exact yields.get_other (fun equal => absent (by simp [equal])) other
      · have kept : (afterAll host.symbols (afterAll host.symbols m first) rest).get r = w := by
          rw [same r notIn notTemporary, yields.get_same nonzero]
        rw [List.mapM_cons, read_of_resolve resolved, value, values]
        simp [kept]

theorem call_cases {scope : Scope} {callee result : Name} (emitted : call scope callee xs result = .ok code) :
    ∃ f before behind, (scope.functions.find? fun f => f.name = callee) = some f ∧
      f.params.length = xs.length ∧ xs.length ≤ maxArgs ∧ moveArgs scope 0 xs Register.args = .ok before ∧
      code = before ++ .call callee :: behind ∧
      (result = [] ∧ behind = [] ∨ result ≠ [] ∧ ∃ dst, scope.resolve result = .ok dst ∧
        move (.register resultRegister) dst = .ok behind) := by
  unfold call at emitted
  split at emitted
  · cases emitted
  · rename_i f found
    split at emitted
    · cases emitted
    · rename_i count
      split at emitted
      · cases emitted
      · rename_i few
        obtain ⟨before, moved, emitted⟩ := bind_eq_ok.1 emitted
        have common : f.params.length = xs.length ∧ xs.length ≤ maxArgs := by omega
        split at emitted
        · rename_i dropped
          cases emitted
          exact ⟨f, before, [], found, common.1, common.2, moved, rfl, .inl ⟨dropped, rfl⟩⟩
        · rename_i named
          obtain ⟨dst, resolved, emitted⟩ := bind_eq_ok.1 emitted
          obtain ⟨behind, stored, emitted⟩ := bind_eq_ok.1 emitted
          cases emitted
          exact ⟨f, before, behind, found, common.1, common.2, moved, rfl, .inr ⟨named, dst, resolved, stored⟩⟩

theorem keep_result {result : Name} {behind : List Instr} {w : Word} (usable : Resolves p l exit)
    (aligned : Aligned l) (clear : host.Clear l base)
    (kept : result = [] ∧ behind = [] ∨ result ≠ [] ∧ ∃ dst, (scopeOf p l exit).resolve result = .ok dst ∧
      move (.register resultRegister) dst = .ok behind)
    (holds : Holds host l base t m) (gives : m.get .a0 = w) :
    ∃ t', (onPlaces host l exit).keep t result w = some t' ∧
      Holds host l base t' (afterAll host.symbols m behind) := by
  unfold Setting.keep
  rcases kept with ⟨dropped, rfl⟩ | ⟨named, dst, resolved, stored⟩
  · rw [if_pos dropped]
    exact ⟨t, rfl, holds⟩
  · obtain ⟨t', put, holds'⟩ := move_from stored (usable resolved) holds aligned clear fun same => by cases same
    refine ⟨t', ?_, holds'⟩
    rw [if_neg named, write_of_resolve resolved, ← gives]
    exact put

theorem acts_call_iff {callee : Name} {events : List Event} {flow : Flow} {m' : Machine} :
    (ofBody host l exit).acts 0 m (.instr (.call callee)) events flow m' ↔
      (m'.get .a0, host.cells m'.memory) ∈ host.callees callee (m.arguments p callee) (host.cells m.memory) ∧
        m.Keeps l m' ∧ events = [.call callee (m.arguments p callee) (m'.get .a0)] ∧ flow = .next := by
  constructor
  · rintro ⟨way, acts, rfl⟩
    cases acts with
    | data never => cases never
    | call does keeps => exact ⟨does, keeps, rfl, rfl⟩
  · rintro ⟨does, keeps, rfl, rfl⟩
    exact ⟨.next, .call does keeps, rfl⟩

theorem args_outside : Outside Register.args := by
  unfold Outside
  decide

theorem args_nodup : Register.args.Nodup := by
  decide

theorem realizes_call {s : Stmt} {callee result : Name}
    (is : s.action = .call callee xs result) (emitted : call (scopeOf p l exit) callee xs result = .ok code)
    (usable : Resolves p l exit) (aligned : Aligned l) :
    ∃ b : Block Line, b.code = labelLines s.label ++ code.map .instr ∧
      ∀ (host : Host p) (base : Word), host.Clear l base → Realizes host l exit base s b := by
  obtain ⟨f, before, behind, found, count, few, moved, rfl, kept⟩ := call_cases emitted
  have enough : xs.length ≤ Register.args.length := few
  have data : ∀ i ∈ behind, i.isData = true := by
    rcases kept with ⟨_, rfl⟩ | ⟨_, dst, _, stored⟩
    · simp
    · exact isData_of_move stored
  refine ⟨.around (labelLines s.label ++ before.map .instr) (.instr (.call callee)) (behind.map .instr),
    by simp [Block.code], fun host base clear => .of_core (isData_of_moveArgs moved) data fun i t m holds => ?_⟩
  obtain ⟨ready, _, values⟩ := moveArgs_holds moved usable args_nodup args_outside enough holds
  have arguments : (afterAll host.symbols m before).arguments p callee =
      (Register.args.take xs.length).map (afterAll host.symbols m before).get := by
    have found : p.function? callee = some f := found
    rw [Machine.arguments, found, ← count]
  rw [is]
  constructor
  · rintro ⟨events, flow, t'⟩ acts
    cases acts with
    | @call _ _ _ ws w t₁ _ read does keep =>
      cases values.symm.trans read
      obtain ⟨does, keeps⟩ := does
      obtain ⟨m', gives, keeps', holds₁⟩ := ready.call_forth clear keeps (host.proper does) w
      obtain ⟨t'', kept', holds'⟩ := keep_result usable aligned clear kept holds₁ gives
      cases kept'.symm.trans keep
      refine ⟨(_, .next, _), ⟨m', acts_call_iff.2 ⟨?_, keeps', rfl, rfl⟩, rfl⟩, ?_, .next holds'⟩
      · rw [gives, holds₁.cells, arguments, ready.cells]
        exact does
      · simp only [gives, arguments]
  · rintro ⟨events, flow, m''⟩ ⟨m', acts, after⟩
    obtain ⟨does, keeps, rfl, rfl⟩ := acts_call_iff.1 acts
    obtain rfl : m'' = afterAll host.symbols m' behind := after
    obtain ⟨t₁, keeps', cells, holds₁⟩ := ready.call_back keeps
    obtain ⟨t', kept', holds'⟩ := keep_result usable aligned clear kept holds₁ rfl
    refine ⟨(_, .next, t'), .call values ⟨?_, keeps'⟩ kept', ?_, .next holds'⟩
    · rw [← arguments, cells, ← holds.cells]
      rw [ready.cells, ← holds.cells] at does
      exact does
    · rw [arguments]

end MiniC.Assembly
