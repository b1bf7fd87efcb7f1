import MiniC.Assembly.OfProgram
import MiniC.Proofs.Emission.Calls

namespace MiniC

/-- Parameters are bound to words in order. -/
def Code.Setting.bindAll {S : Type} (m : Code.Setting S) : List Code.Param → List Word → S → Option S
  | param :: params, w :: ws, s => (m.write s param.name w).bind (m.bindAll params ws)
  | _, _, s => some s

end MiniC

namespace MiniC.Assembly

open Code Storage

variable {p : Program} {host : Host p} {l : Layout} {exit : Name} {base : Word} {t : Store} {m : Machine}

theorem get_store (symbols : Name → Word) (m : Machine) (width : Width) (s b r : Register) (offset : Int64) :
    ((Instr.store width s offset b).after symbols m).get r = m.get r :=
  rfl

theorem Holds.store_slot (holds : Holds host l base t m) (aligned : Aligned l) (clear : host.Clear l base)
    {slot : Slot} (member : slot ∈ l.slots) (r : Register) :
    Holds host l base { t with frame := Function.update t.frame slot.offset (m.get r) }
      ((Instr.store .word r slot.offset .sp).after host.symbols m) := by
  rw [Instr.after, holds.pointer]
  exact holds.store_frame aligned clear member (m.get r)

theorem saves_hold (aligned : Aligned l) (clear : host.Clear l base) {slots : List Slot} (inside : slots ⊆ l.slots)
    (holds : Holds host l base t m) :
    (∃ frame, Holds host l base { t with frame } (afterAll host.symbols m (slots.filterMap saveSlot))) ∧
      ∀ r, (afterAll host.symbols m (slots.filterMap saveSlot)).get r = m.get r := by
  induction slots generalizing t m with
  | nil => exact ⟨⟨t.frame, holds⟩, fun _ => rfl⟩
  | cons slot slots ih =>
    obtain ⟨here, there⟩ := List.cons_subset.1 inside
    cases saves : slot.saves with
    | none =>
      rw [List.filterMap_cons_none (by rw [saveSlot, saves]; rfl)]
      exact ih there holds
    | some r =>
      rw [List.filterMap_cons_some (by rw [saveSlot, saves]; rfl)]
      obtain ⟨⟨frame, holds'⟩, same⟩ := ih there (holds.store_slot aligned clear here r)
      exact ⟨⟨frame, holds'⟩, fun r' => (same r').trans (get_store ..)⟩

theorem spillParams_holds (exit : Name) (aligned : Aligned l) (clear : host.Clear l base) {params : List Param}
    {rs : List Register} (enough : params.length ≤ rs.length)
    (inFrame : ∀ param ∈ params, ∃ slot ∈ l.slots, ∃ size, l.get? param.name = some (.stack slot.offset size))
    (holds : Holds host l base t m) :
    ∃ t', (onPlaces host l exit).bindAll params ((rs.take params.length).map m.get) t = some t' ∧
      Holds host l base t' (afterAll host.symbols m (spillParams l params rs)) := by
  induction params generalizing rs t m with
  | nil => exact ⟨t, by simp [Setting.bindAll], holds⟩
  | cons param params ih =>
    cases rs with
    | nil => simp at enough
    | cons r rs =>
      obtain ⟨slot, member, size, place⟩ := inFrame param (by simp)
      have resolved : (scopeOf p l exit).resolve param.name = .ok (.stack slot.offset size) :=
        Scope.resolve_of_place place
      have stored := holds.store_slot aligned clear member r
      obtain ⟨t', bound, holds'⟩ := ih (by simpa using enough)
        (fun other inParams => inFrame other (List.mem_cons_of_mem _ inParams)) stored
      refine ⟨t', ?_, ?_⟩
      · rw [List.length_cons, List.take_succ_cons, List.map_cons, Setting.bindAll, write_of_resolve resolved]
        exact bound
      · rw [spillParams, place]
        exact holds'

/-- The instructions by which a function is entered. -/
def entering (l : Layout) (params : List Param) : List Instr :=
  .immediate .addi .sp .sp (-l.size) :: l.slots.filterMap saveSlot ++ spillParams l params Register.args

theorem isData_of_entering (l : Layout) (params : List Param) : ∀ i ∈ entering l params, i.isData = true := by
  have spills : ∀ (params : List Param) (rs : List Register), ∀ i ∈ spillParams l params rs, i.isData = true := by
    intro params rs
    fun_induction spillParams l params rs with
    | case1 param params r rs offset size _ ih =>
      intro i member
      rcases List.mem_cons.1 member with rfl | later
      · rfl
      · exact ih i later
    | case2 param params r rs _ ih => exact ih
    | case3 => simp
  intro i member
  rcases List.mem_append.1 member with before | spill
  · rcases List.mem_cons.1 before with rfl | save
    · rfl
    · obtain ⟨slot, _, saved⟩ := List.mem_filterMap.1 save
      obtain ⟨r, _, rfl⟩ := Option.map_eq_some_iff.1 saved
      rfl
  · exact spills params Register.args i spill

theorem args_ne_sp : ∀ r ∈ Register.args, r ≠ .sp := by
  decide

theorem entering_holds (exit : Name) (aligned : Aligned l) {params : List Param} (few : params.length ≤ maxArgs)
    (inFrame : ∀ param ∈ params, ∃ slot ∈ l.slots, ∃ size, l.get? param.name = some (.stack slot.offset size))
    (clear : host.Clear l (m.get .sp - l.size.toBitVec)) :
    ∃ frame t', (onPlaces host l exit).bindAll params ((Register.args.take params.length).map m.get)
        ⟨m.get, frame, host.cells m.memory⟩ = some t' ∧
      Holds host l (m.get .sp - l.size.toBitVec) t' (afterAll host.symbols m (entering l params)) := by
  let base : Word := m.get .sp - l.size.toBitVec
  let m₁ : Machine := (Instr.immediate .addi .sp .sp (-l.size)).after host.symbols m
  have moved : m₁ = m.set .sp base := by
    change m.set .sp (m.get .sp + (-l.size).toBitVec) = _
    rw [Int64.toBitVec_neg, ← BitVec.sub_eq_add_neg]
  have start : Holds host l base
      ⟨m.get, fun offset => m.memory.load (base + offset.toBitVec) .word, host.cells m.memory⟩ m₁ := by
    rw [moved]
    constructor
    case pointer => exact Machine.get_set_same _ _ (by decide)
    case registers => exact fun r member => Machine.get_set_other _ _ (ne_of_mem member sp_not_mem)
    case frame =>
      intro slot _
      rw [Machine.memory_set]
    case cells => rw [Machine.memory_set]
  obtain ⟨⟨frame, saved⟩, same⟩ := saves_hold aligned clear (List.Subset.refl l.slots) start
  have enough : params.length ≤ Register.args.length := few
  obtain ⟨t', bound, holds⟩ := spillParams_holds exit aligned clear enough inFrame saved
  have values : (Register.args.take params.length).map (afterAll host.symbols m₁ (l.slots.filterMap saveSlot)).get =
      (Register.args.take params.length).map m.get := by
    refine List.map_congr_left fun r member => ?_
    rw [same, moved, Machine.get_set_other _ _ (args_ne_sp r (List.mem_of_mem_take member))]
  rw [values] at bound
  refine ⟨frame, t', bound, ?_⟩
  rw [entering, afterAll_append]
  exact holds

/-- The instructions by which a function is left, but the last. -/
def leaving (l : Layout) : List Instr :=
  (l.slots.filterMap restoreSlot).reverse ++ [Instr.immediate .addi .sp .sp l.size]

theorem restores {slots : List Slot} {i : Instr} (member : i ∈ (slots.filterMap restoreSlot).reverse) :
    ∃ slot ∈ slots, ∃ r, slot.saves = some r ∧ i = .load .word r slot.offset .sp := by
  obtain ⟨slot, inside, restored⟩ := List.mem_filterMap.1 (List.mem_reverse.1 member)
  obtain ⟨r, saves, rfl⟩ := Option.map_eq_some_iff.1 restored
  exact ⟨slot, inside, r, saves, rfl⟩

theorem isData_of_leaving (l : Layout) : ∀ i ∈ leaving l, i.isData = true := by
  intro i member
  rcases List.mem_append.1 member with restore | last
  · obtain ⟨_, _, _, _, rfl⟩ := restores restore
    rfl
  · rw [List.mem_singleton.1 last]
    rfl

theorem afterAll_loads (symbols : Name → Word) {code : List Instr} {r : Register}
    (loads : ∀ i ∈ code, ∃ width d offset b, i = .load width d offset b ∧ d ≠ r) (m : Machine) :
    (afterAll symbols m code).get r = m.get r ∧ (afterAll symbols m code).memory = m.memory := by
  induction code generalizing m with
  | nil => exact ⟨rfl, rfl⟩
  | cons i code ih =>
    obtain ⟨width, d, offset, b, rfl, other⟩ := loads i (by simp)
    obtain ⟨same, memory⟩ := ih (fun i' later => loads i' (List.mem_cons_of_mem _ later))
      ((Instr.load width d offset b).after symbols m)
    constructor
    · exact same.trans (Machine.get_set_other _ _ (Ne.symm other))
    · exact memory.trans (Machine.memory_set ..)

theorem result_not_saved : ∀ r ∈ Register.calleeSaved, r ≠ resultRegister := by
  decide

theorem leaving_keeps (saves : ∀ slot ∈ l.slots, ∀ r, slot.saves = some r → r ∈ Register.calleeSaved) (m : Machine) :
    (afterAll host.symbols m (leaving l)).get resultRegister = m.get resultRegister ∧
      (afterAll host.symbols m (leaving l)).memory = m.memory := by
  have loads : ∀ i ∈ (l.slots.filterMap restoreSlot).reverse, ∃ width d offset b,
      i = .load width d offset b ∧ d ≠ resultRegister := by
    intro i member
    obtain ⟨slot, inside, r, saved, rfl⟩ := restores member
    exact ⟨_, r, _, _, rfl, result_not_saved r (saves slot inside r saved)⟩
  obtain ⟨same, memory⟩ := afterAll_loads host.symbols loads m
  have last : ∀ m' : Machine, afterAll host.symbols m' [.immediate .addi .sp .sp l.size] =
      m'.set .sp (m'.get .sp + l.size.toBitVec) := fun _ => rfl
  have notPointer : resultRegister ≠ .sp := by decide
  rw [leaving, afterAll_append, last, Machine.get_set_other _ _ notPointer, Machine.memory_set]
  exact ⟨same, memory⟩

/-- The lines behind the body of a function. -/
def lastLines (l : Layout) (exit : Name) : List Line :=
  .label exit :: (leaving l ++ [Instr.jumpRegister .ra]).map .instr

theorem finishes : (host.language l exit).Finishes (lastLines l exit) fun m => afterAll host.symbols m (leaving l) where
  split := by
    refine ⟨.label exit :: (leaving l).map .instr, .instr (.jumpRegister .ra), by simp [lastLines], ?_, ?_, ?_⟩
    · intro line member
      rcases List.mem_cons.1 member with rfl | other
      · exact quiet_label exit
      · obtain ⟨i, inside, rfl⟩ := List.mem_map.1 other
        exact quiet_data (isData_of_leaving l i inside)
    · intro k m
      rw [Language.flows, nexts_label, andThen_singleton, flows_data (isData_of_leaving l)]
    · intro i m events flow m'
      constructor
      · intro acts
        cases acts with
        | data never => cases never
        | leave => exact ⟨rfl, rfl, rfl⟩
      · rintro ⟨rfl, rfl, rfl⟩
        exact .leave

end MiniC.Assembly
