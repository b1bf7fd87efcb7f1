import MiniC.Proofs.Emission.Discipline
import MiniC.Proofs.Machine.Activations

namespace MiniC.Assembly

open Code Storage

variable {slot : Slot} {i : Instr} {params : List Param}

structure IsFrame (l : Layout) : Prop where
  offsets : ∀ {i : Nat} {slot : Slot}, l.slots[i]? = some slot → slot.offset = Int64.ofNat (8 * i)
  size : l.size = Int64.ofNat (8 * l.slots.length)
  small : 8 * l.slots.length < 2048
  saves : ∀ slot ∈ l.slots, ∀ r, slot.saves = some r → r ∈ Register.calleeSaved
  link : ∃ slot ∈ l.slots, slot.saves = some .ra

namespace IsFrame

variable {l : Layout} (frame : IsFrame l)

include frame

theorem toBitVec_size : l.size.toBitVec = BitVec.ofNat 64 (8 * l.slots.length) := by
  rw [frame.size, Int64.toBitVec_ofNat']

theorem exists_offset (member : slot ∈ l.slots) :
    ∃ i < l.slots.length, slot.offset.toBitVec = BitVec.ofNat 64 (8 * i) := by
  obtain ⟨i, found⟩ := List.getElem?_of_mem member
  refine ⟨i, (List.getElem?_eq_some_iff.1 found).1, ?_⟩
  rw [frame.offsets found, Int64.toBitVec_ofNat']

theorem aligned : Aligned l := by
  intro slot member
  obtain ⟨i, _, offset⟩ := frame.exists_offset member
  have := frame.small
  rw [offset, BitVec.toNat_ofNat]
  omega

theorem offset_injective {i j : Nat} {slot' : Slot} (found : l.slots[i]? = some slot) (found' : l.slots[j]? = some slot')
    (same : slot.offset = slot'.offset) : i = j := by
  have := (List.getElem?_eq_some_iff.1 found).1
  have := (List.getElem?_eq_some_iff.1 found').1
  have := frame.small
  rw [frame.offsets found, frame.offsets found'] at same
  have := ofNat_inj_of_lt (by omega) (by omega) same
  omega

theorem apart (base : Word) : l.slots.Pairwise fun slot slot' =>
    Memory.Apart (base + slot.offset.toBitVec) Width.word.bytes (base + slot'.offset.toBitVec) Width.word.bytes := by
  rw [List.pairwise_iff_getElem]
  intro i j inside inside' order
  refine frame.aligned.apart (List.getElem_mem inside) (List.getElem_mem inside') (fun same => ?_) base
  have := frame.offset_injective (List.getElem?_eq_getElem inside) (List.getElem?_eq_getElem inside') same
  omega

end IsFrame

def Activation.base (a : Activation) (l : Layout) : Word :=
  a.entry.get .sp - l.size.toBitVec

section

variable {q : Program} {lines : List Line} {image : Image q lines} {a : Activation} {l : Layout}

/-- A function that was entered where there is room for its frame. -/
structure Framed (image : Image q lines) (a : Activation) (l : Layout) : Prop where
  layout : a.function.layout = some l
  frame : IsFrame l
  room : image.HasRoom a

namespace Framed

variable (framed : Framed image a l)

include framed

theorem size_eq : a.size = 8 * l.slots.length := by
  have := framed.frame.small
  rw [Activation.size, framed.layout]
  change l.size.toInt.toNat = _
  rw [framed.frame.size, Int64.toInt_ofNat_of_lt (by omega), Int.toNat_natCast]

theorem inFrame (member : slot ∈ l.slots) {b : Word}
    (inside : Memory.Within (a.base l + slot.offset.toBitVec) Width.word.bytes b) : a.InFrame b := by
  obtain ⟨i, below, offset⟩ := framed.frame.exists_offset member
  have above := framed.room.1
  have := framed.frame.small
  have := (a.entry.get .sp).isLt
  have := b.isLt
  rw [framed.size_eq] at above
  rw [Activation.base, framed.frame.toBitVec_size, offset] at inside
  simp only [Memory.Within, Width.bytes, BitVec.toNat_sub, BitVec.toNat_add, BitVec.toNat_ofNat] at inside
  rw [Activation.InFrame, framed.size_eq]
  omega

theorem toNat_base : (a.base l).toNat = (a.entry.get .sp).toNat - a.size := by
  have above := framed.room.1
  have := framed.frame.small
  have := (a.entry.get .sp).isLt
  rw [framed.size_eq] at above ⊢
  rw [Activation.base, framed.frame.toBitVec_size, BitVec.toNat_sub, BitVec.toNat_ofNat]
  omega

end Framed

/-- Bytes that the body of a function has to leave alone: where registers are saved, and the stack from its frame on. -/
def Protected (image : Image q lines) (a : Activation) (l : Layout) (b : Word) : Prop :=
  (∃ slot ∈ l.slots, slot.saves ≠ none ∧ Memory.Within (a.base l + slot.offset.toBitVec) Width.word.bytes b) ∨
    image.InStack b ∧ (a.entry.get .sp).toNat ≤ b.toNat

theorem Framed.inStack (framed : Framed image a l) {b : Word} (isProtected : Protected image a l b) :
    image.InStack b ∧ (a.base l).toNat ≤ b.toNat := by
  have start := framed.toNat_base
  rcases isProtected with ⟨slot, member, _, inside⟩ | ⟨inStack, above⟩
  · obtain ⟨low, high⟩ := framed.room
    obtain ⟨above, below⟩ := framed.inFrame member inside
    exact ⟨⟨by omega, by omega⟩, by omega⟩
  · exact ⟨inStack, by omega⟩

/-- What holds in the body of a function: the registers of its caller are saved or as they were, and so is the stack. -/
structure Upholds (image : Image q lines) (a : Activation) (l : Layout) (m : Machine) : Prop where
  pointer : m.get .sp = a.base l
  saved : ∀ slot ∈ l.slots, ∀ r, slot.saves = some r →
    m.memory.load (a.base l + slot.offset.toBitVec) .word = a.entry.get r
  kept : ∀ r ∈ Register.calleeSaved, (∀ slot ∈ l.slots, slot.saves ≠ some r) → m.get r = a.entry.get r
  stack : ∀ b, image.InStack b → (a.entry.get .sp).toNat ≤ b.toNat → m.memory b = a.entry.memory b

theorem Upholds.mono {m m' : Machine} (upholds : Upholds image a l m) (pointer : m'.get .sp = m.get .sp)
    (registers : ∀ r ∈ Register.calleeSaved, (∀ slot ∈ l.slots, slot.saves ≠ some r) → m'.get r = m.get r)
    (memory : ∀ b, Protected image a l b → m'.memory b = m.memory b) : Upholds image a l m' where
  pointer := pointer.trans upholds.pointer
  saved slot member r saves := by
    rw [← upholds.saved slot member r saves]
    refine Memory.load_congr fun b inside => memory b (.inl ⟨slot, member, ?_, inside⟩)
    rw [saves]
    exact Option.some_ne_none r
  kept r isSaved notHere := (registers r isSaved notHere).trans (upholds.kept r isSaved notHere)
  stack b inStack above := (memory b (.inr ⟨inStack, above⟩)).trans (upholds.stack b inStack above)

theorem Upholds.set {m : Machine} (upholds : Upholds image a l m) {r : Register} (free : Free l r) (w : Word) :
    Upholds image a l (m.set r w) := by
  refine upholds.mono ?_ ?_ ?_
  · exact Machine.get_set_other _ _ (Ne.symm free.1)
  · intro r' isSaved notHere
    refine Machine.get_set_other _ _ ?_
    rintro rfl
    obtain ⟨slot, member, saves⟩ := free.2 isSaved
    exact notHere slot member saves
  · intro b _
    rw [Machine.memory_set]

theorem Upholds.write {m : Machine} (upholds : Upholds image a l m) {address w : Word} {width : Width}
    (outside : ∀ b, Memory.Within address width.bytes b → ¬ Protected image a l b) :
    Upholds image a l { m with memory := m.memory.store address w width } :=
  upholds.mono rfl (fun _ _ _ => rfl) fun b isProtected => if_neg fun inside => outside b inside isProtected

theorem Upholds.write_slot {m : Machine} (upholds : Upholds image a l m) (framed : Framed image a l)
    (member : slot ∈ l.slots) (isVar : slot.saves = none) (w : Word) :
    Upholds image a l { m with memory := m.memory.store (m.get .sp + slot.offset.toBitVec) w .word } := by
  refine upholds.write fun b inside => ?_
  rw [upholds.pointer] at inside
  rintro (⟨slot', member', saves, inside'⟩ | ⟨_, above⟩)
  · obtain ⟨i, found⟩ := List.getElem?_of_mem member
    obtain ⟨j, found'⟩ := List.getElem?_of_mem member'
    refine framed.frame.aligned.apart member member' (fun same => ?_) _ b inside inside'
    obtain rfl := framed.frame.offset_injective found found' same
    cases found.symm.trans found'
    exact saves isVar
  · have below := (framed.inFrame member inside).2
    omega

theorem Upholds.write_global {m : Machine} (upholds : Upholds image a l m) (framed : Framed image a l) {h : Global}
    (member : h ∈ q.globals) (w : Word) :
    Upholds image a l { m with memory := m.memory.store (image.symbols h.name) w (widthOfGlobal h) } :=
  upholds.write fun b inside isProtected =>
    image.apart h member b inside (framed.inStack isProtected).1

theorem Upholds.after {m : Machine} (upholds : Upholds image a l m) (framed : Framed image a l)
    {targets : List Name} (tame : i.IsTame l targets) : Upholds image a l (i.after image.symbols m) := by
  cases i with
  | li | la | arith | unary | immediate | load => exact upholds.set tame _
  | store width r offset base =>
    obtain ⟨rfl, rfl, slot, member, isVar, rfl⟩ := tame
    exact upholds.write_slot framed member isVar _
  | _ => exact upholds

theorem Upholds.keeps {m m' : Machine} (upholds : Upholds image a l m) (framed : Framed image a l)
    (keeps : image.Keeps m m') : Upholds image a l m' := by
  refine upholds.mono ?_ ?_ ?_
  · exact keeps.registers .sp List.mem_cons_self
  · exact fun r isSaved _ => keeps.registers r (List.mem_cons_of_mem _ isSaved)
  · intro b isProtected
    obtain ⟨inStack, above⟩ := framed.inStack isProtected
    exact keeps.stack b inStack (upholds.pointer ▸ above)

theorem Upholds.link {m : Machine} (upholds : Upholds image a l m) (framed : Framed image a l) (pc : Nat) :
    Upholds image a l (image.link m pc) :=
  upholds.set ⟨by decide, fun _ => framed.frame.link⟩ _

theorem get_afterAll_stores (symbols : Name → Word) {code : List Instr}
    (stores : ∀ i ∈ code, ∃ slot ∈ l.slots, ∃ r, i = .store .word r slot.offset .sp) (m : Machine) (r : Register) :
    (afterAll symbols m code).get r = m.get r := by
  induction code generalizing m with
  | nil => rfl
  | cons i code ih =>
    obtain ⟨_, _, _, rfl⟩ := stores i List.mem_cons_self
    exact (ih (fun i' later => stores i' (List.mem_cons_of_mem _ later)) _).trans (get_store ..)

theorem stores_of_saves {slots : List Slot} (member : i ∈ slots.filterMap saveSlot) :
    ∃ slot ∈ slots, ∃ r, i = .store .word r slot.offset .sp := by
  obtain ⟨slot, inside, saved⟩ := List.mem_filterMap.1 member
  obtain ⟨r, _, rfl⟩ := Option.map_eq_some_iff.1 saved
  exact ⟨slot, inside, r, rfl⟩

theorem memory_saves (symbols : Name → Word) {base : Word} {slots : List Slot} (apart : slots.Pairwise fun slot slot' =>
      Memory.Apart (base + slot.offset.toBitVec) Width.word.bytes (base + slot'.offset.toBitVec) Width.word.bytes)
    {m : Machine} (pointer : m.get .sp = base) :
    (∀ slot ∈ slots, ∀ r, slot.saves = some r →
        (afterAll symbols m (slots.filterMap saveSlot)).memory.load (base + slot.offset.toBitVec) .word = m.get r) ∧
      ∀ b, (∀ slot ∈ slots, ¬ Memory.Within (base + slot.offset.toBitVec) Width.word.bytes b) →
        (afterAll symbols m (slots.filterMap saveSlot)).memory b = m.memory b := by
  induction slots generalizing m with
  | nil => exact ⟨nofun, fun _ _ => rfl⟩
  | cons slot slots ih =>
    obtain ⟨here, there⟩ := List.pairwise_cons.1 apart
    cases saves : slot.saves with
    | none =>
      rw [List.filterMap_cons_none (by rw [saveSlot, saves]; rfl)]
      obtain ⟨saved, other⟩ := ih there pointer
      refine ⟨fun slot' member r saves' => ?_, fun b outside => ?_⟩
      · rcases List.mem_cons.1 member with rfl | later
        · cases saves.symm.trans saves'
        · exact saved slot' later r saves'
      · exact other b fun slot' later => outside slot' (List.mem_cons_of_mem _ later)
    | some r =>
      rw [List.filterMap_cons_some (by rw [saveSlot, saves]; rfl)]
      let m₁ : Machine := (Instr.store .word r slot.offset .sp).after symbols m
      have stored : m₁.memory = m.memory.store (base + slot.offset.toBitVec) (m.get r) .word := by
        rw [← pointer]
        rfl
      obtain ⟨saved, other⟩ := @ih there m₁ pointer
      refine ⟨fun slot' member r' saves' => ?_, fun b outside => ?_⟩
      · rcases List.mem_cons.1 member with rfl | later
        · cases saves.symm.trans saves'
          have kept : (afterAll symbols m₁ (slots.filterMap saveSlot)).memory.load (base + slot'.offset.toBitVec) .word =
              m₁.memory.load (base + slot'.offset.toBitVec) .word :=
            Memory.load_congr fun b inside => other b fun slot'' later inside' => here slot'' later b inside inside'
          exact kept.trans (stored ▸ Memory.load_store_same)
        · exact saved slot' later r' saves'
      · refine (other b fun slot' later => outside slot' (List.mem_cons_of_mem _ later)).trans ?_
        rw [stored]
        exact if_neg (outside slot List.mem_cons_self)

def Spills (l : Layout) (params : List Param) : Prop :=
  ∀ param ∈ params, ∀ offset size, l.get? param.name = some (.stack offset size) →
    ∃ slot ∈ l.slots, slot.saves = none ∧ slot.offset = offset

theorem tame_spillParams (spills : Spills l params) {rs : List Register}
    (member : i ∈ spillParams l params rs) : i.IsTame l [] := by
  fun_induction spillParams l params rs with
  | case1 param params r rs offset size found ih =>
    rcases List.mem_cons.1 member with rfl | later
    · exact ⟨rfl, rfl, spills param List.mem_cons_self offset size found⟩
    · exact ih (fun other inside => spills other (List.mem_cons_of_mem _ inside)) later
  | case2 param params r rs _ ih => exact ih (fun other inside => spills other (List.mem_cons_of_mem _ inside)) member
  | case3 => cases member

theorem stores_of_entering (spills : Spills l params)
    (member : i ∈ l.slots.filterMap saveSlot ++ spillParams l params Register.args) :
    ∃ slot ∈ l.slots, ∃ r, i = .store .word r slot.offset .sp := by
  rcases List.mem_append.1 member with save | spill
  · exact stores_of_saves save
  · obtain ⟨r, offset, rfl⟩ := spillParams_cases spill
    obtain ⟨_, _, slot, inside, _, rfl⟩ := tame_spillParams spills spill
    exact ⟨slot, inside, r, rfl⟩

theorem Upholds.afterAll {m : Machine} (upholds : Upholds image a l m) (framed : Framed image a l)
    {code : List Instr} {targets : List Name} (tame : ∀ i ∈ code, i.IsTame l targets) :
    Upholds image a l (afterAll image.symbols m code) := by
  induction code generalizing m with
  | nil => exact upholds
  | cons i code ih =>
    exact ih (upholds.after framed (tame i List.mem_cons_self)) fun i' later => tame i' (List.mem_cons_of_mem _ later)

theorem after_addi (symbols : Name → Word) (a : Activation) (l : Layout) :
    (Instr.immediate .addi .sp .sp (-l.size)).after symbols a.entry = a.entry.set .sp (a.base l) := by
  change a.entry.set .sp (a.entry.get .sp + (-l.size).toBitVec) = _
  rw [Int64.toBitVec_neg, ← BitVec.sub_eq_add_neg, Activation.base]

theorem entering_cases (symbols : Name → Word) (spills : Spills l params) {done rest : List Instr}
    (split : entering l params = done ++ i :: rest) :
    i = .immediate .addi .sp .sp (-l.size) ∨ (∃ slot ∈ l.slots, ∃ r, i = .store .word r slot.offset .sp) ∧
      (afterAll symbols a.entry done).get .sp = a.base l := by
  cases done with
  | nil => exact .inl (List.cons.inj split).1.symm
  | cons first done =>
    rw [entering, List.cons_append, List.cons_append] at split
    obtain ⟨rfl, others⟩ := List.cons.inj split
    have stores : ∀ j ∈ done ++ i :: rest, ∃ slot ∈ l.slots, ∃ r, j = .store .word r slot.offset .sp := by
      rw [← others]
      exact fun j member => stores_of_entering spills member
    refine .inr ⟨stores i (by simp), ?_⟩
    change (afterAll symbols ((Instr.immediate .addi .sp .sp (-l.size)).after symbols a.entry) done).get .sp = _
    rw [after_addi, get_afterAll_stores symbols fun j member => stores j (List.mem_append_left _ member),
      Machine.get_set_same _ _ (by decide)]

theorem upholds_saves (framed : Framed image a l) :
    Upholds image a l (afterAll image.symbols (a.entry.set .sp (a.base l)) (l.slots.filterMap saveSlot)) := by
  have registers := @get_afterAll_stores l image.symbols _ (fun i => stores_of_saves) (a.entry.set .sp (a.base l))
  have pointer : (a.entry.set .sp (a.base l)).get .sp = a.base l := Machine.get_set_same _ _ (by decide)
  have other : ∀ r ∈ Register.calleeSaved, (a.entry.set .sp (a.base l)).get r = a.entry.get r := by
    intro r isSaved
    refine Machine.get_set_other _ _ ?_
    rintro rfl
    exact absurd isSaved (by decide)
  obtain ⟨saved, memory⟩ := memory_saves image.symbols (framed.frame.apart (a.base l)) pointer
  constructor
  case pointer => exact (registers .sp).trans pointer
  case saved =>
    intro slot member r saves
    exact (saved slot member r saves).trans (other r (framed.frame.saves slot member r saves))
  case kept => exact fun r isSaved _ => (registers r).trans (other r isSaved)
  case stack =>
    intro b inStack above
    refine (memory b fun slot member inside => ?_).trans (congrFun (Machine.memory_set ..) b)
    have below := (framed.inFrame member inside).2
    omega

theorem upholds_entering (framed : Framed image a l)
    (spills : Spills l params) : Upholds image a l (afterAll image.symbols a.entry (entering l params)) := by
  have start := upholds_saves framed
  rw [← after_addi image.symbols a l] at start
  rw [entering, afterAll_append]
  exact start.afterAll framed fun i member => tame_spillParams spills member

theorem get_restores (framed : Framed image a l) {code : List Instr} {m : Machine} (upholds : Upholds image a l m)
    (loads : ∀ i ∈ code, ∃ slot ∈ l.slots, ∃ r, slot.saves = some r ∧ i = .load .word r slot.offset .sp) :
    Upholds image a l (afterAll image.symbols m code) ∧ ∀ r,
      (m.get r = a.entry.get r ∨ ∃ offset, Instr.load .word r offset .sp ∈ code) →
        (afterAll image.symbols m code).get r = a.entry.get r := by
  induction code generalizing m with
  | nil =>
    refine ⟨upholds, ?_⟩
    rintro r (same | ⟨_, never⟩)
    · exact same
    · cases never
  | cons i code ih =>
    obtain ⟨slot, member, r, saves, rfl⟩ := loads i List.mem_cons_self
    have isSaved := framed.frame.saves slot member r saves
    have free : Free l r := ⟨fun is => absurd (is ▸ isSaved) (by decide), fun _ => ⟨slot, member, saves⟩⟩
    have tame : (Instr.load .word r slot.offset .sp).IsTame l [] := free
    obtain ⟨upholds', back⟩ := ih (upholds.after framed tame) fun i' later => loads i' (List.mem_cons_of_mem _ later)
    have here : ((Instr.load .word r slot.offset .sp).after image.symbols m).get r = a.entry.get r := by
      have nonzero : r ≠ .zero := fun is => absurd (is ▸ isSaved) (by decide)
      rw [Instr.after, Machine.get_set_same _ _ nonzero, upholds.pointer]
      exact upholds.saved slot member r saves
    refine ⟨upholds', fun r' known => back r' ?_⟩
    by_cases same : r' = r
    · exact .inl (same ▸ here)
    rcases known with already | ⟨offset, isLoad⟩
    · exact .inl ((Machine.get_set_other _ _ same).trans already)
    · refine .inr ⟨offset, ?_⟩
      rcases List.mem_cons.1 isLoad with is | later
      · cases is
        exact absurd rfl same
      · exact later

theorem keeps_leaving (framed : Framed image a l) {m : Machine}
    (upholds : Upholds image a l m) : image.Keeps a.entry (afterAll image.symbols m (leaving l)) := by
  obtain ⟨upholds', back⟩ := get_restores framed upholds fun i => restores
  have known : ∀ r ∈ Register.calleeSaved, r ≠ .sp := by decide
  rw [leaving, afterAll_append]
  generalize afterAll image.symbols m (l.slots.filterMap restoreSlot).reverse = m' at upholds' back
  change image.Keeps a.entry (m'.set .sp (m'.get .sp + l.size.toBitVec))
  constructor
  case registers =>
    intro r member
    rcases List.mem_cons.1 member with rfl | isSaved
    · rw [Machine.get_set_same _ _ (by decide), upholds'.pointer, Activation.base, BitVec.sub_add_cancel]
    · rw [Machine.get_set_other _ _ (known r isSaved)]
      by_cases saved : ∃ slot ∈ l.slots, slot.saves = some r
      · obtain ⟨slot, inside, saves⟩ := saved
        refine back r (.inr ⟨slot.offset, List.mem_reverse.2 (List.mem_filterMap.2 ⟨slot, inside, ?_⟩)⟩)
        rw [restoreSlot, saves]
        rfl
      · exact upholds'.kept r isSaved fun slot inside saves => saved ⟨slot, inside, saves⟩
  case stack =>
    intro b inStack above
    rw [Machine.memory_set]
    exact upholds'.stack b inStack above

end

end MiniC.Assembly
