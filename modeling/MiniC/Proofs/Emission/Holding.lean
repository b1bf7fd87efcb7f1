import MiniC.Proofs.Machine.Meaning

namespace MiniC.Assembly

open Code Storage

variable {r : Register}

/-- The registers in which names may live. -/
def nameRegisters : List Register :=
  Register.locals ++ Register.scratchPool

def Usable (p : Program) (l : Layout) : Location → Prop
  | .nowhere => False
  | .register r => r ∈ nameRegisters
  | .stack offset _ => ∃ slot ∈ l.slots, slot.offset = offset
  | .memory label size => ∃ g, p.global? label = some g ∧ g.ty.size = size

def Aligned (l : Layout) : Prop :=
  ∀ slot ∈ l.slots, slot.offset.toBitVec.toNat % 8 = 0

/-- The places hold the same on the machine, whose frame is at `base`. -/
structure Holds {p : Program} (host : Host p) (l : Layout) (base : Word) (t : Store) (m : Machine) : Prop where
  pointer : m.get .sp = base
  registers : ∀ r ∈ nameRegisters, m.get r = t.regs r
  frame : ∀ slot ∈ l.slots, m.memory.load (base + slot.offset.toBitVec) .word = t.frame slot.offset
  cells : host.cells m.memory = t.cells

namespace Machine

variable (m : Machine) (w : Word)

theorem get_set_same (nonzero : r ≠ .zero) : (m.set r w).get r = w := by
  simp [get, set, nonzero]

theorem get_set_other {r' : Register} (other : r' ≠ r) : (m.set r w).get r' = m.get r' := by
  unfold get set
  split
  · rfl
  · split
    · rfl
    · simp [other]

@[simp] theorem memory_set (r : Register) : (m.set r w).memory = m.memory := by
  unfold set
  split <;> rfl

end Machine

theorem temporary_not_mem : Register.temporary ∉ nameRegisters := by
  decide

theorem sp_not_mem : Register.sp ∉ nameRegisters := by
  decide

theorem zero_not_mem : Register.zero ∉ nameRegisters := by
  decide

theorem ne_of_mem {r' : Register} (member : r ∈ nameRegisters) (outside : r' ∉ nameRegisters) : r ≠ r' :=
  fun same => outside (same ▸ member)

namespace Holds

variable {p : Program} {host : Host p} {l : Layout} {base w : Word} {t : Store} {m : Machine}

theorem set_other (holds : Holds host l base t m) (w : Word) (outside : r ∉ nameRegisters)
    (notPointer : r ≠ .sp) : Holds host l base t (m.set r w) where
  pointer := by rw [Machine.get_set_other _ _ notPointer.symm, holds.pointer]
  registers r' member := by rw [Machine.get_set_other _ _ (ne_of_mem member outside), holds.registers r' member]
  frame slot member := by rw [Machine.memory_set, holds.frame slot member]
  cells := by rw [Machine.memory_set, holds.cells]

theorem set (holds : Holds host l base t m) (w : Word) (member : r ∈ nameRegisters) :
    Holds host l base { t with regs := Function.update t.regs r w } (m.set r w) where
  pointer := by rw [Machine.get_set_other _ _ (ne_of_mem member sp_not_mem).symm, holds.pointer]
  registers r' member' := by
    by_cases same : r' = r
    · subst same
      rw [Machine.get_set_same _ _ (ne_of_mem member zero_not_mem)]
      simp
    · rw [Machine.get_set_other _ _ same, holds.registers r' member']
      simp [same]
  frame slot member := by rw [Machine.memory_set, holds.frame slot member]
  cells := by rw [Machine.memory_set, holds.cells]

end Holds

theorem Aligned.apart {l : Layout} (aligned : Aligned l) {slot slot' : Slot} (member : slot ∈ l.slots)
    (member' : slot' ∈ l.slots) (different : slot.offset ≠ slot'.offset) (base : Word) :
    Memory.Apart (base + slot.offset.toBitVec) Width.word.bytes (base + slot'.offset.toBitVec)
      Width.word.bytes := by
  intro x here there
  have distinct : slot.offset.toBitVec.toNat ≠ slot'.offset.toBitVec.toNat :=
    fun same => different (Int64.toBitVec_inj.1 (BitVec.eq_of_toNat_eq same))
  have first := aligned slot member
  have second := aligned slot' member'
  simp only [Memory.Within, BitVec.toNat_sub, BitVec.toNat_add, Width.bytes] at here there
  have := x.isLt
  have := base.isLt
  have := slot.offset.toBitVec.isLt
  have := slot'.offset.toBitVec.isLt
  omega

theorem cut_widthOf (size : Int64) (w : Word) : (widthOf size).cut w = kept size w := by
  unfold widthOf kept
  split <;> rfl

namespace Holds

variable {p : Program} {host : Host p} {l : Layout} {base : Word} {t : Store} {m : Machine}

theorem store_frame (holds : Holds host l base t m) (aligned : Aligned l) (clear : host.Clear l base) {slot : Slot}
    (member : slot ∈ l.slots) (w : Word) :
    Holds host l base { t with frame := Function.update t.frame slot.offset w }
      { m with memory := m.memory.store (base + slot.offset.toBitVec) w .word } where
  pointer := holds.pointer
  registers := holds.registers
  frame slot' member' := by
    by_cases same : slot'.offset = slot.offset
    · rw [same, Memory.load_store_same]
      simp [Width.cut]
    · have different : slot.offset ≠ slot'.offset := Ne.symm same
      rw [Memory.load_store_apart (aligned.apart member member' different base), holds.frame slot' member']
      simp [same]
  cells := by
    rw [← holds.cells]
    funext x
    unfold Host.cells
    cases found : p.global? x with
    | none => rfl
    | some g => exact Memory.load_store_apart (clear slot member found)

theorem store_cell (holds : Holds host l base t m) (clear : host.Clear l base) {x : Name} {g : Global}
    (found : p.global? x = some g) (w : Word) :
    Holds host l base { t with cells := Function.update t.cells x (kept g.ty.size w) }
      { m with memory := m.memory.store (host.symbols x) w (widthOfGlobal g) } where
  pointer := holds.pointer
  registers := holds.registers
  frame slot member := by
    rw [Memory.load_store_apart (clear slot member found).symm, holds.frame slot member]
  cells := by
    funext y
    by_cases same : y = x
    · subst same
      simp only [Host.cells, found, Function.update_self]
      rw [Memory.load_store_same, widthOfGlobal, cut_widthOf]
    · change _ = Function.update t.cells x _ y
      rw [Function.update_of_ne same, ← holds.cells]
      unfold Host.cells
      cases found' : p.global? y with
      | none => rfl
      | some h => exact Memory.load_store_apart (host.apart found found' (Ne.symm same))

theorem get_cases (holds : Holds host l base t m) {place : Location} (usable : Usable p l place) :
    (∃ r ∈ nameRegisters, place = .register r ∧ t.get place = some (m.get r)) ∨
      (∃ slot ∈ l.slots, ∃ size, place = .stack slot.offset size ∧
        t.get place = some (m.memory.load (base + slot.offset.toBitVec) .word)) ∨
      ∃ x g, p.global? x = some g ∧ place = .memory x g.ty.size ∧
        t.get place = some (m.memory.load (host.symbols x) (widthOfGlobal g)) := by
  cases place with
  | nowhere => exact usable.elim
  | register r => exact .inl ⟨r, usable, rfl, by rw [holds.registers r usable]; rfl⟩
  | stack offset size =>
    obtain ⟨slot, member, rfl⟩ := usable
    exact .inr (.inl ⟨slot, member, size, rfl, by rw [holds.frame slot member]; rfl⟩)
  | memory label size =>
    obtain ⟨g, found, rfl⟩ := usable
    refine .inr (.inr ⟨label, g, found, rfl, ?_⟩)
    have content := congrFun holds.cells label
    simp only [Host.cells, found] at content
    rw [content]
    rfl

end Holds

end MiniC.Assembly
