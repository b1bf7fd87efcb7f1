import MiniC.Proofs.Emission.Holding
import MiniC.Proofs.Execution.Leaving

namespace MiniC.Assembly

open Code Storage

variable {a : Register}

/-- The machine after instructions that only compute. -/
def afterAll (symbols : Name → Word) (m : Machine) (code : List Instr) : Machine :=
  code.foldl (fun m i => i.after symbols m) m

section

variable {p : Program} {host : Host p} {l : Layout} {exit : Name}

theorem quiet_data {i : Instr} (data : i.isData = true) : (host.language l exit).Quiet (.instr i) := by
  intro k m events flow m' acts
  cases acts with
  | data => exact ⟨rfl, rfl⟩
  | _ => cases data

theorem quiet_label (name : Name) : (host.language l exit).Quiet (.label name) := by
  intro k m events flow m' acts
  cases acts
  exact ⟨rfl, rfl⟩

theorem nexts_data {i : Instr} (data : i.isData = true) (k : Nat) (m : Machine) :
    (host.language l exit).nexts k (.instr i) m = {i.after host.symbols m} := by
  ext m'
  constructor
  · rintro ⟨events, acts⟩
    cases acts with
    | data => rfl
    | _ => cases data
  · rintro rfl
    exact ⟨[], .data data⟩

theorem nexts_label (name : Name) (k : Nat) (m : Machine) :
    (host.language l exit).nexts k (.label name) m = {m} := by
  ext m'
  constructor
  · rintro ⟨events, acts⟩
    cases acts
    rfl
  · rintro rfl
    exact ⟨[], .label⟩

theorem flows_data {code : List Instr} (data : ∀ i ∈ code, i.isData = true) (k : Nat) (m : Machine) :
    (host.language l exit).flows k (code.map .instr) m = {afterAll host.symbols m code} := by
  induction code generalizing k m with
  | nil => rfl
  | cons i code ih =>
    rw [List.map_cons, Language.flows, nexts_data (data i (by simp)), andThen_singleton,
      ih fun other member => data other (List.mem_cons_of_mem _ member)]
    rfl

end

theorem afterAll_append (symbols : Name → Word) (m : Machine) (first second : List Instr) :
    afterAll symbols m (first ++ second) = afterAll symbols (afterAll symbols m first) second :=
  List.foldl_append

def Yields {p : Program} (host : Host p) (l : Layout) (base : Word) (t : Store) (m : Machine)
    (code : List Instr) (d : Register) (w : Word) : Prop :=
  ∃ m₁, Holds host l base t m₁ ∧ (∀ r, r ≠ .temporary → m₁.get r = m.get r) ∧
    afterAll host.symbols m code = m₁.set d w

variable {p : Program} {host : Host p} {l : Layout} {base : Word} {t : Store} {m : Machine} {place : Location}
  {code : List Instr} {d : Register} {w : Word}

namespace Yields

theorem single (holds : Holds host l base t m) {i : Instr} (sets : i.after host.symbols m = m.set d w) :
    Yields host l base t m [i] d w :=
  ⟨m, holds, fun _ _ => rfl, sets⟩

theorem through (holds : Holds host l base t m) {i i' : Instr} {v : Word}
    (first : i.after host.symbols m = m.set .temporary v)
    (second : i'.after host.symbols (m.set .temporary v) = (m.set .temporary v).set d w) :
    Yields host l base t m [i, i'] d w := by
  refine ⟨m.set .temporary v, holds.set_other v temporary_not_mem (by decide),
    fun r other => Machine.get_set_other _ _ other, ?_⟩
  simp only [afterAll, List.foldl_cons, List.foldl_nil, first, second]

theorem holds (yields : Yields host l base t m code d w) (member : d ∈ nameRegisters) :
    Holds host l base { t with regs := Function.update t.regs d w } (afterAll host.symbols m code) := by
  obtain ⟨m₁, holds, _, after⟩ := yields
  rw [after]
  exact holds.set w member

theorem holds_other (yields : Yields host l base t m code d w) (outside : d ∉ nameRegisters) (notPointer : d ≠ .sp) :
    Holds host l base t (afterAll host.symbols m code) := by
  obtain ⟨m₁, holds, _, after⟩ := yields
  rw [after]
  exact holds.set_other w outside notPointer

theorem get_same (yields : Yields host l base t m code d w) (nonzero : d ≠ .zero) :
    (afterAll host.symbols m code).get d = w := by
  obtain ⟨m₁, _, _, after⟩ := yields
  rw [after, Machine.get_set_same _ _ nonzero]

theorem get_other (yields : Yields host l base t m code d w) {r : Register} (other : r ≠ d)
    (notTemporary : r ≠ .temporary) : (afterAll host.symbols m code).get r = m.get r := by
  obtain ⟨m₁, _, same, after⟩ := yields
  rw [after, Machine.get_set_other _ _ other, same r notTemporary]

end Yields

theorem get_set_temporary (m : Machine) (v : Word) : (m.set .temporary v).get .temporary = v :=
  Machine.get_set_same _ _ (by decide)

theorem move_to (emitted : move place (.register d) = .ok code) (usable : Usable p l place)
    (holds : Holds host l base t m) : ∃ w, t.get place = some w ∧ Yields host l base t m code d w := by
  rcases holds.get_cases usable with
    ⟨r, _, rfl, value⟩ | ⟨slot, _, size, rfl, value⟩ | ⟨x, g, _, rfl, value⟩
  · cases emitted
    refine ⟨_, value, .single holds ?_⟩
    simp [Instr.after, Immediate.eval]
  · rw [move] at emitted
    split at emitted
    · cases emitted
      refine ⟨_, value, .single holds ?_⟩
      rw [Instr.after, holds.pointer]
    · cases emitted
  · cases emitted
    refine ⟨_, value, .through holds rfl ?_⟩
    simp [Instr.after, get_set_temporary, widthOfGlobal]

theorem move_from {s : Register} (emitted : move (.register s) place = .ok code) (usable : Usable p l place)
    (holds : Holds host l base t m) (aligned : Aligned l) (clear : host.Clear l base)
    (free : s = .temporary → ∃ r, place = .register r) :
    ∃ t', t.put (m.get s) place = some t' ∧ Holds host l base t' (afterAll host.symbols m code) := by
  rcases holds.get_cases usable with
    ⟨r, member, rfl, _⟩ | ⟨slot, member, size, rfl, _⟩ | ⟨x, g, found, rfl, _⟩
  · cases emitted
    refine ⟨_, rfl, ?_⟩
    simpa [afterAll, Instr.after, Immediate.eval] using holds.set (m.get s) member
  · rw [move] at emitted
    split at emitted
    · cases emitted
      refine ⟨_, rfl, ?_⟩
      simpa [afterAll, Instr.after, holds.pointer] using holds.store_frame aligned clear member (m.get s)
    · cases emitted
  · cases emitted
    have other : s ≠ .temporary := fun same => by
      obtain ⟨r, never⟩ := free same
      cases never
    have ready : Holds host l base t (m.set .temporary (host.symbols x)) :=
      holds.set_other _ temporary_not_mem (by decide)
    refine ⟨_, rfl, ?_⟩
    have written := ready.store_cell clear found (m.get s)
    simpa [afterAll, Instr.after, get_set_temporary, Machine.get_set_other _ _ other, widthOfGlobal] using written

theorem isData_of_move {src dst : Location} (emitted : move src dst = .ok code) : ∀ i ∈ code, i.isData = true := by
  unfold move at emitted
  split at emitted
  case h_2 | h_4 =>
    split at emitted <;> cases emitted
    simp [Instr.isData]
  case h_6 => cases emitted
  all_goals
    cases emitted
    simp [Instr.isData]

theorem isData_of_binary {op : BinOp} {b : Register} (emitted : binary op d a b = .ok code) :
    ∀ i ∈ code, i.isData = true := by
  cases op <;> cases emitted <;> simp [Instr.isData]

theorem isData_of_unary {op : UnOp} (emitted : unary op d a = .ok code) : ∀ i ∈ code, i.isData = true := by
  cases op <;> cases emitted <;> simp [Instr.isData]

theorem sub_beq_zero (a b : Word) : (a - b == 0#64) = (a == b) := by
  rw [Bool.eq_iff_iff, beq_iff_eq, beq_iff_eq]
  bv_omega

theorem binary_yields {op : BinOp} {b : Register} (emitted : binary op d a b = .ok code)
    (holds : Holds host l base t m) :
    ∃ w, op.eval? (m.get a) (m.get b) = some w ∧ Yields host l base t m code d w := by
  cases op with
  | eq | ne =>
    cases emitted
    refine ⟨_, rfl, .through holds rfl ?_⟩
    simp [Instr.after, get_set_temporary, Unary.eval, Arith.eval, sub_beq_zero, bne]
  | logAnd | logOr =>
    cases emitted
    refine ⟨_, rfl, .through holds rfl ?_⟩
    simp [Instr.after, get_set_temporary, Immediate.eval, Arith.eval, Word.bit]
  | unknown => cases emitted
  | _ =>
    cases emitted
    exact ⟨_, rfl, .single holds rfl⟩

theorem unary_yields {op : UnOp} (emitted : unary op d a = .ok code) (holds : Holds host l base t m) :
    ∃ w, op.eval? (m.get a) = some w ∧ Yields host l base t m code d w := by
  cases op with
  | logNeg =>
    cases emitted
    refine ⟨_, rfl, .through holds rfl ?_⟩
    simp [Instr.after, get_set_temporary, Immediate.eval, Unary.eval, Word.bit]
  | copy =>
    cases emitted
    refine ⟨_, rfl, .single holds ?_⟩
    simp [Instr.after, Immediate.eval]
  | unknown => cases emitted
  | _ =>
    cases emitted
    exact ⟨_, rfl, .single holds rfl⟩

end MiniC.Assembly
