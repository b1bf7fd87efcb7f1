import MiniC.Proofs.Machine.Meaning

namespace MiniC.Assembly

open Code Storage

/-- A program in memory: where its globals and its lines are, and the part of memory that is the stack. Lines have the same
address only if there is no instruction between them. -/
structure Image (q : Program) (lines : List Line) where
  symbols : Name → Word
  address : Nat → Word
  low : Nat
  high : Nat
  distinct : ∀ {i j : Nat}, i ≤ j → j ≤ lines.length → address i = address j →
    ∀ k, i ≤ k → k < j → ∀ instr, lines[k]? ≠ some (.instr instr)
  apart : ∀ h ∈ q.globals, ∀ b, Memory.Within (symbols h.name) (widthOfGlobal h).bytes b →
    ¬ (low ≤ b.toNat ∧ b.toNat < high)

/-- A function that was entered, and the machine at its label then. -/
structure Activation where
  function : Function
  entry : Machine

namespace Activation

def size (a : Activation) : Nat :=
  match a.function.layout with
  | some l => l.size.toInt.toNat
  | none => 0

/-- Is a byte in the frame, which ends where the stack pointer was? -/
def InFrame (a : Activation) (b : Word) : Prop :=
  (a.entry.get .sp).toNat - a.size ≤ b.toNat ∧ b.toNat < (a.entry.get .sp).toNat

end Activation

namespace Image

variable {q : Program} {lines : List Line} (image : Image q lines)

def InStack (b : Word) : Prop :=
  image.low ≤ b.toNat ∧ b.toNat < image.high

/-- There is room on the stack for the frame. -/
def HasRoom (a : Activation) : Prop :=
  image.low + a.size ≤ (a.entry.get .sp).toNat ∧ (a.entry.get .sp).toNat ≤ image.high

/-- What functions keep for their callers: the stack pointer and the registers that they have to save, and the stack from
there on. -/
structure Keeps (m m' : Machine) : Prop where
  registers : ∀ r ∈ .sp :: Register.calleeSaved, m'.get r = m.get r
  stack : ∀ b, image.InStack b → (m.get .sp).toNat ≤ b.toNat → m'.memory b = m.memory b

/-- The functions that were entered and not left, the last first, where control is, and the machine. -/
structure State where
  activations : List Activation
  line : Nat
  machine : Machine

/-- The machine when the function called in a line is entered. -/
def link (m : Machine) (pc : Nat) : Machine :=
  m.set .ra (image.address (pc + 1))

inductive Step : State → State → Prop
  | pass {as pc m line} : lines[pc]? = some line → (∀ i, line ≠ .instr i) → Step ⟨as, pc, m⟩ ⟨as, pc + 1, m⟩
  | data {as pc m i} : lines[pc]? = some (.instr i) → i.isData = true →
    Step ⟨as, pc, m⟩ ⟨as, pc + 1, i.after image.symbols m⟩
  | jump {as pc pos m target} : lines[pc]? = some (.instr (.jump target)) → lines[pos]? = some (.label target) →
    Step ⟨as, pc, m⟩ ⟨as, pos, m⟩
  | taken {as pc pos m condition r target} : lines[pc]? = some (.instr (.branch condition r target)) →
    condition.holds (m.get r) = true → lines[pos]? = some (.label target) → Step ⟨as, pc, m⟩ ⟨as, pos, m⟩
  | passed {as pc m condition r target} : lines[pc]? = some (.instr (.branch condition r target)) →
    condition.holds (m.get r) = false → Step ⟨as, pc, m⟩ ⟨as, pc + 1, m⟩
  | call {as pc pos m g} : lines[pc]? = some (.instr (.call g.name)) → g ∈ q.functions → g.external = false →
    lines[pos]? = some (.label g.name) → image.HasRoom ⟨g, image.link m pc⟩ →
    Step ⟨as, pc, m⟩ ⟨⟨g, image.link m pc⟩ :: as, pos, image.link m pc⟩
  | external {as pc m m' f} : lines[pc]? = some (.instr (.call f.name)) → f ∈ q.functions → f.external = true →
    image.Keeps (image.link m pc) m' → Step ⟨as, pc, m⟩ ⟨as, pc + 1, m'⟩
  | ret {a b as pc pos m r} : lines[pc]? = some (.instr (.jumpRegister r)) → pos ≤ lines.length →
    image.address pos = m.get r → Step ⟨a :: b :: as, pc, m⟩ ⟨b :: as, pos, m⟩

/-- The states that a program comes to from the label of any of its functions on, as long as there is room. -/
inductive Reaches : State → Prop
  | enter {g pos m} : g ∈ q.functions → g.external = false → lines[pos]? = some (.label g.name) →
    image.HasRoom ⟨g, m⟩ → Reaches ⟨[⟨g, m⟩], pos, m⟩
  | step {st st'} : Reaches st → image.Step st st' → Reaches st'

end Image

end MiniC.Assembly
