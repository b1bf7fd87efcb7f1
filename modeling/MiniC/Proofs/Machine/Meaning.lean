import MiniC.Assembly.OfStmt
import MiniC.Proofs.Machine.Memory
import MiniC.Proofs.Storage.Store

/-!
What the instructions of the machine do. Calls are known by what the called function returns and does
to the globals: it keeps the registers and the frame of its caller, and other registers and other
memory may change.
-/

namespace MiniC.Assembly

open Code Storage

def Arith.eval : Arith → Word → Word → Word
  | .add, a, b => a + b
  | .sub, a, b => a - b
  | .mul, a, b => a * b
  | .div, a, b => a.quotient b
  | .rem, a, b => a.remainder b
  | .and, a, b => a &&& b
  | .or, a, b => a ||| b
  | .xor, a, b => a ^^^ b
  | .sll, a, b => a <<< b.amount
  | .srl, a, b => a >>> b.amount
  | .slt, a, b => .ofBool (a.slt b)

def Unary.eval : Unary → Word → Word
  | .neg, a => -a
  | .not, a => ~~~a
  | .seqz, a => .ofBool (a == 0)
  | .snez, a => .ofBool (a != 0)

def Immediate.eval : Immediate → Word → Word → Word
  | .addi, a, b => a + b
  | .andi, a, b => a &&& b

def Condition.holds : Condition → Word → Bool
  | .zero, a => a == 0
  | .nonzero, a => a != 0

structure Machine where
  regs : Register → Word
  memory : Memory

namespace Machine

def get (m : Machine) (r : Register) : Word :=
  if r = .zero then 0 else m.regs r

def set (m : Machine) (r : Register) (w : Word) : Machine :=
  if r = .zero then m else { m with regs := Function.update m.regs r w }

end Machine

namespace Instr

/-- Does an instruction only compute, and go on with the next one? -/
def isData : Instr → Bool
  | .jump _ | .branch .. | .call _ | .jumpRegister _ | .readHartId _ => false
  | _ => true

/-- The machine after an instruction that only computes. -/
def after (symbols : Name → Word) (m : Machine) : Instr → Machine
  | .li rd value => m.set rd value.toBitVec
  | .la rd symbol => m.set rd (symbols symbol)
  | .arith op rd rs₁ rs₂ => m.set rd (op.eval (m.get rs₁) (m.get rs₂))
  | .unary op rd rs => m.set rd (op.eval (m.get rs))
  | .immediate op rd rs value => m.set rd (op.eval (m.get rs) value.toBitVec)
  | .load width rd offset base => m.set rd (m.memory.load (m.get base + offset.toBitVec) width)
  | .store width rs offset base =>
    { m with memory := m.memory.store (m.get base + offset.toBitVec) (m.get rs) width }
  | _ => m

end Instr

def widthOfGlobal (g : Global) : Width :=
  widthOf g.ty.size

/-- Contents that the memory of globals can have; other names have none. -/
def Proper (p : Program) (cells : Cells) : Prop :=
  ∀ x, cells x = match p.global? x with
    | some g => (widthOfGlobal g).cut (cells x)
    | none => 0

/-- What the functions of a program find on the machine: their globals, apart from each other in memory,
and the functions that they call. -/
structure Host (p : Program) where
  symbols : Name → Word
  callees : Callees
  apart : ∀ {x y g h}, p.global? x = some g → p.global? y = some h → x ≠ y →
    Memory.Apart (symbols x) (widthOfGlobal g).bytes (symbols y) (widthOfGlobal h).bytes
  proper : ∀ {callee args cells w cells'}, (w, cells') ∈ callees callee args cells → Proper p cells'

namespace Host

variable {p : Program} (host : Host p)

def cells (memory : Memory) : Cells := fun x =>
  match p.global? x with
  | some g => memory.load (host.symbols x) (widthOfGlobal g)
  | none => 0

/-- The frame at `base` and the globals are apart. -/
def Clear (l : Layout) (base : Word) : Prop :=
  ∀ slot ∈ l.slots, ∀ {x g}, p.global? x = some g →
    Memory.Apart (base + slot.offset.toBitVec) Width.word.bytes (host.symbols x) (widthOfGlobal g).bytes

end Host

/-- The values in the argument registers of a function. -/
def Machine.arguments (p : Program) (m : Machine) (callee : Name) : List Word :=
  match p.function? callee with
  | some f => (Register.args.take f.params.length).map m.get
  | none => []

/-- What a called function keeps for its caller. -/
def Machine.Keeps (l : Layout) (m m' : Machine) : Prop :=
  (∀ r ∈ .sp :: .fp :: Register.locals, m'.get r = m.get r) ∧
    ∀ slot ∈ l.slots, ∀ a, Memory.Within (m.get .sp + slot.offset.toBitVec) Width.word.bytes a →
      m'.memory a = m.memory a

section

variable {p : Program} (host : Host p) (l : Layout) (exit : Name)

/-- What a line of a function with this layout does. Jumps to its exit are not seen. -/
inductive Acts (m : Machine) : Line → List Event → Flow → Machine → Prop
  | blank : Acts m .blank [] .next m
  | label {name} : Acts m (.label name) [] .next m
  | data {i} : i.isData = true → Acts m (.instr i) [] .next (i.after host.symbols m)
  | jump {target} :
    Acts m (.instr (.jump target)) (if target = exit then [] else [.jump target]) (.goto target) m
  | taken {condition rs target} : condition.holds (m.get rs) = true →
    Acts m (.instr (.branch condition rs target)) [.jump target] (.goto target) m
  | passed {condition rs target} : condition.holds (m.get rs) = false →
    Acts m (.instr (.branch condition rs target)) [] .next m
  | call {callee m'} :
    (m'.get .a0, host.cells m'.memory) ∈ host.callees callee (m.arguments p callee) (host.cells m.memory) →
    m.Keeps l m' →
    Acts m (.instr (.call callee)) [.call callee (m.arguments p callee) (m'.get .a0)] .next m'
  | leave {rs} : Acts m (.instr (.jumpRegister rs)) [] (.leave none) m

end

def Line.mark : Line → Name
  | .label name => name
  | _ => []

def Host.language {p : Program} (host : Host p) (l : Layout) (exit : Name) : Language Line Machine where
  label := Line.mark
  acts _ m line := Acts host l exit m line

end MiniC.Assembly
