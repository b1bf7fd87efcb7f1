import MiniC.Code.Operands
import MiniC.Proofs.Code.Meaning
import Mathlib.Logic.Function.Basic

namespace MiniC.Storage

open Code

abbrev Cells := Name → Word

/-- What a function may return and which contents of the globals it may leave. -/
abbrev Callees := Name → List Word → Cells → Set (Word × Cells)

/-- What memory of some size keeps of a word. -/
def kept (size : Int64) (w : Word) : Word :=
  if size = 1 then w.byte else w

/-- The places of values: registers, the stack frame by offsets, and globals by names. -/
structure Store where
  regs : Register → Word
  frame : Int64 → Word
  cells : Cells

namespace Store

def get (t : Store) : Location → Option Word
  | .nowhere => none
  | .register r => some (t.regs r)
  | .stack offset _ => some (t.frame offset)
  | .memory label _ => some (t.cells label)

def put (t : Store) (w : Word) : Location → Option Store
  | .nowhere => none
  | .register r => some { t with regs := Function.update t.regs r w }
  | .stack offset _ => some { t with frame := Function.update t.frame offset w }
  | .memory label size => some { t with cells := Function.update t.cells label (kept size w) }

/-- What is the same after a call: the frame, and the registers of variables. -/
def Keeps (t t' : Store) : Prop :=
  t'.frame = t.frame ∧ ∀ r ∈ Register.locals, t'.regs r = t.regs r

def setting (callees : Callees) (places : Name → Option Location) : Setting Store where
  read t x := (places x).bind t.get
  write t x w := (places x).bind (t.put w)
  constant t _
    | .int value => {value.toBitVec}
    | .char value => {value.toBitVec.setWidth 64}
    | .str _ => ∅
    | .symbol label => {w | (places label).bind t.get = some w}
  transfer t src dst := (t.get src).bind fun w => t.put w dst
  call t callee args := {out | (out.1, out.2.cells) ∈ callees callee args t.cells ∧ t.Keeps out.2}

end Store

/-- The values of names that are no globals, and the contents of globals. -/
structure Named where
  vars : Name → Word
  cells : Cells

namespace Named

variable (sizes : Name → Option Int64)

/-- The value of a name; `sizes` tells which names are globals. -/
def get (s : Named) (x : Name) : Word :=
  if (sizes x).isSome then s.cells x else s.vars x

def put (s : Named) (x : Name) (w : Word) : Named :=
  match sizes x with
  | some size => { s with cells := Function.update s.cells x (kept size w) }
  | none => { s with vars := Function.update s.vars x w }

/-- Code whose names are variables and globals. A string constant stands for what the global that is
kept for its statement holds. -/
def setting (callees : Callees) (strings : Nat → Name) : Setting Named where
  read s x := some (s.get sizes x)
  write s x w := some (s.put sizes x w)
  constant s i
    | .int value => {value.toBitVec}
    | .char value => {value.toBitVec.setWidth 64}
    | .str _ => {s.cells (strings i)}
    | .symbol _ => ∅
  transfer _ _ _ := none
  call s callee args :=
    {out | ∃ cells, (out.1, cells) ∈ callees callee args s.cells ∧ out.2 = { s with cells }}

end Named

/-- The globals that a function may name, with their sizes: its parameters hide them. -/
def globalSizes (p : Program) (f : Function) (x : Name) : Option Int64 :=
  if f.params.any fun param => param.name = x then none else (p.global? x).map fun g => g.ty.size

/-- The names that are used in a body with some parameters. -/
def usedNames (params : List Param) (body : List Stmt) : List Name :=
  params.map (·.name) ++ body.flatMap fun s => s.action.inputs ++ s.action.outputs

end MiniC.Storage
