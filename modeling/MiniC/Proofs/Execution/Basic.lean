import MiniC.Name
import Mathlib.Algebra.Ring.Int.Defs
import Mathlib.Algebra.Ring.Nat
import Mathlib.Data.Set.Insert

/-!
Languages of instructions in a row. An instruction may carry a label, and what it does is a relation
between states; runs go on with the next instruction or at the first one with the label of a jump.
Three-address code and assembly are both of this kind.
-/

namespace MiniC

abbrev Word := BitVec 64

/-- How the run of a function's body ends. -/
inductive Outcome
  | fell
  | returned (value : Option Word)
  deriving DecidableEq, Repr

/-- What can be seen of a run from outside. -/
inductive Event
  | jump (target : Name)
  | call (callee : Name) (args : List Word) (result : Word)
  deriving DecidableEq, Repr

/-- Where a run goes on after an instruction. -/
inductive Flow
  | next
  | goto (target : Name)
  | leave (value : Option Word)
  deriving DecidableEq, Repr

/-- Instructions `I` that work on states `S`. -/
structure Language (I S : Type) where
  label : I → Name
  acts : (i : Nat) → S → I → List Event → Flow → S → Prop

namespace Language

variable {I S : Type} (L : Language I S) (code : List I)

/-- The number of the first instruction with a label; an empty label marks nothing. -/
def labelled (label : Name) : Option Nat :=
  if label = [] then none else code.findIdx? fun instr => L.label instr = label

/-- The number of the instruction after the one numbered `pc`. -/
def target (pc : Nat) : Flow → Option Nat
  | .next => some (pc + 1)
  | .goto label => L.labelled code label
  | .leave _ => none

/-- A run of some steps, with the events that are seen of it. -/
inductive Steps : (count pc : Nat) → S → List Event → (pc' : Nat) → S → Prop
  | none {pc s} : Steps 0 pc s [] pc s
  | one {count pc pc₁ pc' instr flow events rest} {s s₁ s' : S} :
    code[pc]? = some instr → L.acts pc s instr events flow s₁ →
    L.target code pc flow = some pc₁ → Steps count pc₁ s₁ rest pc' s' →
    Steps (count + 1) pc s (events ++ rest) pc' s'

/-- A run ends where the code does, or at an instruction that leaves it. -/
inductive Halts : (pc : Nat) → S → List Event → Outcome → S → Prop
  | fell {s} : Halts code.length s [] .fell s
  | returned {pc instr value events} {s s' : S} :
    code[pc]? = some instr → L.acts pc s instr events (.leave value) s' →
    Halts pc s events (.returned value) s'

inductive Ends : (count pc : Nat) → S → List Event → Outcome → S → Prop
  | halt {pc events outcome} {s s' : S} :
    Halts L code pc s events outcome s' → Ends 0 pc s events outcome s'
  | step {count pc pc₁ instr flow events rest outcome} {s s₁ s' : S} :
    code[pc]? = some instr → L.acts pc s instr events flow s₁ →
    L.target code pc flow = some pc₁ → Ends count pc₁ s₁ rest outcome s' →
    Ends (count + 1) pc s (events ++ rest) outcome s'

def Runs (s : S) (events : List Event) (outcome : Outcome) (s' : S) : Prop :=
  ∃ count, L.Ends code count 0 s events outcome s'

/-- How runs of the whole code end of which `events` are seen. -/
def Outcomes (s : S) (events : List Event) : Set (Outcome × S) :=
  {out | L.Runs code s events out.1 out.2}

/-- What is seen of a run of the whole code up to some step. -/
def Traces (s : S) : Set (List Event) :=
  {events | ∃ count pc s', L.Steps code count 0 s events pc s'}

/-- The states after an instruction that goes on with the next one. -/
def nexts (i : Nat) (instr : I) (s : S) : Set S :=
  {s' | ∃ events, L.acts i s instr events .next s'}

def Straight (instr : I) : Prop :=
  ∀ i s events flow s', L.acts i s instr events flow s' → flow = .next

/-- Does an instruction always go on with the next one, and is nothing seen of it? -/
def Quiet (instr : I) : Prop :=
  ∀ i s events flow s', L.acts i s instr events flow s' → events = [] ∧ flow = .next

end Language

end MiniC
