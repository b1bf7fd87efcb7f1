import MiniC.Code.Operands
import MiniC.Storage.Queue

namespace MiniC.Storage

open Code

/-- How often a name is used, and how many others appear before it. -/
structure Usage where
  name : Name
  seq : Nat
  reads : Nat
  writes : Nat
  deriving DecidableEq, Repr

namespace Usage

def uses (u : Usage) : Nat :=
  u.reads + u.writes

/-- The more used name comes first; of names used as often, the one that appears first. -/
def less (a b : Usage) : Bool :=
  if a.uses ≠ b.uses then b.uses < a.uses else a.seq < b.seq

theorem less_eq_false {a b : Usage} : less a b = false ↔ a.uses < b.uses ∨ a.uses = b.uses ∧ b.seq ≤ a.seq := by
  unfold less
  split
  · rw [decide_eq_false_iff_not]
    omega
  · rw [decide_eq_false_iff_not]
    omega

theorem less_asymm (a b : Usage) (before : less a b = true) : less b a = false := by
  have notBehind : ¬ less a b = false := by simp [before]
  rw [less_eq_false] at notBehind ⊢
  omega

theorem less_trans (a b c : Usage) (first : less a b = false) (second : less b c = false) : less a c = false := by
  rw [less_eq_false] at first second ⊢
  omega

def queue : Queue Usage less :=
  .scanning less_asymm less_trans

/-- Count something about a name; a name not seen before is put at the end. -/
def note (count : Usage → Usage) (name : Name) (us : List Usage) : List Usage :=
  if us.any fun u => u.name = name then us.map fun u => if u.name = name then count u else u
  else us ++ [count ⟨name, us.length, 0, 0⟩]

def noteRead (us : List Usage) (name : Name) : List Usage :=
  note (fun u => { u with reads := u.reads + 1 }) name us

def noteWrite (us : List Usage) (name : Name) : List Usage :=
  note (fun u => { u with writes := u.writes + 1 }) name us

def noteAction (us : List Usage) (a : Action) : List Usage :=
  a.outputs.foldl noteWrite (a.inputs.foldl noteRead us)

/-- The names of a body in the order in which they appear, with their counts. -/
def ofBody (body : List Stmt) : List Usage :=
  body.foldl (fun us s => noteAction us s.action) []

end Usage

end MiniC.Storage
