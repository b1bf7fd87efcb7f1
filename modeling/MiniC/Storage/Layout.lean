import MiniC.Machine.RegisterSet
import MiniC.Storage.Location

namespace MiniC.Storage

/-- A part of the frame: a variable, or a register that is saved there. -/
structure Slot where
  name : Name
  offset : Int64
  size : Int64
  saves : Option Register
  deriving DecidableEq, Repr

structure Layout where
  vars : List (Name × Location)
  slots : List Slot
  size : Int64
  deriving DecidableEq, Repr

namespace Layout

def empty : Layout := ⟨[], [], 0⟩

def get? (l : Layout) (name : Name) : Option Location :=
  l.vars.lookup name

def contains (l : Layout) (name : Name) : Bool :=
  (l.get? name).isSome

def put (name : Name) (place : Location) : List (Name × Location) → List (Name × Location)
  | [] => [(name, place)]
  | (n, p) :: vars => if n = name then (n, place) :: vars else (n, p) :: put name place vars

def set (l : Layout) (name : Name) (place : Location) : Layout :=
  { l with vars := put name place l.vars }

/-- The registers that hold names; none if one of them is negative. -/
def registers? (l : Layout) : Option RegisterSet :=
  RegisterSet.ofList? (l.vars.filterMap fun
    | (_, .register r) => some r
    | _ => none)

def usesRegister (l : Layout) (r : Register) : Bool :=
  l.vars.any fun (_, place) => place == .register r

def saved (l : Layout) : List Slot :=
  l.slots.filter fun s => s.saves.isSome

end Layout

end MiniC.Storage
