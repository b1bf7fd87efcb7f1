import MiniC.Storage.Layout

namespace MiniC.Storage.Layout

/-- The registers that a function has to keep for its caller: the return address and the frame
pointer always, others if it uses them. -/
def registersToSave (l : Layout) : List Register :=
  Register.calleeSaved.filter fun r => r = .ra ∨ r = .fp ∨ l.usesRegister r

/-- Slots for saved registers from `offset` on, and where they end. -/
def saveSlots (offset : Int64) : List Register → List Slot × Int64
  | [] => ([], offset)
  | r :: rs =>
    let (slots, stop) := saveSlots (offset + slotSize) rs
    (⟨r.name, offset, slotSize, some r⟩ :: slots, stop)

/-- Places for the variables in the frame from `offset` on, their slots, and where they end. -/
def placeVars (offset : Int64) :
    List (Name × Location) → List (Name × Location) × List Slot × Int64
  | [] => ([], [], offset)
  | (name, .stack _ size) :: vars =>
    let (vars, slots, stop) := placeVars (offset + size) vars
    ((name, .stack offset size) :: vars, ⟨name, offset, size, none⟩ :: slots, stop)
  | var :: vars =>
    let (vars, slots, stop) := placeVars offset vars
    (var :: vars, slots, stop)

/-- The layout with a frame that keeps the registers `saved`. -/
def keeping (l : Layout) (saved : List Register) : Layout :=
  let (saves, offset) := saveSlots 0 saved
  let (vars, slots, size) := placeVars offset l.vars
  ⟨vars, saves ++ slots, size⟩

def withFrame (l : Layout) : Layout :=
  l.keeping l.registersToSave

def isSaved? (used : RegisterSet) (r : Register) : Option Bool :=
  if r = .ra ∨ r = .fp then some true else used.contains? r

def toSave? (used : RegisterSet) : List Register → Option (List Register)
  | [] => some []
  | r :: rs => do
    let isSaved ← isSaved? used r
    let saved ← toSave? used rs
    return if isSaved then r :: saved else saved

/-- The layout with its frame laid out; none if a name lives in a negative register. -/
def withFrame? (l : Layout) : Option Layout := do
  let used ← l.registers?
  let saved ← toSave? used Register.calleeSaved
  return l.keeping saved

end MiniC.Storage.Layout
