import MiniC.Storage.Usage

namespace MiniC.Storage

open Code

/-- Places for globals. A name that has a place already is an error. -/
def placeGlobals (l : Layout) : List Global → Except Name Layout
  | [] => .ok l
  | g :: gs =>
    if l.contains g.name then .error g.name
    else placeGlobals (l.set g.name (.memory g.name g.ty.size)) gs

def placeParams (l : Layout) (params : List Param) : Layout :=
  params.foldl (fun l p => l.set p.name (.stack 0 slotSize)) l

/-- Places for the other names, in the order in which they choose. -/
def placeLocals (l : Layout) (free : List Register) : List Usage → Layout
  | [] => l
  | u :: us =>
    if l.contains u.name then placeLocals l free us
    else
      match free with
      | r :: others =>
        if u.reads = 0 then placeLocals (l.set u.name (.stack 0 slotSize)) free us
        else placeLocals (l.set u.name (.register r)) others us
      | [] => placeLocals (l.set u.name (.stack 0 slotSize)) [] us

/-- Places for all names, or the name of a global that is declared twice. -/
def place (queue : Queue Usage Usage.less) (globals : List Global) (params : List Param) (body : List Stmt) :
    Except Name Layout := do
  let l ← placeGlobals .empty globals
  .ok (placeLocals (placeParams l params) Register.locals (queue.sort (Usage.ofBody body)))

end MiniC.Storage
