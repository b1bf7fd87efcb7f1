import MiniC.Code.Operands

namespace MiniC.Storage

open Code

/-- The scratch registers lent to the operands of a statement so far. -/
structure Loan where
  names : Namer
  layout : Layout
  pool : List Register
  lent : Renaming
  places : List (Location × Register)

namespace Loan

/-- The scratch registers, in the order in which they are lent. A statement needs three at most. -/
def registers : List Register := Register.scratchPool.reverse

def start (names : Namer) (layout : Layout) (pool : List Register) : Loan :=
  ⟨names, layout, pool, [], []⟩

def lend (loan : Loan) (name : Name) : Loan :=
  if (loan.lent.lookup name).isSome then loan
  else
    match loan.layout.get? name, loan.pool with
    | none, _ | some (.register _), _ | _, [] => loan
    | some place, r :: pool =>
      let (tmp, names) := loan.names.fresh Name.scratch
      { names
        pool
        layout := loan.layout.set tmp (.register r)
        lent := loan.lent ++ [(name, tmp)]
        places := loan.places ++ [(place, r)] }

end Loan

/-- Statements together with the state of names and places after them. -/
structure Moved where
  code : List Stmt
  names : Namer
  layout : Layout

/-- A statement with the moves that it needs. Its label stays on the first statement. -/
def moveStmt (names : Namer) (layout : Layout) (s : Stmt) : Moved :=
  match s.action with
  | .call .. => ⟨[s], names, layout⟩
  | action =>
    let ins := action.inputs.foldl Loan.lend (.start names layout Loan.registers)
    let outs := action.outputs.foldl Loan.lend (.start ins.names ins.layout ins.pool)
    let before := ins.places.map fun (place, r) => Stmt.plain (.move place (.register r))
    let after := outs.places.map fun (place, r) => Stmt.plain (.move (.register r) place)
    let body := s.substitute ins.lent outs.lent
    match before with
    | [] => ⟨body :: after, outs.names, outs.layout⟩
    | first :: more =>
      ⟨first.withLabel s.label :: more ++ [body.withLabel []] ++ after, outs.names, outs.layout⟩

def moveBody (names : Namer) (layout : Layout) : List Stmt → Moved
  | [] => ⟨[], names, layout⟩
  | s :: body =>
    let first := moveStmt names layout s
    let rest := moveBody first.names first.layout body
    { rest with code := first.code ++ rest.code }

end MiniC.Storage
