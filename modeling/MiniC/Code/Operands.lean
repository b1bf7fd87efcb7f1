import MiniC.Code.Basic

namespace MiniC.Code

namespace Action

def inputs : Action → List Name
  | .binary _ _ left right => [left, right]
  | .unary _ _ arg => [arg]
  | .branch _ var _ => [var]
  | .call _ args _ => args
  | .ret var => if var = [] then [] else [var]
  | .nop | .store .. | .jump _ | .move .. => []

def outputs : Action → List Name
  | .store dest _ => [dest]
  | .binary _ dest _ _ => [dest]
  | .unary _ dest _ => [dest]
  | .call _ _ result => if result = [] then [] else [result]
  | .nop | .jump _ | .branch .. | .ret _ | .move .. => []

end Action

abbrev Renaming := List (Name × Name)

def Renaming.apply (r : Renaming) (name : Name) : Name :=
  (r.lookup name).getD name

namespace Action

/-- The action on other names: `ins` for those it reads and `outs` for those it writes. -/
def substitute (ins outs : Renaming) : Action → Action
  | .store dest value => .store (outs.apply dest) value
  | .binary op dest left right => .binary op (outs.apply dest) (ins.apply left) (ins.apply right)
  | .unary op dest arg => .unary op (outs.apply dest) (ins.apply arg)
  | .branch check var target => .branch check (ins.apply var) target
  | .call callee args result =>
    .call callee (args.map ins.apply) (if result = [] then [] else outs.apply result)
  | .ret var => .ret (if var = [] then [] else ins.apply var)
  | .nop => .nop
  | .jump target => .jump target
  | .move src dst => .move src dst

end Action

def Stmt.substitute (ins outs : Renaming) (s : Stmt) : Stmt :=
  { s with action := s.action.substitute ins outs }

end MiniC.Code
