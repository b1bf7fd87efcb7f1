import MiniC.Assembly.OfStmt

namespace MiniC.Assembly

open Code Storage

structure Startup where
  entry : Name
  stackSize : Int64
  deriving DecidableEq, Repr

def Startup.default : Startup := ⟨"main", 4096⟩

def startupLabels : List Name :=
  ["_start", "halt", "stack_bottom", "stack_top"]

/-- The label of the bytes of a string. Names of the language have no dot in them. -/
def dataLabel (name : Name) : Name :=
  ".Ldata_" ++ name

def globalData (g : Global) : Except Error (List Line) :=
  match g.ty with
  | .int =>
    match g.init with
    | none => .ok [.directive (.align 3), .label g.name, .directive (.quad 0)]
    | some (.int n) => .ok [.directive (.align 3), .label g.name, .directive (.quad n)]
    | some v => fail (.initType .int v.ty)
  | .char =>
    match g.init with
    | none => .ok [.label g.name, .directive (.byte 0)]
    | some (.char c) => .ok [.label g.name, .directive (.byte c)]
    | some v => fail (.initType .char v.ty)
  | .string =>
    match g.init with
    | some (.str text) =>
      .ok [.label (dataLabel g.name), .directive (.string text), .directive (.align 3),
        .label g.name, .directive (.pointer (dataLabel g.name))]
    | _ => fail .noString
  | ty => fail (.globalType ty)

def global (functions : List Function) (seen : List Name) (g : Global) :
    Except Error (List Line) :=
  if g.name ∈ seen then fail (.redeclaredGlobal g.name)
  else if functions.any fun f => f.name == g.name then fail (.globalIsFunction g.name)
  else if g.name ∈ startupLabels then fail (.reservedGlobal g.name)
  else globalData g

def globals (functions : List Function) (seen : List Name) :
    List Global → Except Error (List Line)
  | [] => .ok []
  | g :: gs => do
    let first ← within (.global g.name) (global functions seen g)
    let rest ← globals functions (g.name :: seen) gs
    return first ++ rest

/-- Are the names of functions fit for labels, after those named in `seen`? -/
def checkFunctions (seen : List Name) : List Function → Except Error Unit
  | [] => .ok ()
  | f :: fs =>
    if f.name ∈ seen then fail (.redeclaredFunction f.name)
    else if f.name ∈ startupLabels then fail (.reservedFunction f.name)
    else checkFunctions (f.name :: seen) fs

/-- Parameters that live in the frame are put there from their argument registers. -/
def spillParams (l : Layout) : List Param → List Register → List Instr
  | p :: ps, r :: rs =>
    match l.get? p.name with
    | some (.stack offset _) => .store .word r offset .sp :: spillParams l ps rs
    | _ => spillParams l ps rs
  | _, _ => []

def saveSlot (s : Slot) : Option Instr :=
  s.saves.map fun r => .store .word r s.offset .sp

def restoreSlot (s : Slot) : Option Instr :=
  s.saves.map fun r => .load .word r s.offset .sp

def stmts (scope : Scope) : List Stmt → Except Error (List Line)
  | [] => .ok []
  | s :: ss => do
    let first ← stmt scope s
    let rest ← stmts scope ss
    return first ++ rest

def function (p : Program) (f : Function) : Except Error (List Line) :=
  match f.layout with
  | none => fail .noLayout
  | some l =>
    if ¬(fits (-l.size) ∧ fits l.size) then fail (.frameSize l.size)
    else if maxArgs < f.params.length then fail (.tooManyParams f.params.length)
    else do
      let enter := Instr.immediate .addi .sp .sp (-l.size) :: l.slots.filterMap saveSlot ++
        spillParams l f.params Register.args
      let body ← stmts ⟨p.functions, p.globals, l, f.exitLabel⟩ f.body
      let leave := (l.slots.filterMap restoreSlot).reverse ++
        [.immediate .addi .sp .sp l.size, .jumpRegister .ra]
      return [.blank, .label f.name] ++ enter.map .instr ++ body ++ [.label f.exitLabel] ++
        leave.map .instr

def functions (p : Program) : List Function → Except Error (List Line)
  | [] => .ok []
  | f :: fs =>
    if f.external then functions p fs
    else do
      let first ← within (.function f.name) (function p f)
      let rest ← functions p fs
      return first ++ rest

/-- The stack, and the code that calls the entry function on the first core. -/
def startup (s : Startup) : List Line :=
  [.directive (.segment ".bss"), .directive (.align 4), .label "stack_bottom",
    .directive (.space s.stackSize), .label "stack_top", .directive (.segment ".text"),
    .directive (.exported "_start"), .label "_start", .instr (.readHartId .t0),
    .instr (.branch .nonzero .t0 "halt"), .instr (.la .sp "stack_top"), .instr (.call s.entry),
    .instr (.jump "halt")]

def ofProgram (s : Startup) (p : Program) : Except Error (List Line) := do
  checkFunctions [] p.functions
  if !(p.functions.any fun f => f.name == s.entry && !f.external) then fail (.noEntry s.entry)
  let data ← globals p.functions [] p.globals
  let code ← functions p p.functions
  return [.directive (.align 2), .directive (.segment ".data")] ++ data ++ startup s ++ code ++
    [.label "halt", .instr (.jump "halt")]

end MiniC.Assembly
