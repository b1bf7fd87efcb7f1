import MiniC.Assembly.Error
import MiniC.Assembly.Line

namespace MiniC.Assembly

open Code Storage

structure Scope where
  functions : List Function
  globals : List Global
  layout : Layout
  exit : Name

def fits (n : Int64) : Bool :=
  -2048 ≤ n && n < 2048

/-- Memory of one byte is read and written as a byte, any other as a word. -/
def widthOf (size : Int64) : Width :=
  if size = 1 then .byte else .word

/-- The value at a place moved to another. One of the two has to be a register. -/
def move (src dst : Location) : Except Error (List Instr) :=
  match src, dst with
  | .register s, .register d => .ok [.immediate .addi d s 0]
  | .register s, .stack offset _ =>
    if fits offset then .ok [.store .word s offset .sp] else fail (.stackOffset offset)
  | .register s, .memory label size =>
    .ok [.la .temporary label, .store (widthOf size) s 0 .temporary]
  | .stack offset _, .register d =>
    if fits offset then .ok [.load .word d offset .sp] else fail (.stackOffset offset)
  | .memory label size, .register d =>
    .ok [.la .temporary label, .load (widthOf size) d 0 .temporary]
  | _, _ => fail (.unsupportedMove src dst)

namespace Scope

/-- The place of a name: that of the layout, or else the global of that name. -/
def resolve (scope : Scope) (name : Name) : Except Error Location :=
  match scope.layout.get? name with
  | some place => .ok place
  | none =>
    match scope.globals.find? fun g => g.name = name with
    | some g => .ok (.memory g.name g.ty.size)
    | none => fail (.unknownName name)

def register (scope : Scope) (name : Name) : Except Error Register := do
  match ← scope.resolve name with
  | .register r => .ok r
  | place => fail (.notInRegister name place)

end Scope

def resultRegister : Register := .a0

def store (scope : Scope) (dest : Name) (value : Option Value) : Except Error (List Instr) := do
  let dst ← scope.resolve dest
  match value with
  | some (.int n) => return .li .temporary n :: (← move (.register .temporary) dst)
  | some (.char c) =>
    return .li .temporary (Int64.ofNat c.toNat) :: (← move (.register .temporary) dst)
  | some (.symbol name) => move (← scope.resolve name) dst
  | some (.str _) | none => fail (.unsupportedValue value)

def binary (op : BinOp) (d l r : Register) : Except Error (List Instr) :=
  match op with
  | .add => .ok [.arith .add d l r]
  | .sub => .ok [.arith .sub d l r]
  | .mul => .ok [.arith .mul d l r]
  | .div => .ok [.arith .div d l r]
  | .rem => .ok [.arith .rem d l r]
  | .lt => .ok [.arith .slt d l r]
  | .gt => .ok [.arith .slt d r l]
  | .eq => .ok [.arith .sub .temporary l r, .unary .seqz d .temporary]
  | .ne => .ok [.arith .sub .temporary l r, .unary .snez d .temporary]
  | .bitAnd => .ok [.arith .and d l r]
  | .bitOr => .ok [.arith .or d l r]
  | .bitXor => .ok [.arith .xor d l r]
  | .shiftLeft => .ok [.arith .sll d l r]
  | .shiftRight => .ok [.arith .srl d l r]
  | .logAnd => .ok [.arith .and .temporary l r, .immediate .andi d .temporary 1]
  | .logOr => .ok [.arith .or .temporary l r, .immediate .andi d .temporary 1]
  | .unknown _ _ => fail (.unsupportedBinary op)

def unary (op : UnOp) (d a : Register) : Except Error (List Instr) :=
  match op with
  | .minus => .ok [.unary .neg d a]
  | .bitNeg => .ok [.unary .not d a]
  | .logNeg => .ok [.unary .not .temporary a, .immediate .andi d .temporary 1]
  | .copy => .ok [.immediate .addi d a 0]
  | .unknown _ _ => fail (.unsupportedUnary op)

/-- Arguments moved into argument registers, from the one numbered `index` on. -/
def moveArgs (scope : Scope) (index : Nat) : List Name → List Register → Except Error (List Instr)
  | arg :: args, r :: rs => do
    let src ← scope.resolve arg
    let first ← within (.arg index) (move src (.register r))
    let rest ← moveArgs scope (index + 1) args rs
    return first ++ rest
  | _, _ => .ok []

def call (scope : Scope) (callee : Name) (args : List Name) (result : Name) :
    Except Error (List Instr) :=
  match scope.functions.find? fun f => f.name = callee with
  | none => fail (.unknownFunction callee)
  | some f =>
    if f.params.length ≠ args.length then fail (.argCount callee f.params.length args.length)
    else if maxArgs < args.length then fail (.tooManyArgs callee args.length)
    else do
      let before ← moveArgs scope 0 args Register.args
      if result = [] then return before ++ [.call callee]
      else
        let dst ← scope.resolve result
        let after ← move (.register resultRegister) dst
        return before ++ .call callee :: after

def action (scope : Scope) : Action → Except Error (List Instr)
  | .nop => .ok []
  | .move src dst => move src dst
  | .store dest value => store scope dest value
  | .binary op dest left right => do
    let d ← scope.register dest
    let l ← scope.register left
    let r ← scope.register right
    binary op d l r
  | .unary op dest arg => do
    let d ← scope.register dest
    let a ← scope.register arg
    unary op d a
  | .jump target => .ok [.jump target]
  | .branch check var target => do
    let r ← scope.register var
    match check with
    | .zero => .ok [.branch .zero r target]
    | .nonzero => .ok [.branch .nonzero r target]
    | .unknown _ _ => fail (.unsupportedJump check)
  | .call callee args result => call scope callee args result
  | .ret var =>
    if var = [] then .ok [.jump scope.exit]
    else do
      let src ← scope.resolve var
      let code ← move src (.register resultRegister)
      return code ++ [.jump scope.exit]

def stmt (scope : Scope) (s : Stmt) : Except Error (List Line) := do
  let code ← within (.stmt s.action) (action scope s.action)
  return (if s.label = [] then [] else [.label s.label]) ++ code.map .instr

end MiniC.Assembly
