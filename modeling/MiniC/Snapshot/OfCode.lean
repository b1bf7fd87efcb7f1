import MiniC.Code.Basic
import MiniC.Fault
import MiniC.Snapshot.Record

namespace MiniC.Snapshot

def currentVersion : Int64 := 1

/-- The statement of a function that an error is about. -/
inductive Step
  | stmt (function : Name) (index : Nat)
  deriving DecidableEq, Repr

def Step.text : Step → Bytes
  | .stmt function index => "func " ++ function ++ ": stmt " ++ Bytes.ofNat index

inductive PackCause
  | move
  | noValue
  deriving DecidableEq, Repr

def PackCause.text : PackCause → Bytes
  | .move => "can't pack ir.Move"
  | .noValue => "unsupported value: <nil>"

abbrev PackError := Fault Step PackCause

def PackError.message (e : PackError) : Bytes :=
  Fault.message Step.text PackCause.text e

def Value.ofCode : Code.Value → Value
  | .int n => { ty := .int, int := n }
  | .char c => { ty := .char, int := Int64.ofNat c.toNat }
  | .str s => { ty := .string, str := s }
  | .symbol name => { ty := .string, symbol := true, str := name }

def Stmt.ofCode (s : Code.Stmt) : Except PackError Stmt :=
  let label := s.label
  match s.action with
  | .nop => .ok { label, kind := 0 }
  | .store dest (some value) => .ok { label, kind := 1, dest, value := some (.ofCode value) }
  | .store _ none => fail .noValue
  | .binary op dest left right => .ok { label, kind := 2, op := op.code, dest, a := left, b := right }
  | .unary op dest arg => .ok { label, kind := 3, op := op.code, dest, a := arg }
  | .jump target => .ok { label, kind := 4, a := target }
  | .branch check var target => .ok { label, kind := 5, op := check.code, a := var, b := target }
  | .call callee args result => .ok { label, kind := 6, a := callee, args, dest := result }
  | .ret var => .ok { label, kind := 7, a := var }
  | .move _ _ => fail .move

/-- The statements of a function from the one numbered `index` on. -/
def bodyOfCode (function : Name) (index : Nat) : List Code.Stmt → Except PackError (List Stmt)
  | [] => .ok []
  | s :: body => do
    let first ← within (.stmt function index) (Stmt.ofCode s)
    let rest ← bodyOfCode function (index + 1) body
    .ok (first :: rest)

def Param.ofCode (p : Code.Param) : Param :=
  { name := p.name, ty := p.ty }

def Global.ofCode (g : Code.Global) : Global :=
  { name := g.name, ty := g.ty, init := g.init.map Value.ofCode }

def Function.ofCode (f : Code.Function) : Except PackError Function := do
  let body ← bodyOfCode f.name 0 f.body
  .ok { name := f.name, result := f.result, params := f.params.map Param.ofCode,
        external := f.external, body }

def Program.ofCode (p : Code.Program) : Except PackError Program := do
  let functions ← p.functions.mapM Function.ofCode
  .ok { version := currentVersion, names := p.names.count, globals := p.globals.map Global.ofCode,
        functions }

def pack (codec : Codec) (p : Code.Program) : Except PackError Bytes := do
  let record ← Program.ofCode p
  .ok (codec.encode record)

inductive UnpackCause
  | noValue
  | unknownKind (kind : UInt8)
  deriving DecidableEq, Repr

def UnpackCause.text : UnpackCause → Bytes
  | .noValue => "store without value"
  | .unknownKind kind => "unknown stmt kind: " ++ Bytes.ofNat kind.toNat

inductive UnpackError
  | decode (message : Bytes)
  | version (found : Int64)
  | stmt (fault : Fault Step UnpackCause)
  deriving DecidableEq, Repr

def UnpackError.message : UnpackError → Bytes
  | .decode message => "decode: " ++ message
  | .version found => "unsupported ir pack version: " ++ Bytes.ofInt found.toInt
  | .stmt fault => Fault.message Step.text UnpackCause.text fault

def Value.toCode (v : Value) : Code.Value :=
  match v.ty, v.symbol with
  | .char, _ => .char v.int.toUInt64.toUInt8
  | .string, true => .symbol v.str
  | .string, false => .str v.str
  | _, _ => .int v.int

def Stmt.toAction (s : Stmt) : Except (Fault Step UnpackCause) Code.Action :=
  match s.kind with
  | 0 => .ok .nop
  | 1 =>
    match s.value with
    | some value => .ok (.store s.dest (some value.toCode))
    | none => fail .noValue
  | 2 => .ok (.binary (.ofCode s.op) s.dest s.a s.b)
  | 3 => .ok (.unary (.ofCode s.op) s.dest s.a)
  | 4 => .ok (.jump s.a)
  | 5 => .ok (.branch (.ofCode s.op) s.a s.b)
  | 6 => .ok (.call s.a s.args s.dest)
  | 7 => .ok (.ret s.a)
  | kind => fail (.unknownKind kind)

def bodyToCode (function : Name) (index : Nat) :
    List Stmt → Except (Fault Step UnpackCause) (List Code.Stmt)
  | [] => .ok []
  | s :: body => do
    let action ← within (.stmt function index) s.toAction
    let rest ← bodyToCode function (index + 1) body
    .ok (⟨s.label, action⟩ :: rest)

def Param.toCode (p : Param) : Code.Param :=
  ⟨p.ty, p.name⟩

def Global.toCode (g : Global) : Code.Global :=
  ⟨g.name, g.ty, g.init.map Value.toCode⟩

def Function.toCode (f : Function) : Except (Fault Step UnpackCause) Code.Function := do
  let body ← bodyToCode f.name 0 f.body
  .ok ⟨f.name, f.result, f.params.map Param.toCode, f.external, body, none⟩

def Program.toCode (p : Program) : Except (Fault Step UnpackCause) Code.Program := do
  let functions ← p.functions.mapM Function.toCode
  .ok ⟨⟨p.names⟩, p.globals.map Global.toCode, functions⟩

def unpack (codec : Codec) (bytes : Bytes) : Except UnpackError Code.Program := do
  let record ← (codec.decode bytes).mapError .decode
  if record.version ≠ currentVersion then .error (.version record.version)
  else record.toCode.mapError .stmt

end MiniC.Snapshot
