import MiniC.Assembly.Escape
import MiniC.Machine.Register
import MiniC.Name

namespace MiniC.Assembly

inductive Arith
  | add
  | sub
  | mul
  | div
  | rem
  | and
  | or
  | xor
  | sll
  | srl
  | slt
  deriving DecidableEq, Repr

def Arith.text : Arith → Bytes
  | .add => "add"
  | .sub => "sub"
  | .mul => "mul"
  | .div => "div"
  | .rem => "rem"
  | .and => "and"
  | .or => "or"
  | .xor => "xor"
  | .sll => "sll"
  | .srl => "srl"
  | .slt => "slt"

inductive Unary
  | neg
  | not
  | seqz
  | snez
  deriving DecidableEq, Repr

def Unary.text : Unary → Bytes
  | .neg => "neg"
  | .not => "not"
  | .seqz => "seqz"
  | .snez => "snez"

/-- Operations on a register and a number. -/
inductive Immediate
  | addi
  | andi
  deriving DecidableEq, Repr

def Immediate.text : Immediate → Bytes
  | .addi => "addi"
  | .andi => "andi"

/-- How much is read from or written to memory. -/
inductive Width
  | byte
  | word
  deriving DecidableEq, Repr

def Width.load : Width → Bytes
  | .byte => "lbu"
  | .word => "ld"

def Width.store : Width → Bytes
  | .byte => "sb"
  | .word => "sd"

inductive Condition
  | zero
  | nonzero
  deriving DecidableEq, Repr

def Condition.text : Condition → Bytes
  | .zero => "beqz"
  | .nonzero => "bnez"

inductive Instr
  | li (rd : Register) (value : Int64)
  | la (rd : Register) (symbol : Name)
  | arith (op : Arith) (rd rs₁ rs₂ : Register)
  | unary (op : Unary) (rd rs : Register)
  | immediate (op : Immediate) (rd rs : Register) (value : Int64)
  | load (width : Width) (rd : Register) (offset : Int64) (base : Register)
  | store (width : Width) (rs : Register) (offset : Int64) (base : Register)
  | jump (target : Name)
  | branch (condition : Condition) (rs : Register) (target : Name)
  | call (target : Name)
  | jumpRegister (rs : Register)
  | readHartId (rd : Register)
  deriving DecidableEq, Repr

def operation (name : Bytes) (operands : List Bytes) : Bytes :=
  "\t" ++ name ++ "\t" ++ List.intercalate ", " operands ++ "\n"

def address (offset : Int64) (base : Register) : Bytes :=
  Bytes.ofInt offset.toInt ++ "(" ++ base.name ++ ")"

def Instr.text : Instr → Bytes
  | .li rd value => operation "li" [rd.name, Bytes.ofInt value.toInt]
  | .la rd symbol => operation "la" [rd.name, symbol]
  | .arith op rd rs₁ rs₂ => operation op.text [rd.name, rs₁.name, rs₂.name]
  | .unary op rd rs => operation op.text [rd.name, rs.name]
  | .immediate op rd rs value => operation op.text [rd.name, rs.name, Bytes.ofInt value.toInt]
  | .load width rd offset base => operation width.load [rd.name, address offset base]
  | .store width rs offset base => operation width.store [rs.name, address offset base]
  | .jump target => operation "j" [target]
  | .branch condition rs target => operation condition.text [rs.name, target]
  | .call target => operation "call" [target]
  | .jumpRegister rs => operation "jr" [rs.name]
  | .readHartId rd => operation "csrr" [rd.name, "mhartid"]

inductive Directive
  | align (bits : Nat)
  | segment (name : Name)
  | space (size : Int64)
  | exported (name : Name)
  | quad (value : Int64)
  | byte (value : UInt8)
  | string (text : Bytes)
  | pointer (name : Name)
  deriving DecidableEq, Repr

def Directive.text : Directive → Bytes
  | .align bits => operation ".align" [Bytes.ofNat bits]
  | .segment name => operation ".section" [name]
  | .space size => operation ".space" [Bytes.ofInt size.toInt]
  | .exported name => operation ".global" [name]
  | .quad value => operation ".quad" [Bytes.ofInt value.toInt]
  | .byte value => operation ".byte" [Bytes.ofNat value.toNat]
  | .string text => operation ".string" [escape text]
  | .pointer name => operation ".dword" [name]

inductive Line
  | blank
  | label (name : Name)
  | directive (d : Directive)
  | instr (i : Instr)
  deriving DecidableEq, Repr

def Line.text : Line → Bytes
  | .blank => "\n"
  | .label name => name ++ ":\n"
  | .directive d => d.text
  | .instr i => i.text

def text (lines : List Line) : Bytes :=
  lines.flatMap Line.text

end MiniC.Assembly
