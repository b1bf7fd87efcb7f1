import MiniC.Machine.Register
import MiniC.Name

namespace MiniC.Storage

/-- A place for a value: a register, a part of the stack frame, or labelled memory. A name may also
have been given no place. -/
inductive Location
  | nowhere
  | register (r : Register)
  | stack (offset size : Int64)
  | memory (label : Name) (size : Int64)
  deriving DecidableEq, Repr

namespace Location

def text : Location → Bytes
  | .nowhere => "<nil>"
  | .register r => r.name
  | .stack offset _ => Bytes.ofInt offset.toInt ++ "(sp)"
  | .memory label _ => label

end Location

def slotSize : Int64 := 8

end MiniC.Storage
