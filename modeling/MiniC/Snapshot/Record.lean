import MiniC.Name
import MiniC.Ty

/-!
The records of a snapshot. How they are written is left to a codec.
-/

namespace MiniC.Snapshot

structure Value where
  ty : Ty := .void
  symbol : Bool := false
  int : Int64 := 0
  str : Bytes := []
  deriving DecidableEq, Repr

structure Param where
  name : Name := []
  ty : Ty := .void
  deriving DecidableEq, Repr

structure Global where
  name : Name := []
  ty : Ty := .void
  init : Option Value := none
  deriving DecidableEq, Repr

/-- A statement of any kind; fields that its kind does not use are empty. -/
structure Stmt where
  kind : UInt8 := 0
  label : Name := []
  op : Int64 := 0
  dest : Name := []
  a : Name := []
  b : Name := []
  args : List Name := []
  value : Option Value := none
  deriving DecidableEq, Repr

structure Function where
  name : Name := []
  result : Ty := .void
  params : List Param := []
  external : Bool := false
  body : List Stmt := []
  deriving DecidableEq, Repr

structure Program where
  version : Int64 := 0
  names : Int64 := 0
  globals : List Global := []
  functions : List Function := []
  deriving DecidableEq, Repr

/-- A way to write snapshots and to read them. A failure to read is a message. -/
structure Codec where
  encode : Program → Bytes
  decode : Bytes → Except Bytes Program

end MiniC.Snapshot
