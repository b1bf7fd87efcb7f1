import MiniC.Storage.Location
import MiniC.Machine.RegisterSet

namespace MiniC.Wire

inductive Major
  | natural
  | negative
  | text
  | array
  | map
  | special

def Major.bits : Major → Nat
  | .natural => 0
  | .negative => 1
  | .text => 3
  | .array => 4
  | .map => 5
  | .special => 7

def byte (m : Major) (low : Nat) : UInt8 :=
  (m.bits * 32 + low).toUInt8

def tag (m : Major) (n : Nat) : Bytes :=
  if n < 24 then [byte m n]
  else if n < 0x100 then byte m 24 :: Bytes.bigEndian 1 n
  else if n < 0x10000 then byte m 25 :: Bytes.bigEndian 2 n
  else if n < 0x100000000 then byte m 26 :: Bytes.bigEndian 4 n
  else byte m 27 :: Bytes.bigEndian 8 n

def text (s : Bytes) : Bytes :=
  tag .text s.length ++ s

/-- A number; a negative one is written as one more than its opposite. -/
def int (n : Int64) : Bytes :=
  if n < 0 then tag .negative ((-n).toUInt64 + 1).toNat else tag .natural n.toUInt64.toNat

def record (fields : List (Bytes × Bytes)) : Bytes :=
  tag .map fields.length ++ fields.flatMap fun (name, value) => text name ++ value

def location : Storage.Location → Bytes
  | .nowhere => []
  | .register r => record [("reg", text r.name)]
  | .stack offset size => record [("stack", int offset), ("size", int size)]
  | .memory label size => record [("mem", text label), ("size", int size)]

/-- A set of registers, as an array that is open to a closing byte. -/
def registers (s : RegisterSet) : Bytes :=
  [byte .array 31] ++ (s.toList.flatMap fun r => text r.name) ++ [byte .special 31]

end MiniC.Wire
