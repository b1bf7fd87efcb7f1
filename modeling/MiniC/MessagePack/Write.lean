import MiniC.Bytes

namespace MiniC.MessagePack

def nil : Bytes := [0xc0]

def bool (b : Bool) : Bytes :=
  if b then [0xc3] else [0xc2]

def natural (n : Nat) : Bytes :=
  if n < 0x80 then [n.toUInt8]
  else if n < 0x100 then 0xcc :: Bytes.bigEndian 1 n
  else if n < 0x10000 then 0xcd :: Bytes.bigEndian 2 n
  else if n < 0x100000000 then 0xce :: Bytes.bigEndian 4 n
  else 0xcf :: Bytes.bigEndian 8 n

def int (n : Int64) : Bytes :=
  let bits := n.toUInt64.toNat
  if 0 ≤ n then natural bits
  else if -0x20 ≤ n.toInt then Bytes.bigEndian 1 bits
  else if -0x80 ≤ n.toInt then 0xd0 :: Bytes.bigEndian 1 bits
  else if -0x8000 ≤ n.toInt then 0xd1 :: Bytes.bigEndian 2 bits
  else if -0x80000000 ≤ n.toInt then 0xd2 :: Bytes.bigEndian 4 bits
  else 0xd3 :: Bytes.bigEndian 8 bits

def int64 (n : Int64) : Bytes :=
  0xd3 :: Bytes.bigEndian 8 n.toUInt64.toNat

def uint8 (n : UInt8) : Bytes :=
  [0xcc, n]

def text (s : Bytes) : Bytes :=
  let n := s.length
  (if n < 0x20 then [(0xa0 + n).toUInt8]
   else if n < 0x100 then 0xd9 :: Bytes.bigEndian 1 n
   else if n < 0x10000 then 0xda :: Bytes.bigEndian 2 n
   else 0xdb :: Bytes.bigEndian 4 n) ++ s

def array (items : List Bytes) : Bytes :=
  let n := items.length
  (if n < 0x10 then [(0x90 + n).toUInt8]
   else if n < 0x10000 then 0xdc :: Bytes.bigEndian 2 n
   else 0xdd :: Bytes.bigEndian 4 n) ++ items.flatten

/-- A record of at most fifteen fields, each a name and a written value. -/
def record (fields : List (Bytes × Bytes)) : Bytes :=
  (0x80 + fields.length).toUInt8 :: fields.flatMap fun (name, value) => text name ++ value

end MiniC.MessagePack
