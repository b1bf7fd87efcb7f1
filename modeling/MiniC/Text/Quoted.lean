import MiniC.Text.Printable

namespace MiniC.Text.Quoted

def short? : Nat → Option Bytes
  | 0x07 => some "\\a"
  | 0x08 => some "\\b"
  | 0x09 => some "\\t"
  | 0x0a => some "\\n"
  | 0x0b => some "\\v"
  | 0x0c => some "\\f"
  | 0x0d => some "\\r"
  | _ => none

def char (q c : Char) : Bytes :=
  if c = q ∨ c = '\\' then "\\" ++ String.utf8EncodeChar c
  else if isPrintable c then String.utf8EncodeChar c
  else
    match short? c.toNat with
    | some escape => escape
    | none =>
      if c.toNat < 0x20 ∨ c.toNat = 0x7f then "\\x" ++ Bytes.hex 2 c.toNat
      else if c.toNat < 0x10000 then "\\u" ++ Bytes.hex 4 c.toNat
      else "\\U" ++ Bytes.hex 8 c.toNat

def piece (q : Char) : Utf8.Piece → Bytes
  | .char c => char q c
  | .stray b => "\\x" ++ Bytes.hex 2 b.toNat

def double (text : Bytes) : Bytes :=
  "\"" ++ (Utf8.pieces text).flatMap (piece '"') ++ "\""

def single (b : UInt8) : Bytes :=
  "'" ++ char '\'' (Char.ofNat b.toNat) ++ "'"

end MiniC.Text.Quoted
