import MiniC.Bytes

namespace MiniC.Assembly

def octal (c : UInt8) : Bytes :=
  [Bytes.hexDigit (c.toNat / 64), Bytes.hexDigit (c.toNat / 8 % 8), Bytes.hexDigit (c.toNat % 8)]

def escapeByte (c : UInt8) : Bytes :=
  if c = Ascii.quote ∨ c = Ascii.backslash then [Ascii.backslash, c]
  else if c = Ascii.newline then "\\n"
  else if c = Ascii.tab then "\\t"
  else if c = Ascii.carriageReturn then "\\r"
  else if c < 0x20 ∨ 0x7f ≤ c then "\\" ++ octal c
  else [c]

def escape (text : Bytes) : Bytes :=
  "\"" ++ text.flatMap escapeByte ++ "\""

end MiniC.Assembly
