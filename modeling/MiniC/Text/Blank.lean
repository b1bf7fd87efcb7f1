import MiniC.Text.Utf8

namespace MiniC.Text

def isBlank (c : Char) : Bool :=
  let n := c.toNat
  (0x09 ≤ n && n ≤ 0x0d) || n == 0x20 || n == 0x85 || n == 0xa0 || n == 0x1680 ||
    (0x2000 ≤ n && n ≤ 0x200a) || n == 0x2028 || n == 0x2029 || n == 0x202f || n == 0x205f ||
    n == 0x3000

def isBlankPiece : Utf8.Piece → Bool
  | .char c => isBlank c
  | .stray _ => false

def trim (text : Bytes) : Bytes :=
  let inner := (Utf8.pieces text).dropWhile isBlankPiece
  ((inner.reverse.dropWhile isBlankPiece).reverse).flatMap Utf8.Piece.bytes

end MiniC.Text
