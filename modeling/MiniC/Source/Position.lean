import MiniC.Bytes

namespace MiniC.Source

structure Position where
  line : Nat
  column : Nat
  deriving DecidableEq, Repr

namespace Position

def nowhere : Position := ⟨0, 0⟩

def start : Position := ⟨1, 1⟩

def next (p : Position) (b : UInt8) : Position :=
  if b = Ascii.newline then ⟨p.line + 1, 1⟩ else ⟨p.line, p.column + 1⟩

def ofOffset (text : Bytes) (offset : Nat) : Position :=
  (text.take offset).foldl next start

def text (p : Position) : Bytes :=
  Bytes.ofNat p.line ++ ":" ++ Bytes.ofNat p.column

end Position

end MiniC.Source
