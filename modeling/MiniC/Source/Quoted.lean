import MiniC.Fault
import MiniC.Text.Numeral

namespace MiniC.Source.Quoted

def escape (q c : UInt8) : Bytes :=
  if c = q ∨ c = Ascii.backslash then [Ascii.backslash, c]
  else if c = Ascii.newline then "\\n"
  else if c = Ascii.tab then "\\t"
  else if c = Ascii.carriageReturn then "\\r"
  else if c < 0x20 ∨ 0x7f ≤ c then "\\x" ++ Bytes.hex 2 c.toNat
  else [c]

def write (q : UInt8) (value : Bytes) : Bytes :=
  [q] ++ value.flatMap (escape q) ++ [q]

inductive Error
  | newline
  | shortHex
  | badHex (digits : Bytes) (error : Numeral.Error)
  | unknownEscape (c : UInt8)
  | unterminated
  deriving DecidableEq, Repr

def Error.message : Error → Bytes
  | .newline => "newline in literal"
  | .shortHex => "bad hex escape"
  | .badHex digits error => "hex escape: " ++ error.unsignedMessage digits
  | .unknownEscape c => "unknown escape: \\" ++ String.utf8EncodeChar (Char.ofNat c.toNat)
  | .unterminated => "unterminated literal"

def short? (c : UInt8) : Option UInt8 :=
  if c = 0x6e then some Ascii.newline
  else if c = 0x74 then some Ascii.tab
  else if c = 0x72 then some Ascii.carriageReturn
  else if c = Ascii.zero then some 0
  else if c = Ascii.backslash ∨ c = Ascii.apostrophe ∨ c = Ascii.quote then some c
  else none

/-- The value of a literal whose opening quote `q` is gone, and what follows its closing quote. -/
def read (q : UInt8) : Bytes → Except Error (Bytes × Bytes)
  | [] => .error .unterminated
  | c :: text =>
    if c = q then .ok ([], text)
    else if c = Ascii.newline then .error .newline
    else if c = Ascii.backslash then
      match text with
      | [] => .error .unterminated
      | 0x78 :: text =>
        match text with
        | a :: b :: text => do
          let n ← (Numeral.readIn 16 0xff [a, b]).mapError (.badHex [a, b])
          let (value, rest) ← read q text
          .ok (n.toUInt8 :: value, rest)
        | _ => .error .shortHex
      | e :: text =>
        match short? e with
        | some b => do
          let (value, rest) ← read q text
          .ok (b :: value, rest)
        | none => .error (.unknownEscape e)
    else do
      let (value, rest) ← read q text
      .ok (c :: value, rest)

theorem read_shorter {q : UInt8} {text value rest : Bytes} (ok : read q text = .ok (value, rest)) :
    rest.length < text.length := by
  fun_induction read q text generalizing value rest <;>
    simp_all [bind, Except.bind] <;> grind [mapError_ok, mapError_error]

end MiniC.Source.Quoted
