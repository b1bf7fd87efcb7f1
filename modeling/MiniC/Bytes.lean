namespace MiniC

section

variable {α : Type} (p : α → Prop) [DecidablePred p]

instance (priority := 2000) decidableForallMem (xs : List α) : Decidable (∀ x ∈ xs, p x) :=
  List.decidableBAll p xs

instance (priority := 2000) decidableForallMemOption (x : Option α) : Decidable (∀ y ∈ x, p y) :=
  x.decidableForallMem

end

abbrev Bytes := List UInt8

namespace Bytes

def ofString (s : String) : Bytes :=
  s.toList.flatMap String.utf8EncodeChar

instance : Coe String Bytes := ⟨ofString⟩

instance : LawfulBEq Bytes := List.instLawfulBEq

def ofNat (n : Nat) : Bytes :=
  (Nat.toDigits 10 n).map Char.toUInt8

def ofInt : Int → Bytes
  | .ofNat n => ofNat n
  | .negSucc n => "-" ++ ofNat (n + 1)

def hexDigit (n : Nat) : UInt8 :=
  (Nat.digitChar n).toUInt8

/-- The last `width` digits of a number in lower case hexadecimal. -/
def hex : (width : Nat) → Nat → Bytes
  | 0, _ => []
  | width + 1, n => hex width (n / 16) ++ [hexDigit (n % 16)]

def bigEndian : (width : Nat) → Nat → Bytes
  | 0, _ => []
  | width + 1, n => bigEndian width (n / 256) ++ [n.toUInt8]

def toBigEndian (bytes : Bytes) : Nat :=
  bytes.foldl (fun n b => n * 256 + b.toNat) 0

end Bytes

namespace Ascii

@[match_pattern] abbrev tab : UInt8 := 0x09
@[match_pattern] abbrev newline : UInt8 := 0x0a
@[match_pattern] abbrev carriageReturn : UInt8 := 0x0d
@[match_pattern] abbrev space : UInt8 := 0x20
@[match_pattern] abbrev quote : UInt8 := 0x22
@[match_pattern] abbrev apostrophe : UInt8 := 0x27
@[match_pattern] abbrev star : UInt8 := 0x2a
@[match_pattern] abbrev slash : UInt8 := 0x2f
@[match_pattern] abbrev zero : UInt8 := 0x30
@[match_pattern] abbrev nine : UInt8 := 0x39
@[match_pattern] abbrev backslash : UInt8 := 0x5c
@[match_pattern] abbrev underscore : UInt8 := 0x5f

def isDigit (c : UInt8) : Bool :=
  zero ≤ c && c ≤ nine

def isLetter (c : UInt8) : Bool :=
  (0x41 ≤ c && c ≤ 0x5a) || (0x61 ≤ c && c ≤ 0x7a) || c == underscore

def isWord (c : UInt8) : Bool :=
  isLetter c || isDigit c

/-- The lower case form of a letter; other bytes stay as they are. -/
def lower (c : UInt8) : UInt8 :=
  if 0x41 ≤ c ∧ c ≤ 0x5a then c + 0x20 else c

end Ascii

end MiniC
