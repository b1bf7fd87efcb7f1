import MiniC.Bytes

namespace MiniC.Utf8

def tails? : (count bits : Nat) → Bytes → Option (Nat × Bytes)
  | 0, bits, text => some (bits, text)
  | _ + 1, _, [] => none
  | count + 1, bits, b :: text =>
    if 0x80 ≤ b ∧ b < 0xc0 then tails? count (bits * 64 + (b.toNat - 0x80)) text else none

theorem tails?_le {count bits n : Nat} {text rest : Bytes}
    (read : tails? count bits text = some (n, rest)) : rest.length ≤ text.length := by
  induction count generalizing bits text with
  | zero => simp_all [tails?]
  | succ count ih =>
    cases text with
    | nil => simp [tails?] at read
    | cons b text =>
      simp only [tails?] at read
      split at read
      · exact Nat.le_succ_of_le (ih read)
      · simp at read

def long? (count least bits : Nat) (text : Bytes) : Option (Char × Bytes) :=
  match tails? count bits text with
  | some (n, rest) => if least ≤ n ∧ n.isValidChar then some (Char.ofNat n, rest) else none
  | none => none

theorem long?_le {count least bits : Nat} {text rest : Bytes} {c : Char}
    (read : long? count least bits text = some (c, rest)) : rest.length ≤ text.length := by
  unfold long? at read
  split at read
  · next tails =>
    split at read
    · simp only [Option.some.injEq, Prod.mk.injEq] at read
      exact read.2 ▸ tails?_le tails
    · simp at read
  · simp at read

def char? : Bytes → Option (Char × Bytes)
  | [] => none
  | a :: text =>
    if a < 0x80 then some (Char.ofNat a.toNat, text)
    else if a < 0xc0 then none
    else if a < 0xe0 then long? 1 0x80 (a.toNat - 0xc0) text
    else if a < 0xf0 then long? 2 0x800 (a.toNat - 0xe0) text
    else long? 3 0x10000 (a.toNat - 0xf0) text

theorem char?_shorter {text rest : Bytes} {c : Char} (read : char? text = some (c, rest)) :
    rest.length < text.length := by
  cases text with
  | nil => simp [char?] at read
  | cons a text =>
    simp only [char?] at read
    split at read
    · simp_all
    split at read
    · simp at read
    repeat' split at read
    all_goals exact Nat.lt_succ_of_le (long?_le read)

/-- A part of a text: a character, or a byte that belongs to none. -/
inductive Piece
  | char (c : Char)
  | stray (b : UInt8)
  deriving DecidableEq, Repr

def Piece.bytes : Piece → Bytes
  | .char c => String.utf8EncodeChar c
  | .stray b => [b]

def pieces (text : Bytes) : List Piece :=
  match text with
  | [] => []
  | b :: text =>
    match _read : char? (b :: text) with
    | some (c, rest) => .char c :: pieces rest
    | none => .stray b :: pieces text
termination_by text.length
decreasing_by
  · exact char?_shorter _read
  · simp

end MiniC.Utf8
