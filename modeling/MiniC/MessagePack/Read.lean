import MiniC.Bytes

namespace MiniC.MessagePack

inductive Item
  | nil
  | bool (b : Bool)
  | int (n : Int)
  | text (s : Bytes)
  | array (items : List Item)
  | map (entries : List (Item × Item))
  | other
  deriving Repr

inductive ReadError
  | endOfInput
  | truncated
  | notRecord (code : UInt8)
  | malformed
  deriving DecidableEq, Repr

def ReadError.message : ReadError → Bytes
  | .endOfInput => "EOF"
  | .truncated => "unexpected EOF"
  | .notRecord code =>
    "msgpack: invalid code=" ++ Bytes.hex (if code < 0x10 then 1 else 2) code.toNat ++
      " decoding map length"
  | .malformed => "malformed"

def ReadError.short (input : Bytes) : ReadError :=
  if input.isEmpty then .endOfInput else .truncated

/-- The start of an item: all of it, or what is still to be read. -/
inductive Head
  | item (i : Item)
  | text (size : Nat)
  | skip (size : Nat)
  | array (count : Nat)
  | map (count : Nat)

def split? (n : Nat) (input : Bytes) : Option (Bytes × Bytes) :=
  if n ≤ input.length then some (input.take n, input.drop n) else none

/-- A number in the next `width` bytes, and what its head makes of it. -/
def sized (width : Nat) (make : Nat → Head) (input : Bytes) : Except ReadError (Head × Bytes) :=
  match split? width input with
  | some (digits, rest) => .ok (make (Bytes.toBigEndian digits), rest)
  | none => .error (.short input)

def unsigned (n : Nat) : Head := .item (.int n)

/-- The number of `width` bytes that is negative if its first bit is set. -/
def signed (width : Nat) (n : Nat) : Head :=
  .item (.int (if n < Nat.pow 2 (8 * width - 1) then (n : Int) else (n : Int) - Nat.pow 2 (8 * width)))

def head (c : UInt8) (input : Bytes) : Except ReadError (Head × Bytes) :=
  if c < 0x80 then .ok (unsigned c.toNat, input)
  else if c < 0x90 then .ok (.map (c.toNat - 0x80), input)
  else if c < 0xa0 then .ok (.array (c.toNat - 0x90), input)
  else if c < 0xc0 then .ok (.text (c.toNat - 0xa0), input)
  else if 0xe0 ≤ c then .ok (signed 1 c.toNat, input)
  else
    match c with
    | 0xc0 => .ok (.item .nil, input)
    | 0xc2 => .ok (.item (.bool false), input)
    | 0xc3 => .ok (.item (.bool true), input)
    | 0xc4 => sized 1 .text input
    | 0xc5 => sized 2 .text input
    | 0xc6 => sized 4 .text input
    | 0xc7 => sized 1 (fun n => .skip (n + 1)) input
    | 0xc8 => sized 2 (fun n => .skip (n + 1)) input
    | 0xc9 => sized 4 (fun n => .skip (n + 1)) input
    | 0xca => .ok (.skip 4, input)
    | 0xcb => .ok (.skip 8, input)
    | 0xcc => sized 1 unsigned input
    | 0xcd => sized 2 unsigned input
    | 0xce => sized 4 unsigned input
    | 0xcf => sized 8 unsigned input
    | 0xd0 => sized 1 (signed 1) input
    | 0xd1 => sized 2 (signed 2) input
    | 0xd2 => sized 4 (signed 4) input
    | 0xd3 => sized 8 (signed 8) input
    | 0xd4 => .ok (.skip 2, input)
    | 0xd5 => .ok (.skip 3, input)
    | 0xd6 => .ok (.skip 5, input)
    | 0xd7 => .ok (.skip 9, input)
    | 0xd8 => .ok (.skip 17, input)
    | 0xd9 => sized 1 .text input
    | 0xda => sized 2 .text input
    | 0xdb => sized 4 .text input
    | 0xdc => sized 2 .array input
    | 0xdd => sized 4 .array input
    | 0xde => sized 2 .map input
    | 0xdf => sized 4 .map input
    | _ => .error .malformed

theorem split?_le {n : Nat} {input taken rest : Bytes} (ok : split? n input = some (taken, rest)) :
    rest.length ≤ input.length := by
  unfold split? at ok
  split at ok
  · simp only [Option.some.injEq, Prod.mk.injEq] at ok
    rw [← ok.2, List.length_drop]
    omega
  · simp at ok

theorem sized_le {width : Nat} {make : Nat → Head} {input rest : Bytes} {h : Head}
    (ok : sized width make input = .ok (h, rest)) : rest.length ≤ input.length := by
  unfold sized at ok
  split at ok
  · next found =>
    simp only [Except.ok.injEq, Prod.mk.injEq] at ok
    exact ok.2 ▸ split?_le found
  · simp at ok

theorem head_le {c : UInt8} {input rest : Bytes} {h : Head} (ok : head c input = .ok (h, rest)) :
    rest.length ≤ input.length := by
  unfold head at ok
  repeat' split at ok
  all_goals try exact sized_le ok
  all_goals simp_all

def pairUp : List Item → List (Item × Item)
  | key :: value :: items => (key, value) :: pairUp items
  | _ => []

mutual

def read (input : Bytes) :
    Except ReadError (Item × { rest : Bytes // rest.length < input.length }) :=
  match input with
  | [] => .error .endOfInput
  | c :: input =>
    match found : head c input with
    | .error e => .error e
    | .ok (h, rest) =>
      have shorter := head_le found
      match h with
      | .item i => .ok (i, ⟨rest, by simp only [List.length_cons]; omega⟩)
      | .text size =>
        match cut : split? size rest with
        | some (s, rest') => .ok (.text s, ⟨rest', by have := split?_le cut; simp; omega⟩)
        | none => .error (.short rest)
      | .skip size =>
        match cut : split? size rest with
        | some (_, rest') => .ok (.other, ⟨rest', by have := split?_le cut; simp; omega⟩)
        | none => .error (.short rest)
      | .array count => do
        let (items, ⟨rest', shorter'⟩) ← readMany count rest
        .ok (.array items, ⟨rest', by simp only [List.length_cons]; omega⟩)
      | .map count => do
        let (items, ⟨rest', shorter'⟩) ← readMany (2 * count) rest
        .ok (.map (pairUp items), ⟨rest', by simp only [List.length_cons]; omega⟩)
termination_by (input.length, 0)

def readMany (count : Nat) (input : Bytes) :
    Except ReadError (List Item × { rest : Bytes // rest.length ≤ input.length }) :=
  match count with
  | 0 => .ok ([], ⟨input, Nat.le_refl _⟩)
  | count + 1 => do
    let (i, ⟨rest, shorter⟩) ← read input
    let (items, ⟨rest', shorter'⟩) ← readMany count rest
    .ok (i :: items, ⟨rest', by omega⟩)
termination_by (input.length, 1)

end

end MiniC.MessagePack
