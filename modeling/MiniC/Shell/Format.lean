import MiniC.Text.Numeral

namespace MiniC.Shell

structure Output where
  out : Bytes
  err : Bytes
  status : Nat
  waits : Nat
  deriving DecidableEq, Repr

namespace Output

def quiet (status : Nat) : Output := ⟨[], [], status, 0⟩

def written (out : Bytes) : Output := ⟨out, [], 0, 0⟩

def refused (err : Bytes) (status : Nat) : Output := ⟨[], err, status, 0⟩

end Output

def number? (text : Bytes) : Option Nat :=
  (Numeral.readIn 10 0x7fffffffffffffff text).toOption

def isOctal (c : UInt8) : Bool := 0x30 ≤ c && c ≤ 0x37

def octal (digits : Bytes) : UInt8 :=
  (digits.foldl (fun (n : Nat) (c : UInt8) => n * 8 + (c.toNat - 0x30)) 0).toUInt8

def octalDigits (zeroLed : Bool) (text : Bytes) : Bytes :=
  if zeroLed && text.head? != some Ascii.zero then []
  else (text.take (if zeroLed then 4 else 3)).takeWhile isOctal

def escapeLetter? : UInt8 → Option UInt8
  | 0x61 => some 0x07
  | 0x62 => some 0x08
  | 0x66 => some 0x0c
  | 0x6e => some 0x0a
  | 0x72 => some 0x0d
  | 0x74 => some 0x09
  | 0x76 => some 0x0b
  | 0x5c => some 0x5c
  | _ => none

def unescape (zeroLed : Bool) (text : Bytes) : Bytes × Bool :=
  match text with
  | [] => ([], false)
  | c :: rest =>
    if c ≠ Ascii.backslash then
      let (after, ends) := unescape zeroLed rest
      (c :: after, ends)
    else
      let digits := octalDigits zeroLed rest
      if digits ≠ [] then
        let (after, ends) := unescape zeroLed (rest.drop digits.length)
        (octal digits :: after, ends)
      else
        match rest with
        | [] => ([c], false)
        | 0x63 :: _ => ([], true)
        | d :: rest =>
          let (after, ends) := unescape zeroLed rest
          match escapeLetter? d with
          | some e => (e :: after, ends)
          | none => (c :: d :: after, ends)
termination_by text.length
decreasing_by
  · simp
  · simp only [List.length_drop, List.length_cons]; omega
  · simp only [List.length_cons]; omega

def spaced (words : List Bytes) : Bytes :=
  List.intercalate " " words

def echo (escapes : Bool) (args : List Bytes) : Output :=
  let bare := args.head? = some (Bytes.ofString "-n")
  let text := spaced (if bare then args.drop 1 else args)
  let (shown, ends) := if escapes then unescape true text else (text, false)
  .written (if bare || ends then shown else shown ++ [Ascii.newline])

def numeric? : Bytes → Option Int
  | 0x2d :: digits => (Numeral.read 0x8000000000000000 digits).toOption.map fun n => -(n : Int)
  | 0x2b :: digits => (Numeral.read 0x7fffffffffffffff digits).toOption.map fun n => (n : Int)
  | digits => (Numeral.read 0x7fffffffffffffff digits).toOption.map fun n => (n : Int)

structure Shape where
  left : Bool
  zeros : Bool
  plus : Bool
  width : Nat
  precision : Option Nat
  deriving DecidableEq, Repr

def Shape.pad (shape : Shape) (text : Bytes) : Bytes :=
  let fill (c : UInt8) := List.replicate (shape.width - text.length) c
  if shape.left then text ++ fill Ascii.space else fill Ascii.space ++ text

def Shape.number (shape : Shape) (sign digits : Bytes) : Bytes :=
  let least := shape.precision.getD (if shape.zeros && !shape.left then shape.width - sign.length else 1)
  shape.pad (sign ++ List.replicate (least - digits.length) Ascii.zero ++ digits)

def digitsIn (base : Nat) (n : Int) : Bytes :=
  (Nat.toDigits base (if n < 0 then (0x10000000000000000 + n).toNat else n.toNat)).map Char.toUInt8

def shown? (shape : Shape) (kind : UInt8) (arg : Bytes) : Option Bytes :=
  let n := (numeric? arg).getD 0
  let cut (text : Bytes) : Bytes := match shape.precision with
    | some most => text.take most
    | none => text
  if kind = 0x64 ∨ kind = 0x69 then
    let sign : Bytes := if n < 0 then "-" else if shape.plus then "+" else ""
    some (shape.number sign (Bytes.ofNat n.natAbs))
  else if kind = 0x75 then some (shape.number [] (digitsIn 10 n))
  else if kind = 0x6f then some (shape.number [] (digitsIn 8 n))
  else if kind = 0x78 then some (shape.number [] (digitsIn 16 n))
  else if kind = 0x58 then
    some (shape.number [] ((digitsIn 16 n).map fun c => if Ascii.isDigit c then c else c - 0x20))
  else if kind = 0x63 then some (shape.pad (arg.take 1))
  else if kind = 0x73 then some (shape.pad (cut arg))
  else if kind = 0x62 then some (shape.pad (cut (unescape true arg).1))
  else none

def isNumeric (kind : UInt8) : Bool :=
  [0x64, 0x69, 0x75, 0x6f, 0x78, 0x58].contains kind

def shapeOf (format : Bytes) : Shape × Bytes :=
  let isFlag (c : UInt8) : Bool := [0x2d, 0x2b, 0x20, 0x23, 0x30].contains c
  let flags := format.takeWhile isFlag
  let rest := format.dropWhile isFlag
  let width := (number? (rest.takeWhile Ascii.isDigit)).getD 0
  let rest := rest.dropWhile Ascii.isDigit
  let shape : Shape := ⟨flags.contains 0x2d, flags.contains 0x30, flags.contains 0x2b, width, none⟩
  match rest with
  | 0x2e :: rest =>
    let digits := rest.takeWhile Ascii.isDigit
    ({ shape with precision := some ((number? digits).getD 0) }, rest.dropWhile Ascii.isDigit)
  | rest => (shape, rest)

def fill (about : Bytes) : (fuel : Nat) → Bytes → List Bytes → Output × List Bytes
  | 0, _, args => (.quiet 0, args)
  | _, [], args => (.quiet 0, args)
  | fuel + 1, 0x25 :: 0x25 :: format, args =>
    let (rest, left) := fill about fuel format args
    ({ rest with out := 0x25 :: rest.out }, left)
  | fuel + 1, 0x25 :: format, args =>
    let (shape, after) := shapeOf format
    match after with
    | [] => (.refused (about ++ "missing format character\n") 1, [])
    | kind :: rest =>
      match shown? shape kind (args.headD []) with
      | none =>
        let directive := 0x25 :: format.take (format.length - rest.length)
        (.refused (about ++ directive ++ ": invalid directive\n") 1, [])
      | some text =>
        let (others, left) := fill about fuel rest args.tail
        let wrong := isNumeric kind && !args.isEmpty && (numeric? (args.headD [])).isNone
        let complaint : Bytes :=
          if wrong then about ++ args.headD [] ++ ": expected numeric value\n" else []
        (⟨text ++ others.out, complaint ++ others.err, if wrong then 1 else others.status, 0⟩, left)
  | fuel + 1, c :: format, args =>
    let (rest, left) := fill about fuel format args
    ({ rest with out := c :: rest.out }, left)

def fillAll (about : Bytes) : (fuel : Nat) → Bytes → List Bytes → Output
  | 0, _, _ => .quiet 0
  | fuel + 1, format, args =>
    let (here, left) := fill about format.length format args
    if left.isEmpty || left.length == args.length then here
    else
      let rest := fillAll about fuel format left
      ⟨here.out ++ rest.out, here.err ++ rest.err, max here.status rest.status, 0⟩

def printf (about : Bytes) : List Bytes → Output
  | [] => .refused (about ++ "usage: printf format [arg ...]\n") 2
  | format :: args => fillAll about (args.length + 1) (unescape false format).1 args

def countUp (first step last : Int) : Output :=
  let count := if step = 0 then 0 else ((last - first) / step + 1).toNat
  let rising := if 0 ≤ step then first ≤ last else last ≤ first
  .written (if rising then (List.range count).flatMap fun (n : Nat) => Bytes.ofInt (first + n * step) ++ "\n"
    else [])

def seq (args : List Bytes) : Output :=
  match args.map numeric? with
  | [some last] => countUp 1 1 last
  | [some first, some last] => countUp first 1 last
  | [some first, some step, some last] => countUp first step last
  | _ => .refused "seq: missing operand\nTry 'seq --help' for more information.\n" 1

end MiniC.Shell
