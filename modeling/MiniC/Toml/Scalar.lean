import MiniC.Toml.Value

namespace MiniC.Toml

def digit (c : Char) : Nat := c.toNat - '0'.toNat

def digitIn? (base : Nat) (c : Char) : Option Nat :=
  let value :=
    if c.isDigit then digit c
    else if 'a' ≤ c ∧ c ≤ 'f' then c.toNat - 'a'.toNat + 10
    else if 'A' ≤ c ∧ c ≤ 'F' then c.toNat - 'A'.toNat + 10
    else base
  if value < base then some value else none

def separated (base : Nat) : (afterDigit : Bool) → List Char → Bool
  | afterDigit, [] => afterDigit
  | afterDigit, c :: cs =>
    if c = '_' then afterDigit && separated base false cs
    else (digitIn? base c).isSome && separated base true cs

def natural? (base : Nat) (cs : List Char) : Option Nat :=
  if separated base false cs then
    some ((cs.filterMap (digitIn? base)).foldl (fun n d => n * base + d) 0)
  else none

def decimal? (cs : List Char) : Option Nat :=
  if cs.head? = some '0' ∧ cs ≠ ['0'] then none else natural? 10 cs

def unsigned : List Char → Bool × List Char
  | '-' :: cs => (true, cs)
  | '+' :: cs => (false, cs)
  | cs => (false, cs)

def magnitude? (cs : List Char) : Option Nat :=
  match cs with
  | '0' :: 'x' :: digits => natural? 16 digits
  | '0' :: 'o' :: digits => natural? 8 digits
  | '0' :: 'b' :: digits => natural? 2 digits
  | digits => decimal? digits

def integer? (cs : List Char) : Option Int :=
  match cs with
  | '-' :: digits => (decimal? digits).map fun n => -(n : Int)
  | '+' :: digits => (decimal? digits).map fun n => (n : Int)
  | digits => (magnitude? digits).map fun n => (n : Int)

def int64? (cs : List Char) : Option Int64 := do
  let n ← integer? cs
  if -0x8000000000000000 ≤ n ∧ n < 0x8000000000000000 then some (Int64.ofInt n) else none

def floatLimit : Nat := Nat.pow 2 1024 - Nat.pow 2 970

/-- Is a number with these digits, the last of which has the weight ten to the power of `exponent`, within
the range of doubles? -/
def inFloatRange (digits : Nat) (exponent : Int) : Bool :=
  let places := (Nat.toDigits 10 digits).length + exponent
  if digits = 0 ∨ places ≤ 308 then true
  else if 310 ≤ places then false
  else if 0 ≤ exponent then digits * Nat.pow 10 exponent.toNat < floatLimit
  else digits < floatLimit * Nat.pow 10 (-exponent).toNat

def exponent? : List Char → Option Int
  | [] => some 0
  | _ :: cs =>
    let (minus, digits) := unsigned cs
    (natural? 10 digits).map fun n => if minus then -(n : Int) else n

def fraction? : List Char → Option (Nat × Nat)
  | [] => some (0, 0)
  | _ :: cs => (natural? 10 cs).map fun n => (n, (cs.filter Char.isDigit).length)

def isExponentMark (c : Char) : Bool := c == 'e' || c == 'E'

def isFloat (cs : List Char) : Bool :=
  let (_, body) := unsigned cs
  if body = ['i', 'n', 'f'] ∨ body = ['n', 'a', 'n'] then true
  else
    let significand := body.takeWhile fun c => !isExponentMark c
    let marked := body.dropWhile fun c => !isExponentMark c
    let whole := significand.takeWhile (· != '.')
    let pointed := significand.dropWhile (· != '.')
    if marked.isEmpty && pointed.isEmpty then false
    else
      match decimal? whole, fraction? pointed, exponent? marked with
      | some n, some (part, places), some exponent =>
        inFloatRange (n * Nat.pow 10 places + part) (exponent - places)
      | _, _, _ => false

def pair? (a b : Char) : Option Nat :=
  if a.isDigit ∧ b.isDigit then some (digit a * 10 + digit b) else none

def isLeapYear (year : Nat) : Bool :=
  year % 4 = 0 && (year % 100 ≠ 0 || year % 400 = 0)

def daysIn (year month : Nat) : Nat :=
  if month = 2 then if isLeapYear year then 29 else 28
  else if month = 4 ∨ month = 6 ∨ month = 9 ∨ month = 11 then 30
  else 31

def afterDate? : List Char → Option (List Char)
  | a :: b :: c :: d :: '-' :: e :: f :: '-' :: g :: h :: rest => do
    let century ← pair? a b
    let year ← pair? c d
    let month ← pair? e f
    let day ← pair? g h
    if 1 ≤ month ∧ month ≤ 12 ∧ 1 ≤ day ∧ day ≤ daysIn (century * 100 + year) month then some rest
    else none
  | _ => none

def afterMinutes? : List Char → Option (List Char)
  | ':' :: a :: b :: ':' :: c :: d :: rest => do
    let minute ← pair? a b
    let second ← pair? c d
    if minute < 60 ∧ second < 60 then
      match rest with
      | '.' :: p :: rest => if p.isDigit then some (rest.dropWhile Char.isDigit) else none
      | rest => some rest
    else none
  | _ => none

def afterTime? : List Char → Option (List Char)
  | a :: ':' :: rest => if a.isDigit then afterMinutes? (':' :: rest) else none
  | a :: b :: rest => do
    let hour ← pair? a b
    if hour < 24 then afterMinutes? rest else none
  | _ => none

def isZone : List Char → Bool
  | [] => true
  | ['Z'] => true
  | ['z'] => true
  | [sign, a, b, ':', c, d] =>
    (sign == '+' || sign == '-') &&
      match pair? a b, pair? c d with
      | some hours, some minutes => hours ≤ 24 && minutes ≤ 60
      | _, _ => false
  | _ => false

def isDateMark (c : Char) : Bool := c == 'T' || c == 't' || c == ' '

/-- Is the text a date, a time, or both with or without a zone? The zero of a time without a date is
never left alone, since it would be a number then. -/
def isMoment (cs : List Char) : Bool :=
  match afterDate? cs with
  | some [] => true
  | some (mark :: time) => isDateMark mark && ((afterTime? time).map isZone).getD false
  | none => cs.take 2 ≠ ['0', ':'] && afterTime? cs = some []

def scalar? (cs : List Char) : Option Scalar :=
  if cs = ['t', 'r', 'u', 'e'] then some (.boolean true)
  else if cs = ['f', 'a', 'l', 's', 'e'] then some (.boolean false)
  else if isMoment cs then some .date
  else if isFloat cs then some .float
  else (int64? cs).map .integer

end MiniC.Toml
