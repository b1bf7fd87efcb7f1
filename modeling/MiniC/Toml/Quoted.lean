import MiniC.Toml.Scalar

namespace MiniC.Toml

abbrev Rest (cs : List Char) := { rest : List Char // rest.length < cs.length }

def encode (cs : List Char) : Bytes :=
  cs.flatMap String.utf8EncodeChar

def codePoint? (digits : List Char) : Option Char := do
  let values ← digits.mapM (digitIn? 16)
  let n := values.foldl (fun n d => n * 16 + d) 0
  if n.isValidChar then some (Char.ofNat n) else none

def escaped? : Char → Option Char
  | 'b' => some '\x08'
  | 't' => some '\t'
  | 'n' => some '\n'
  | 'f' => some '\x0c'
  | 'r' => some '\r'
  | '"' => some '"'
  | '\\' => some '\\'
  | _ => none

def escape? (cs : List Char) : Option (Char × Rest cs) :=
  match cs with
  | [] => none
  | 'u' :: rest => do
    let c ← if rest.length < 4 then none else codePoint? (rest.take 4)
    some (c, ⟨rest.drop 4, by simp only [List.length_drop, List.length_cons]; omega⟩)
  | 'U' :: rest => do
    let c ← if rest.length < 8 then none else codePoint? (rest.take 8)
    some (c, ⟨rest.drop 8, by simp only [List.length_drop, List.length_cons]; omega⟩)
  | c :: rest => do
    let c ← escaped? c
    some (c, ⟨rest, Nat.lt_succ_self _⟩)

def isLineEnd (c : Char) : Bool := c == '\n' || c == '\r'

def isBlank (c : Char) : Bool := c == ' ' || c == '\t'

def basic? (cs : List Char) : Option (List Char × Rest cs) :=
  match cs with
  | [] => none
  | '"' :: rest => some ([], ⟨rest, Nat.lt_succ_self _⟩)
  | '\\' :: rest => do
    let (c, ⟨rest, _⟩) ← escape? rest
    let (text, ⟨rest, _⟩) ← basic? rest
    some (c :: text, ⟨rest, by simp only [List.length_cons]; omega⟩)
  | c :: rest =>
    if isLineEnd c then none
    else do
      let (text, ⟨rest, bound⟩) ← basic? rest
      some (c :: text, ⟨rest, Nat.lt_succ_of_lt bound⟩)
termination_by cs.length

def literal? (cs : List Char) : Option (List Char × Rest cs) :=
  match cs with
  | [] => none
  | '\'' :: rest => some ([], ⟨rest, Nat.lt_succ_self _⟩)
  | c :: rest =>
    if isLineEnd c then none
    else do
      let (text, ⟨rest, bound⟩) ← literal? rest
      some (c :: text, ⟨rest, Nat.lt_succ_of_lt bound⟩)

abbrev Tail (cs : List Char) := { rest : List Char // rest.length ≤ cs.length }

def skip (inClass : Char → Bool) (cs : List Char) : Tail cs :=
  ⟨cs.dropWhile inClass, (List.dropWhile_suffix inClass).length_le⟩

/-- The end of a string over several lines, read after three quotes. Up to `most` more quotes before
the closing three belong to the string. -/
def closing? (most : Nat) (quote : Char) (cs : List Char) : Option (List Char × Tail cs) :=
  let more := cs.takeWhile (· == quote)
  if more.length ≤ most then some (more, skip (· == quote) cs) else none

def continued? (cs : List Char) : Option (Tail cs) :=
  let blank (c : Char) := isBlank c || isLineEnd c
  if (cs.takeWhile blank).any isLineEnd then some (skip blank cs) else none

theorem lt_quotes_of_le {q : Char} {after rest : List Char} (bound : after.length ≤ rest.length) :
    after.length < (q :: q :: q :: rest).length := by
  simp only [List.length_cons]
  omega

/-- A basic string over several lines. Up to two quotes may stand before the closing three, and up to
three right after two backslashes that stand for one. -/
def longBasic? (afterBackslash : Bool) (cs : List Char) : Option (List Char × Rest cs) :=
  match cs with
  | [] => none
  | '"' :: '"' :: '"' :: rest => do
    let (text, ⟨rest, bound⟩) ← closing? (if afterBackslash then 3 else 2) '"' rest
    some (text, ⟨rest, lt_quotes_of_le bound⟩)
  | '\\' :: rest =>
    match continued? rest with
    | some ⟨rest, bound⟩ => do
      let (text, ⟨rest, shorter⟩) ← longBasic? false rest
      some (text, ⟨rest, Nat.lt_succ_of_lt (Nat.lt_of_lt_of_le shorter bound)⟩)
    | none => do
      let doubled := rest.head? == some '\\'
      let (c, ⟨rest, short⟩) ← escape? rest
      let (text, ⟨rest, shorter⟩) ← longBasic? doubled rest
      some (c :: text, ⟨rest, Nat.lt_succ_of_lt (Nat.lt_trans shorter short)⟩)
  | c :: rest => do
    let (text, ⟨rest, bound⟩) ← longBasic? false rest
    some (c :: text, ⟨rest, Nat.lt_succ_of_lt bound⟩)
termination_by cs.length

def longLiteral? (cs : List Char) : Option (List Char × Rest cs) :=
  match cs with
  | [] => none
  | '\'' :: '\'' :: '\'' :: rest => do
    let (text, ⟨rest, bound⟩) ← closing? 2 '\'' rest
    some (text, ⟨rest, lt_quotes_of_le bound⟩)
  | c :: rest => do
    let (text, ⟨rest, bound⟩) ← longLiteral? rest
    some (c :: text, ⟨rest, Nat.lt_succ_of_lt bound⟩)

def afterOpening (cs : List Char) : Tail cs :=
  match cs with
  | '\n' :: rest => ⟨rest, Nat.le_succ _⟩
  | '\r' :: '\n' :: rest => ⟨rest, by simp only [List.length_cons]; omega⟩
  | rest => ⟨rest, Nat.le_refl _⟩

def string? (cs : List Char) : Option (Bytes × Rest cs) :=
  match cs with
  | '"' :: '"' :: '"' :: rest => do
    let ⟨opened, _⟩ := afterOpening rest
    let (text, ⟨rest, _⟩) ← longBasic? false opened
    some (encode text, ⟨rest, by simp only [List.length_cons]; omega⟩)
  | '\'' :: '\'' :: '\'' :: rest => do
    let ⟨opened, _⟩ := afterOpening rest
    let (text, ⟨rest, _⟩) ← longLiteral? opened
    some (encode text, ⟨rest, by simp only [List.length_cons]; omega⟩)
  | '"' :: rest => do
    let (text, ⟨rest, _⟩) ← basic? rest
    some (encode text, ⟨rest, by simp only [List.length_cons]; omega⟩)
  | '\'' :: rest => do
    let (text, ⟨rest, _⟩) ← literal? rest
    some (encode text, ⟨rest, by simp only [List.length_cons]; omega⟩)
  | _ => none

def quotedKey? (cs : List Char) : Option (Bytes × Rest cs) :=
  match cs with
  | '"' :: rest => do
    let (text, ⟨rest, _⟩) ← basic? rest
    some (encode text, ⟨rest, by simp only [List.length_cons]; omega⟩)
  | '\'' :: rest => do
    let (text, ⟨rest, _⟩) ← literal? rest
    some (encode text, ⟨rest, by simp only [List.length_cons]; omega⟩)
  | _ => none

end MiniC.Toml
