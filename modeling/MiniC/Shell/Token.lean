import MiniC.Bytes

namespace MiniC.Shell

inductive Change
  | plain
  | length
  | orElse (evenEmpty : Bool)
  | assign (evenEmpty : Bool)
  | instead (evenEmpty : Bool)
  | require (evenEmpty : Bool)
  | cutStart (longest : Bool)
  | cutEnd (longest : Bool)
  | invalid
  deriving DecidableEq, Repr

inductive Part
  | text (quoted : Bool) (s : Bytes)
  | value (quoted : Bool) (name : Bytes) (change : Change) (word : Bytes)
  | output (quoted : Bool) (script : Bytes)
  | number (quoted : Bool) (expression : Bytes)
  deriving DecidableEq, Repr

abbrev Word := List Part

inductive Mark
  | semicolon
  | doubleSemicolon
  | newline
  | and
  | or
  | background
  | pipe
  | openParen
  | closeParen
  | less (descriptor : Nat)
  | greater (descriptor : Nat)
  | append (descriptor : Nat)
  | same (descriptor : Nat)
  deriving DecidableEq, Repr

def Mark.text : Mark → Bytes
  | .semicolon => "\";\""
  | .doubleSemicolon => "\";;\""
  | .newline => "newline"
  | .and => "\"&&\""
  | .or => "\"||\""
  | .background => "\"&\""
  | .pipe => "\"|\""
  | .openParen => "\"(\""
  | .closeParen => "\")\""
  | _ => "redirection"

inductive SyntaxError
  | unterminated
  | missingBrace
  | badLoopVariable
  | unexpected (what : Bytes) (expected : Option Bytes)
  deriving DecidableEq, Repr

def SyntaxError.message : SyntaxError → Bytes
  | .unterminated => "Unterminated quoted string"
  | .missingBrace => "Missing '\x7d'"
  | .badLoopVariable => "Bad for loop variable"
  | .unexpected what none => what ++ " unexpected"
  | .unexpected what (some expected) => what ++ " unexpected (expecting \"" ++ expected ++ "\")"

inductive Token
  | word (w : Word)
  | mark (m : Mark)
  | refused (e : SyntaxError)
  | endOfFile
  deriving DecidableEq, Repr

abbrev Rest (input : Bytes) := { rest : Bytes // rest.length < input.length }

abbrev Tail (input : Bytes) := { rest : Bytes // rest.length ≤ input.length }

def isBlank (c : UInt8) : Bool := c == Ascii.space || c == Ascii.tab

def isMark (c : UInt8) : Bool :=
  isBlank c || c == Ascii.newline || c == 0x3b || c == 0x26 || c == 0x7c || c == 0x3c || c == 0x3e ||
    c == 0x28 || c == 0x29

def isSpecial (c : UInt8) : Bool :=
  c == 0x3f || c == 0x24 || c == 0x23 || c == 0x40 || c == 0x21 || c == Ascii.star || Ascii.isDigit c

inductive Quoting
  | none
  | single
  | double
  deriving DecidableEq, Repr

/-- The text up to the mark that closes what was opened `depth` times and once before, and what follows
it. Marks within quotes do not count. -/
def enclosed (opening closing : UInt8) (q : Quoting) (depth : Nat) (input : Bytes) :
    Option (Bytes × Rest input) :=
  match input with
  | [] => none
  | [c] => if q = .none ∧ c = closing ∧ depth = 0 then some ([], ⟨[], Nat.lt_succ_self 0⟩) else none
  | c :: d :: rest =>
    if q = .none ∧ c = closing ∧ depth = 0 then some ([], ⟨d :: rest, Nat.lt_succ_self _⟩)
    else if q ≠ .single ∧ c = Ascii.backslash then do
      let (inside, ⟨after, _⟩) ← enclosed opening closing q depth rest
      some (c :: d :: inside, ⟨after, by simp only [List.length_cons]; omega⟩)
    else do
      let next : Quoting := match q with
        | .single => if c = Ascii.apostrophe then .none else .single
        | .double => if c = Ascii.quote then .none else .double
        | .none => if c = Ascii.apostrophe then .single else if c = Ascii.quote then .double else .none
      let deeper := if q = .none ∧ c = closing then depth - 1
        else if q = .none ∧ c = opening then depth + 1
        else depth
      let (inside, ⟨after, bound⟩) ← enclosed opening closing next deeper (d :: rest)
      some (c :: inside, ⟨after, Nat.lt_succ_of_lt bound⟩)
termination_by input.length

def backquoted (input : Bytes) : Option (Bytes × Rest input) :=
  match input with
  | [] => none
  | [c] => if c = 0x60 then some ([], ⟨[], Nat.lt_succ_self 0⟩) else none
  | c :: d :: rest =>
    if c = 0x60 then some ([], ⟨d :: rest, Nat.lt_succ_self _⟩)
    else if c = Ascii.backslash ∧ (d = 0x60 ∨ d = 0x24 ∨ d = Ascii.backslash) then do
      let (inside, ⟨after, _⟩) ← backquoted rest
      some (d :: inside, ⟨after, by simp only [List.length_cons]; omega⟩)
    else do
      let (inside, ⟨after, bound⟩) ← backquoted (d :: rest)
      some (c :: inside, ⟨after, Nat.lt_succ_of_lt bound⟩)
termination_by input.length

def changeOf : Bytes → Change × Bytes
  | [] => (.plain, [])
  | 0x3a :: 0x2d :: word => (.orElse true, word)
  | 0x3a :: 0x3d :: word => (.assign true, word)
  | 0x3a :: 0x2b :: word => (.instead true, word)
  | 0x3a :: 0x3f :: word => (.require true, word)
  | 0x2d :: word => (.orElse false, word)
  | 0x3d :: word => (.assign false, word)
  | 0x2b :: word => (.instead false, word)
  | 0x3f :: word => (.require false, word)
  | 0x25 :: 0x25 :: word => (.cutEnd true, word)
  | 0x25 :: word => (.cutEnd false, word)
  | 0x23 :: 0x23 :: word => (.cutStart true, word)
  | 0x23 :: word => (.cutStart false, word)
  | _ => (.invalid, [])

def leadingName (text : Bytes) : Bytes × Bytes :=
  match text with
  | [] => ([], [])
  | c :: rest =>
    if isSpecial c then ([c], rest)
    else (text.takeWhile Ascii.isWord, text.dropWhile Ascii.isWord)

def braced (quoted : Bool) (text : Bytes) : Part :=
  let (counted, afterMark) := leadingName (text.drop 1)
  if text.head? = some 0x23 ∧ counted ≠ [] ∧ afterMark = [] then .value quoted counted .length []
  else
    let (name, rest) := leadingName text
    let (change, word) := changeOf rest
    .value quoted name (if name.isEmpty then .invalid else change) word

/-- What stands between the parentheses after a dollar sign: an expression in more parentheses, or a
script. -/
def parenthesized (quoted : Bool) (text : Bytes) : Part :=
  if text.head? = some 0x28 ∧ text.getLast? = some 0x29 then .number quoted (text.drop 1).dropLast
  else .output quoted text

def dollar (quoted : Bool) (input : Bytes) : Except SyntaxError (Part × Tail input) :=
  match input with
  | [] => .ok (.text quoted [0x24], ⟨[], Nat.le_refl 0⟩)
  | c :: rest =>
    if c = 0x28 then
      match enclosed 0x28 0x29 .none 0 rest with
      | some (inside, ⟨after, bound⟩) =>
        .ok (parenthesized quoted inside, ⟨after, Nat.le_of_lt (Nat.lt_succ_of_lt bound)⟩)
      | none => .error (.unexpected "end of file" (some ")"))
    else if c = 0x7b then
      match enclosed 0x7b 0x7d .none 0 rest with
      | some (inside, ⟨after, bound⟩) =>
        .ok (braced quoted inside, ⟨after, Nat.le_of_lt (Nat.lt_succ_of_lt bound)⟩)
      | none => .error .missingBrace
    else if isSpecial c then .ok (.value quoted [c] .plain [], ⟨rest, Nat.le_succ _⟩)
    else if Ascii.isLetter c then
      .ok (.value quoted (c :: rest.takeWhile Ascii.isWord) .plain [],
        ⟨rest.dropWhile Ascii.isWord, Nat.le_succ_of_le (List.dropWhile_suffix _).length_le⟩)
    else .ok (.text quoted [0x24], ⟨c :: rest, Nat.le_refl _⟩)

def isEscapable (c : UInt8) : Bool :=
  c == 0x24 || c == 0x60 || c == Ascii.quote || c == Ascii.backslash

def quotedParts (input : Bytes) : Except SyntaxError (Word × Rest input) :=
  match input with
  | [] => .error .unterminated
  | 0x22 :: rest => .ok ([.text true []], ⟨rest, Nat.lt_succ_self _⟩)
  | 0x24 :: rest => do
    let (part, ⟨after, _⟩) ← dollar true rest
    let (parts, ⟨rest, _⟩) ← quotedParts after
    .ok (part :: parts, ⟨rest, by simp only [List.length_cons]; omega⟩)
  | 0x60 :: rest =>
    match backquoted rest with
    | none => .error .unterminated
    | some (script, ⟨after, _⟩) => do
      let (parts, ⟨rest, _⟩) ← quotedParts after
      .ok (.output true script :: parts, ⟨rest, by simp only [List.length_cons]; omega⟩)
  | [0x5c] => .error .unterminated
  | 0x5c :: c :: rest => do
    let (parts, ⟨rest, _⟩) ← quotedParts rest
    let s : Bytes :=
      if c = Ascii.newline then [] else if isEscapable c then [c] else [Ascii.backslash, c]
    .ok (.text true s :: parts, ⟨rest, by simp only [List.length_cons]; omega⟩)
  | c :: rest => do
    let (parts, ⟨rest, _⟩) ← quotedParts rest
    .ok (.text true [c] :: parts, ⟨rest, by simp only [List.length_cons]; omega⟩)
termination_by input.length

def wordParts (input : Bytes) : Except SyntaxError (Word × Tail input) :=
  match input with
  | [] => .ok ([], ⟨[], Nat.le_refl _⟩)
  | c :: rest =>
    if isMark c then .ok ([], ⟨c :: rest, Nat.le_refl _⟩)
    else if c = Ascii.apostrophe then
      match _closed : rest.dropWhile (· != Ascii.apostrophe) with
      | [] => .error .unterminated
      | _ :: after => do
        have bound : after.length < rest.length := by
          have cut := (List.dropWhile_suffix (· != Ascii.apostrophe) (l := rest)).length_le
          rw [_closed, List.length_cons] at cut
          omega
        let (parts, ⟨after, _⟩) ← wordParts after
        .ok (.text true (rest.takeWhile (· != Ascii.apostrophe)) :: parts,
          ⟨after, by simp only [List.length_cons]; omega⟩)
    else if c = Ascii.quote then do
      let (quoted, ⟨after, _⟩) ← quotedParts rest
      let (parts, ⟨after, _⟩) ← wordParts after
      .ok (quoted ++ parts, ⟨after, by simp only [List.length_cons]; omega⟩)
    else if c = 0x24 then do
      let (part, ⟨after, _⟩) ← dollar false rest
      let (parts, ⟨after, _⟩) ← wordParts after
      .ok (part :: parts, ⟨after, by simp only [List.length_cons]; omega⟩)
    else if c = 0x60 then
      match backquoted rest with
      | none => .error .unterminated
      | some (script, ⟨after, _⟩) => do
        let (parts, ⟨after, _⟩) ← wordParts after
        .ok (.output false script :: parts, ⟨after, by simp only [List.length_cons]; omega⟩)
    else if c = Ascii.backslash then
      match rest with
      | [] => .ok ([.text true [Ascii.backslash]], ⟨[], Nat.le_succ _⟩)
      | d :: rest => do
        let (parts, ⟨after, _⟩) ← wordParts rest
        let s : Word := if d = Ascii.newline then [] else [.text true [d]]
        .ok (s ++ parts, ⟨after, by simp only [List.length_cons]; omega⟩)
    else do
      let (parts, ⟨after, _⟩) ← wordParts rest
      .ok (.text false [c] :: parts, ⟨after, by simp only [List.length_cons]; omega⟩)
termination_by input.length

def mark? (descriptor : Option Nat) (input : Bytes) : Option (Mark × Rest input) :=
  match input with
  | [] => none
  | c :: rest =>
    let one (m : Mark) : Option (Mark × Rest (c :: rest)) := some (m, ⟨rest, Nat.lt_succ_self _⟩)
    let two (d : UInt8) (long short : Mark) : Option (Mark × Rest (c :: rest)) :=
      match rest with
      | [] => some (short, ⟨[], Nat.lt_succ_self _⟩)
      | e :: after =>
        if e = d then some (long, ⟨after, by simp only [List.length_cons]; omega⟩)
        else some (short, ⟨e :: after, Nat.lt_succ_self _⟩)
    if c = Ascii.newline then one .newline
    else if c = 0x3b then two 0x3b .doubleSemicolon .semicolon
    else if c = 0x26 then two 0x26 .and .background
    else if c = 0x7c then two 0x7c .or .pipe
    else if c = 0x28 then one .openParen
    else if c = 0x29 then one .closeParen
    else if c = 0x3c then one (.less (descriptor.getD 0))
    else if c = 0x3e then
      let n := descriptor.getD 1
      if rest.head? = some 0x3e then two 0x3e (.append n) (.greater n) else two 0x26 (.same n) (.greater n)
    else none

def descriptor? (input : Bytes) : Option (Nat × Tail input) :=
  match input with
  | a :: b :: rest =>
    if Ascii.isDigit a && (b == 0x3c || b == 0x3e) then some (a.toNat - 0x30, ⟨b :: rest, Nat.le_succ _⟩)
    else none
  | _ => none

def tokens (line : Nat) (input : Bytes) : List (Nat × Token) :=
  match input with
  | [] => [(line, .endOfFile)]
  | c :: rest =>
    if isBlank c then tokens line rest
    else if c = Ascii.backslash ∧ rest.head? = some Ascii.newline then tokens (line + 1) (rest.drop 1)
    else if c = 0x23 then tokens line (rest.dropWhile (· != Ascii.newline))
    else
      let start : Option Nat × Tail (c :: rest) := match descriptor? (c :: rest) with
        | some (n, after) => (some n, after)
        | none => (none, ⟨c :: rest, Nat.le_refl _⟩)
      match mark? start.1 start.2.val with
      | some (m, ⟨after, _⟩) =>
        (line, .mark m) :: tokens (if m = .newline then line + 1 else line) after
      | none =>
        match wordParts (c :: rest) with
        | .error e => [(line, .refused e)]
        | .ok (w, ⟨after, _⟩) =>
          if _shorter : after.length < (c :: rest).length then
            let read := (c :: rest).take ((c :: rest).length - after.length)
            (line, .word w) :: tokens (line + read.count Ascii.newline) after
          else [(line, .refused (.unexpected "word" none))]
termination_by input.length
decreasing_by
  · simp
  · simp only [List.length_drop, List.length_cons]; omega
  · exact Nat.lt_succ_of_le (List.dropWhile_suffix (· != Ascii.newline) (l := rest)).length_le
  · have bound := start.2.property
    omega
  · exact _shorter

end MiniC.Shell
