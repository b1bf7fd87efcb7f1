import MiniC.Shell.Token

namespace MiniC.Shell

inductive Redirection
  | input (descriptor : Nat) (target : Word)
  | output (descriptor : Nat) (append : Bool) (target : Word)
  | same (descriptor : Nat) (other : Word)
  deriving DecidableEq, Repr

inductive Command
  | simple (line : Nat) (words : List Word) (redirections : List Redirection)
  | redirected (line : Nat) (body : Command) (redirections : List Redirection)
  | pipe (commands : List Command)
  | not (command : Command)
  | and (first second : Command)
  | or (first second : Command)
  | background (command : Command)
  | sequence (commands : List Command)
  | subshell (body : Command)
  | branch (condition yes no : Command)
  | loop (isUntil : Bool) (condition body : Command)
  | forEach (name : Bytes) (words : Option (List Word)) (body : Command)
  | choice (subject : Word) (arms : List (List Word × Command))
  | define (name : Bytes) (body : Command)
  deriving Repr, Inhabited

structure Refusal where
  line : Nat
  error : SyntaxError
  deriving DecidableEq, Repr

abbrev Input := List (Nat × Token)

abbrev Parsed := Except Refusal

def plain? : Word → Option Bytes
  | [] => some []
  | .text false s :: w => (plain? w).map (s ++ ·)
  | _ => none

def keywords : List Bytes :=
  ["!", "case", "do", "done", "elif", "else", "esac", "fi", "for", "if", "in", "then", "until", "while",
    "\x7b", "\x7d"]

def keyword? : Token → Option Bytes
  | .word w => (plain? w).filter keywords.contains
  | _ => none

def closers : List Bytes := ["do", "done", "elif", "else", "esac", "fi", "then", "\x7d"]

def isCloser (t : Token) : Bool :=
  t == .endOfFile || t == .mark .closeParen || t == .mark .doubleSemicolon ||
    (keyword? t).any closers.contains

def Token.text (t : Token) : Bytes :=
  match t, keyword? t with
  | .mark m, _ => m.text
  | .endOfFile, _ => "end of file"
  | _, some keyword => "\"" ++ keyword ++ "\""
  | _, none => "word"

def refuse (expected : Option Bytes) : Input → Refusal
  | (line, .refused e) :: _ => ⟨line, e⟩
  | (line, t) :: _ => ⟨line, .unexpected t.text expected⟩
  | [] => ⟨1, .unexpected "end of file" expected⟩

def expect (keyword : Bytes) (input : Input) : Except Refusal Input :=
  match input with
  | (_, t) :: rest => if keyword? t = some keyword then .ok rest else .error (refuse (some keyword) input)
  | [] => .error (refuse (some keyword) input)

def skipNewlines : Input → Input
  | (_, .mark .newline) :: rest => skipNewlines rest
  | input => input

def skipSeparator : Input → Input
  | (_, .mark .semicolon) :: rest => skipNewlines rest
  | input => skipNewlines input

def redirection? : Mark → Word → Option Redirection
  | .less n, w => some (.input n w)
  | .greater n, w => some (.output n false w)
  | .append n, w => some (.output n true w)
  | .same n, w => some (.same n w)
  | _, _ => none

def isRedirection (m : Mark) : Bool := (redirection? m []).isSome

def redirections : Input → Parsed (List Redirection × Input)
  | (line, .mark m) :: (next, t) :: rest =>
    match t, isRedirection m with
    | .word w, true => do
      let (others, rest) ← redirections rest
      .ok ((redirection? m w).toList ++ others, rest)
    | t, true => .error (refuse none ((next, t) :: rest))
    | t, false => .ok ([], (line, .mark m) :: (next, t) :: rest)
  | input => .ok ([], input)

def simpleParts : Input → Parsed ((List Word × List Redirection) × Input)
  | (_, .word w) :: rest => do
    let ((words, rs), rest) ← simpleParts rest
    .ok ((w :: words, rs), rest)
  | (line, .mark m) :: (next, t) :: rest =>
    match t, isRedirection m with
    | .word w, true => do
      let ((words, rs), rest) ← simpleParts rest
      .ok ((words, (redirection? m w).toList ++ rs), rest)
    | t, true => .error (refuse none ((next, t) :: rest))
    | t, false => .ok (([], []), (line, .mark m) :: (next, t) :: rest)
  | input => .ok (([], []), input)

def listedWords : Input → Parsed (List Word × Input)
  | (_, .word w) :: rest => do
    let (words, rest) ← listedWords rest
    .ok (w :: words, rest)
  | (line, t) :: rest =>
    if t = .mark .semicolon ∨ t = .mark .newline then .ok ([], (line, t) :: rest)
    else .error (refuse none ((line, t) :: rest))
  | [] => .error (refuse none [])

def patterns : Input → Parsed (List Word × Input)
  | (_, .word w) :: (_, .mark .closeParen) :: rest => .ok ([w], rest)
  | (_, .word w) :: (_, .mark .pipe) :: rest => do
    let (ws, rest) ← patterns rest
    .ok (w :: ws, rest)
  | (_, .word _) :: rest => .error (refuse (some ")") rest)
  | input => .error (refuse (some ")") input)

def simple (line : Nat) (input : Input) : Parsed (Command × Input) := do
  let ((words, rs), rest) ← simpleParts input
  .ok (.simple line words rs, rest)

def withRedirections (line : Nat) (c : Command) (input : Input) : Parsed (Command × Input) := do
  let (rs, rest) ← redirections input
  .ok (if rs.isEmpty then c else .redirected line c rs, rest)

def isName (name : Bytes) : Bool :=
  (name.head?.map Ascii.isLetter).getD false && name.all Ascii.isWord

mutual

def commands (fuel : Nat) (input : Input) : Parsed (Command × Input) :=
  match fuel with
  | 0 => .error (refuse none input)
  | fuel + 1 => do
    let (c, rest) ← conditional fuel (skipNewlines input)
    let (c, after) := match rest with
      | (_, .mark .background) :: rest => (Command.background c, some rest)
      | (_, .mark .semicolon) :: rest => (c, some rest)
      | (_, .mark .newline) :: rest => (c, some rest)
      | _ => (c, none)
    match (after.getD rest), after with
    | rest, none =>
      if (rest.head?.map fun t => isCloser t.2).getD true then .ok (c, rest) else .error (refuse none rest)
    | rest, some _ =>
      let rest := skipNewlines rest
      if (rest.head?.map fun t => isCloser t.2).getD true then .ok (c, rest)
      else do
        let (more, rest) ← commands fuel rest
        match more with
        | .sequence cs => .ok (.sequence (c :: cs), rest)
        | more => .ok (.sequence [c, more], rest)

def conditional (fuel : Nat) (input : Input) : Parsed (Command × Input) :=
  match fuel with
  | 0 => .error (refuse none input)
  | fuel + 1 => do
    let (c, rest) ← pipeline fuel input
    conditions fuel c rest

def conditions (fuel : Nat) (first : Command) (input : Input) : Parsed (Command × Input) :=
  match fuel with
  | 0 => .error (refuse none input)
  | fuel + 1 =>
    match input with
    | (_, .mark .and) :: rest => do
      let (c, rest) ← pipeline fuel (skipNewlines rest)
      conditions fuel (.and first c) rest
    | (_, .mark .or) :: rest => do
      let (c, rest) ← pipeline fuel (skipNewlines rest)
      conditions fuel (.or first c) rest
    | rest => .ok (first, rest)

def pipeline (fuel : Nat) (input : Input) : Parsed (Command × Input) :=
  match fuel with
  | 0 => .error (refuse none input)
  | fuel + 1 =>
    match input with
    | (line, t) :: rest =>
      if keyword? t = some "!" then do
        let (c, rest) ← pipeline fuel rest
        .ok (.not c, rest)
      else do
        let (c, rest) ← command fuel ((line, t) :: rest)
        let (others, rest) ← piped fuel rest
        .ok (if others.isEmpty then c else .pipe (c :: others), rest)
    | [] => .error (refuse none [])

def piped (fuel : Nat) (input : Input) : Parsed (List Command × Input) :=
  match fuel with
  | 0 => .error (refuse none input)
  | fuel + 1 =>
    match input with
    | (_, .mark .pipe) :: rest => do
      let (c, rest) ← command fuel (skipNewlines rest)
      let (others, rest) ← piped fuel rest
      .ok (c :: others, rest)
    | rest => .ok ([], rest)

def command (fuel : Nat) (input : Input) : Parsed (Command × Input) :=
  match fuel with
  | 0 => .error (refuse none input)
  | fuel + 1 =>
    match input with
    | (line, .mark .openParen) :: rest => do
      let (body, rest) ← commands fuel rest
      match rest with
      | (_, .mark .closeParen) :: rest => withRedirections line (.subshell body) rest
      | rest => .error (refuse (some ")") rest)
    | (line, .mark m) :: rest =>
      if isRedirection m then simple line ((line, .mark m) :: rest)
      else .error (refuse none ((line, .mark m) :: rest))
    | (line, .word w) :: rest =>
      match keyword? (.word w) with
      | some keyword => do
        let (c, rest) ← compound fuel line keyword rest
        withRedirections line c rest
      | none =>
        match rest, (plain? w).filter isName with
        | (_, .mark .openParen) :: (_, .mark .closeParen) :: rest, some name => do
          let (body, rest) ← command fuel (skipNewlines rest)
          .ok (.define name body, rest)
        | (_, .mark .openParen) :: rest, _ => .error (refuse (some ")") rest)
        | rest, _ => simple line ((line, .word w) :: rest)
    | input => .error (refuse none input)

def compound (fuel line : Nat) (keyword : Bytes) (input : Input) : Parsed (Command × Input) :=
  match fuel with
  | 0 => .error (refuse none input)
  | fuel + 1 =>
    if keyword = "\x7b" then do
      let (body, rest) ← commands fuel input
      .ok (.sequence [body], ← expect "\x7d" rest)
    else if keyword = "if" then branches fuel input
    else if keyword = "while" ∨ keyword = "until" then do
      let (condition, rest) ← commands fuel input
      let (body, rest) ← repeated fuel rest
      .ok (.loop (keyword = "until") condition body, rest)
    else if keyword = "for" then
      match input with
      | (at_, .word w) :: rest =>
        match (plain? w).filter isName with
        | none => .error ⟨at_, .badLoopVariable⟩
        | some name => do
          match skipNewlines rest with
          | (next, t) :: more =>
            if keyword? t = some "in" then do
              let (words, rest) ← listedWords more
              let (body, rest) ← repeated fuel (skipSeparator rest)
              .ok (.forEach name (some words) body, rest)
            else do
              let (body, rest) ← repeated fuel (skipSeparator ((next, t) :: more))
              .ok (.forEach name none body, rest)
          | [] => .error (refuse none [])
      | (at_, _) :: _ => .error ⟨at_, .badLoopVariable⟩
      | [] => .error (refuse none [])
    else if keyword = "case" then
      match input with
      | (_, .word w) :: rest => do
        let rest ← expect "in" (skipNewlines rest)
        let (arms, rest) ← arms fuel rest
        .ok (.choice w arms, rest)
      | input => .error (refuse none input)
    else .error ⟨line, .unexpected ("\"" ++ keyword ++ "\"") none⟩

def branches (fuel : Nat) (input : Input) : Parsed (Command × Input) :=
  match fuel with
  | 0 => .error (refuse none input)
  | fuel + 1 => do
    let (condition, rest) ← commands fuel input
    let (yes, rest) ← commands fuel (← expect "then" rest)
    match rest with
    | (line, t) :: more =>
      if keyword? t = some "elif" then do
        let (no, rest) ← branches fuel more
        .ok (.branch condition yes no, rest)
      else if keyword? t = some "else" then do
        let (no, rest) ← commands fuel more
        .ok (.branch condition yes no, ← expect "fi" rest)
      else .ok (.branch condition yes (.sequence []), ← expect "fi" ((line, t) :: more))
    | [] => .error (refuse (some "fi") [])

def repeated (fuel : Nat) (input : Input) : Parsed (Command × Input) :=
  match fuel with
  | 0 => .error (refuse none input)
  | fuel + 1 => do
    let (body, rest) ← commands fuel (← expect "do" input)
    .ok (body, ← expect "done" rest)

def arms (fuel : Nat) (input : Input) : Parsed (List (List Word × Command) × Input) :=
  match fuel with
  | 0 => .error (refuse none input)
  | fuel + 1 =>
    match skipNewlines input with
    | (line, t) :: rest =>
      if keyword? t = some "esac" then .ok ([], rest)
      else do
        let (ws, rest) ← patterns (if t = .mark .openParen then rest else (line, t) :: rest)
        let (body, rest) ← match skipNewlines rest with
          | (line, t) :: more =>
            if isCloser t then .ok (Command.sequence [], (line, t) :: more)
            else commands fuel ((line, t) :: more)
          | [] => .error (refuse none [])
        match rest with
        | (_, .mark .doubleSemicolon) :: rest => do
          let (others, rest) ← arms fuel rest
          .ok ((ws, body) :: others, rest)
        | rest => .ok ([(ws, body)], ← expect "esac" rest)
    | [] => .error (refuse none [])

end

structure Script where
  lines : List Command
  refusal : Option Refusal
  deriving Repr

def oneLine (fuel : Nat) (input : Input) : Parsed (List Command × Input) :=
  match fuel with
  | 0 => .error (refuse none input)
  | fuel + 1 => do
    let (c, rest) ← conditional fuel input
    let more (c : Command) (rest : Input) : Parsed (List Command × Input) :=
      match rest with
      | (_, .mark .newline) :: _ => .ok ([c], rest)
      | (_, .endOfFile) :: _ => .ok ([c], rest)
      | rest => do
        let (cs, rest) ← oneLine fuel rest
        .ok (c :: cs, rest)
    match rest with
    | (_, .mark .semicolon) :: rest => more c rest
    | (_, .mark .background) :: rest => more (.background c) rest
    | (line, .mark .newline) :: rest => .ok ([c], (line, .mark .newline) :: rest)
    | (line, .endOfFile) :: rest => .ok ([c], (line, .endOfFile) :: rest)
    | rest => .error (refuse none rest)

def allLines (depth : Nat) : (fuel : Nat) → Input → Script
  | 0, input => ⟨[], some (refuse none input)⟩
  | fuel + 1, input =>
    match skipNewlines input with
    | (_, .endOfFile) :: _ => ⟨[], none⟩
    | input =>
      match oneLine depth input with
      | .error refusal => ⟨[], some refusal⟩
      | .ok (cs, rest) =>
        let script := allLines depth fuel rest
        { script with lines := .sequence cs :: script.lines }

def Script.ofText (text : Bytes) : Script :=
  let ts := tokens 1 text
  allLines (8 * ts.length + 8) ts.length ts

end MiniC.Shell
