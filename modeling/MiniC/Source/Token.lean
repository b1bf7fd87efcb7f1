import MiniC.Source.Quoted

namespace MiniC.Source

inductive Punct
  | shiftLeft
  | shiftRight
  | le
  | ge
  | eq
  | ne
  | andAlso
  | orElse
  | increment
  | decrement
  | openParen
  | closeParen
  | openBrace
  | closeBrace
  | comma
  | semicolon
  | assign
  | plus
  | minus
  | star
  | slash
  | percent
  | caret
  | ampersand
  | bar
  | bang
  | tilde
  | less
  | greater
  deriving DecidableEq, Repr

namespace Punct

def text : Punct → Bytes
  | .shiftLeft => "<<"
  | .shiftRight => ">>"
  | .le => "<="
  | .ge => ">="
  | .eq => "=="
  | .ne => "!="
  | .andAlso => "&&"
  | .orElse => "||"
  | .increment => "++"
  | .decrement => "--"
  | .openParen => "("
  | .closeParen => ")"
  | .openBrace => "\x7b"
  | .closeBrace => "\x7d"
  | .comma => ","
  | .semicolon => ";"
  | .assign => "="
  | .plus => "+"
  | .minus => "-"
  | .star => "*"
  | .slash => "/"
  | .percent => "%"
  | .caret => "^"
  | .ampersand => "&"
  | .bar => "|"
  | .bang => "!"
  | .tilde => "~"
  | .less => "<"
  | .greater => ">"

def all : List Punct :=
  [.shiftLeft, .shiftRight, .le, .ge, .eq, .ne, .andAlso, .orElse, .increment, .decrement,
   .openParen, .closeParen, .openBrace, .closeBrace, .comma, .semicolon, .assign, .plus, .minus,
   .star, .slash, .percent, .caret, .ampersand, .bar, .bang, .tilde, .less, .greater]

/-- The longest mark that a text starts with, and what follows it. -/
def read? (input : Bytes) : Option (Punct × Bytes) :=
  (all.find? fun p => p.text.isPrefixOf input).map fun p => (p, input.drop p.text.length)

theorem text_ne_nil (p : Punct) : p.text ≠ [] := by
  cases p <;> decide

theorem read?_eq {input rest : Bytes} {p : Punct} (read : read? input = some (p, rest)) :
    input = p.text ++ rest := by
  obtain ⟨q, found, same⟩ := Option.map_eq_some_iff.1 read
  have starts : q.text.isPrefixOf input = true := by
    apply List.find?_some found
  obtain ⟨after, rfl⟩ := List.isPrefixOf_iff_prefix.1 starts
  cases same
  rw [List.drop_left]

end Punct

/-- A token without its place. Character and string literals are held by value. -/
inductive Lexeme
  | ident (name : Bytes)
  | int (numeral : Bytes)
  | char (value : UInt8)
  | str (value : Bytes)
  | punct (p : Punct)
  deriving DecidableEq, Repr

namespace Lexeme

def kind : Lexeme → Bytes
  | .ident _ => "identifier"
  | .int _ => "integer"
  | .char _ => "char"
  | .str _ => "string"
  | .punct _ => "punctuation"

def text : Lexeme → Bytes
  | .ident name => name
  | .int numeral => numeral
  | .char value => [value]
  | .str value => value
  | .punct p => p.text

inductive Error
  | openComment
  | quoted (error : Quoted.Error)
  | charWidth (spelling : Bytes)
  | unexpected (c : UInt8)
  deriving DecidableEq, Repr

def Error.message : Error → Bytes
  | .openComment => "unterminated comment"
  | .quoted error => error.message
  | .charWidth spelling => "char literal must be one byte: " ++ spelling
  | .unexpected c => "unexpected character: " ++ Text.Quoted.single c

/-- The token that starts with `c` and goes on with a part of `text`, and what follows it. -/
def read (c : UInt8) (text : Bytes) : Except Error (Lexeme × Bytes) :=
  if Ascii.isLetter c then
    .ok (.ident (c :: text.takeWhile Ascii.isWord), text.dropWhile Ascii.isWord)
  else if Ascii.isDigit c then
    .ok (.int (c :: text.takeWhile Ascii.isWord), text.dropWhile Ascii.isWord)
  else if c = Ascii.apostrophe then do
    let (value, rest) ← (Quoted.read c text).mapError .quoted
    match value with
    | [b] => .ok (.char b, rest)
    | _ => .error (.charWidth (c :: text.take (text.length - rest.length)))
  else if c = Ascii.quote then do
    let (value, rest) ← (Quoted.read c text).mapError .quoted
    .ok (.str value, rest)
  else
    match Punct.read? (c :: text) with
    | some (p, rest) => .ok (.punct p, rest)
    | none => .error (.unexpected c)

theorem read_le {c : UInt8} {text rest : Bytes} {l : Lexeme} (ok : read c text = .ok (l, rest)) :
    rest.length ≤ text.length := by
  have drop : (text.dropWhile Ascii.isWord).length ≤ text.length :=
    (List.dropWhile_suffix _).length_le
  unfold read at ok
  split at ok
  · simp_all
  split at ok
  · simp_all
  split at ok
  · cases quoted : Quoted.read c text with
    | error e => simp [quoted, mapError_error, bind, Except.bind] at ok
    | ok found =>
      obtain ⟨value, after⟩ := found
      have shorter := Quoted.read_shorter quoted
      simp only [quoted, mapError_ok, bind, Except.bind] at ok
      split at ok
      · simp_all
        omega
      · cases ok
  split at ok
  · cases quoted : Quoted.read c text with
    | error e => simp [quoted, mapError_error, bind, Except.bind] at ok
    | ok found =>
      obtain ⟨value, after⟩ := found
      have shorter := Quoted.read_shorter quoted
      simp only [quoted, mapError_ok, bind, Except.bind] at ok
      simp_all
      omega
  split at ok
  · next p rest' found =>
    have whole := congrArg List.length (Punct.read?_eq found)
    have marked := List.length_pos_iff.2 (Punct.text_ne_nil p)
    simp at ok whole
    obtain ⟨_, rfl⟩ := ok
    omega
  · simp at ok

end Lexeme

/-- What stands between tokens: blanks, or a comment to the end of the line or to its mark. -/
inductive Gap
  | blank
  | line
  | block (opened : Bytes)

def isGap (c : UInt8) : Bool :=
  c == Ascii.space || c == Ascii.tab || c == Ascii.newline || c == Ascii.carriageReturn

/-- The text after the blanks and comments that it starts with. A comment without end is an error,
which holds the text from its start. -/
def skipGap : Gap → Bytes → Except Bytes Bytes
  | .block opened, [] => .error opened
  | .block _, Ascii.star :: Ascii.slash :: text => skipGap .blank text
  | .block opened, _ :: text => skipGap (.block opened) text
  | .line, [] => .ok []
  | .line, c :: text => if c = Ascii.newline then skipGap .blank text else skipGap .line text
  | .blank, [] => .ok []
  | .blank, Ascii.slash :: Ascii.slash :: text => skipGap .line text
  | .blank, Ascii.slash :: Ascii.star :: text =>
    skipGap (.block (Ascii.slash :: Ascii.star :: text)) text
  | .blank, c :: text => if isGap c then skipGap .blank text else .ok (c :: text)

theorem skipGap_le {gap : Gap} {text rest : Bytes} (ok : skipGap gap text = .ok rest) :
    rest.length ≤ text.length := by
  fun_induction skipGap gap text <;> simp_all <;> grind

/-- A token and the number of its first byte. -/
structure Token where
  lexeme : Lexeme
  offset : Nat
  deriving DecidableEq, Repr

namespace Token

/-- The next token of the last part of a text that is `size` bytes long, and what follows it. There is none at the end
of the text. -/
def next (size : Nat) (input : Bytes) : Except (Nat × Lexeme.Error) (Option (Token × Bytes)) :=
  match skipGap .blank input with
  | .error opened => .error (size - opened.length, .openComment)
  | .ok [] => .ok none
  | .ok (c :: text) =>
    let offset := size - (c :: text).length
    match Lexeme.read c text with
    | .error e => .error (offset, e)
    | .ok (lexeme, rest) => .ok (some (⟨lexeme, offset⟩, rest))

theorem next_eq_some {size : Nat} {input rest : Bytes} {t : Token} :
    next size input = .ok (some (t, rest)) ↔
      ∃ c text l, skipGap .blank input = .ok (c :: text) ∧ Lexeme.read c text = .ok (l, rest) ∧
        t = ⟨l, size - (c :: text).length⟩ := by
  unfold next
  split
  · simp_all
  · simp_all
  · rename_i c text skipped
    simp only [skipped]
    cases read : Lexeme.read c text with
    | error e => simp_all
    | ok found => grind

theorem next_shorter {size : Nat} {input rest : Bytes} {t : Token} (found : next size input = .ok (some (t, rest))) :
    rest.length < input.length := by
  obtain ⟨c, text, l, skipped, read, _⟩ := next_eq_some.1 found
  have gap := skipGap_le skipped
  have read := Lexeme.read_le read
  rw [List.length_cons] at gap
  omega

/-- The tokens of the last part of a text that is `size` bytes long, or an error and its place. -/
def scanFrom (size : Nat) (input : Bytes) : Except (Nat × Lexeme.Error) (List Token) :=
  match _found : next size input with
  | .error e => .error e
  | .ok none => .ok []
  | .ok (some (token, rest)) => do
    let tokens ← scanFrom size rest
    .ok (token :: tokens)
termination_by input.length
decreasing_by exact next_shorter _found

def scan (text : Bytes) : Except (Nat × Lexeme.Error) (List Token) :=
  scanFrom text.length text

end Token

end MiniC.Source
