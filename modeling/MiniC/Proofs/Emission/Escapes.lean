import MiniC.Assembly.Escape

namespace MiniC.Assembly

/-- The byte that an escape of one letter stands for. -/
def letter? (c : UInt8) : Option UInt8 :=
  if c = 0x6e then some Ascii.newline
  else if c = 0x74 then some Ascii.tab
  else if c = 0x72 then some Ascii.carriageReturn
  else if c = Ascii.quote ∨ c = Ascii.backslash then some c
  else none

def octalDigit? (c : UInt8) : Option Nat :=
  if Ascii.zero ≤ c ∧ c ≤ 0x37 then some (c.toNat - 0x30) else none

/-- The number that `n` and the digits at the start of a text make up, `most` of them at most, and what follows. -/
def takeOctal : (most n : Nat) → Bytes → Nat × Bytes
  | most + 1, n, c :: text =>
    match octalDigit? c with
    | some d => takeOctal most (8 * n + d) text
    | none => (n, c :: text)
  | _, n, text => (n, text)

theorem length_takeOctal (most n : Nat) (text : Bytes) : (takeOctal most n text).2.length ≤ text.length := by
  fun_induction takeOctal most n text with
  | case1 most n c text d _ ih => exact Nat.le_succ_of_le ih
  | case2 => exact Nat.le_refl _
  | case3 => exact Nat.le_refl _

/-- The byte that an escape stands for, read from behind its backslash, and what follows. -/
def readEscape : Bytes → Option (UInt8 × Bytes)
  | [] => none
  | e :: text =>
    match letter? e, octalDigit? e with
    | some b, _ => some (b, text)
    | none, some d => some ((takeOctal 2 d text).1.toUInt8, (takeOctal 2 d text).2)
    | none, none => none

theorem length_readEscape {text rest : Bytes} {b : UInt8} (read : readEscape text = some (b, rest)) :
    rest.length < text.length := by
  unfold readEscape at read
  split at read
  · cases read
  · split at read <;> cases read
    · exact Nat.lt_succ_self _
    · exact Nat.lt_succ_of_le (length_takeOctal 2 _ _)

/-- The bytes that a text stands for up to its end or to a quote, whichever comes first, and what is left from there on.
There are none if a backslash is followed by what is no escape. -/
def unescape (text : Bytes) : Option (Bytes × Bytes) :=
  match text with
  | [] => some ([], [])
  | c :: text =>
    if c = Ascii.quote then some ([], c :: text)
    else if c = Ascii.backslash then
      match _read : readEscape text with
      | none => none
      | some (b, rest) => (unescape rest).map (.map (b :: ·) id)
    else (unescape text).map (.map (c :: ·) id)
termination_by text.length
decreasing_by
  · exact Nat.lt_succ_of_lt (length_readEscape _read)
  · exact Nat.lt_succ_self _

theorem octalDigit?_hexDigit {n : Nat} (small : n < 8) : octalDigit? (Bytes.hexDigit n) = some n := by
  decide +revert

theorem letter?_hexDigit {n : Nat} (small : n < 8) : letter? (Bytes.hexDigit n) = none := by
  decide +revert

theorem unescape_of_readEscape {text rest : Bytes} {b : UInt8} (read : readEscape text = some (b, rest)) :
    unescape (Ascii.backslash :: text) = (unescape rest).map (.map (b :: ·) id) := by
  rw [unescape, if_neg (by decide), if_pos rfl]
  split
  · next none => rw [read] at none; cases none
  · next found =>
    rw [read] at found
    cases found
    rfl

theorem unescape_octal (c : UInt8) (rest : Bytes) :
    unescape (Ascii.backslash :: (octal c ++ rest)) = (unescape rest).map (.map (c :: ·) id) := by
  have small := c.toNat_lt
  have value : (8 * (8 * (c.toNat / 64) + c.toNat / 8 % 8) + c.toNat % 8).toUInt8 = c := by
    have whole : 8 * (8 * (c.toNat / 64) + c.toNat / 8 % 8) + c.toNat % 8 = c.toNat := by omega
    rw [whole]
    exact UInt8.ofNat_toNat
  have digits : takeOctal 2 (c.toNat / 64)
      (Bytes.hexDigit (c.toNat / 8 % 8) :: Bytes.hexDigit (c.toNat % 8) :: rest) =
        (8 * (8 * (c.toNat / 64) + c.toNat / 8 % 8) + c.toNat % 8, rest) := by
    rw [takeOctal, octalDigit?_hexDigit (by omega)]
    dsimp only
    rw [takeOctal, octalDigit?_hexDigit (by omega)]
    dsimp only
    rw [takeOctal]
    simp
  apply unescape_of_readEscape
  rw [octal, List.cons_append, List.cons_append, List.cons_append, List.nil_append, readEscape, letter?_hexDigit (by omega),
    octalDigit?_hexDigit (by omega)]
  dsimp only
  rw [digits, value]

theorem unescape_letter {e b : UInt8} (isLetter : letter? e = some b) (rest : Bytes) :
    unescape (Ascii.backslash :: e :: rest) = (unescape rest).map (.map (b :: ·) id) := by
  apply unescape_of_readEscape
  rw [readEscape, isLetter]

theorem unescape_plain {c : UInt8} (notQuote : c ≠ Ascii.quote) (notBackslash : c ≠ Ascii.backslash) (rest : Bytes) :
    unescape (c :: rest) = (unescape rest).map (.map (c :: ·) id) := by
  rw [unescape.eq_def]
  dsimp only
  rw [if_neg notQuote, if_neg notBackslash]

theorem unescape_quote (rest : Bytes) : unescape (Ascii.quote :: rest) = some ([], Ascii.quote :: rest) := by
  rw [unescape.eq_def]
  rfl

theorem unescape_escapeByte (c : UInt8) (rest : Bytes) :
    unescape (escapeByte c ++ rest) = (unescape rest).map (.map (c :: ·) id) := by
  unfold escapeByte
  split
  case isTrue special =>
    apply unescape_letter
    rcases special with rfl | rfl <;> rfl
  case isFalse ordinary =>
    split
    · subst c
      exact unescape_letter rfl rest
    split
    · subst c
      exact unescape_letter rfl rest
    split
    · subst c
      exact unescape_letter rfl rest
    split
    · exact unescape_octal c rest
    · obtain ⟨notQuote, notBackslash⟩ := not_or.1 ordinary
      exact unescape_plain notQuote notBackslash rest

theorem printable_escapeByte (c : UInt8) : ∀ b ∈ escapeByte c, 0x20 ≤ b ∧ b ≤ 0x7e := by
  have each : ∀ n < 256, ∀ b ∈ escapeByte (UInt8.ofNat n), 0x20 ≤ b ∧ b ≤ 0x7e := by decide +kernel
  have found := each c.toNat c.toNat_lt
  rwa [UInt8.ofNat_toNat] at found

theorem unescape_flatMap (text rest : Bytes) :
    unescape (text.flatMap escapeByte ++ rest) = (unescape rest).map (.map (text ++ ·) id) := by
  induction text with
  | nil =>
    rw [List.flatMap_nil, List.nil_append]
    cases unescape rest <;> rfl
  | cons c text ih =>
    rw [List.flatMap_cons, List.append_assoc, unescape_escapeByte, ih]
    cases unescape rest <;> rfl

/-- An escaped text is printable and stands between quotes, and what is between them is read as the text: all of it, and
no more of what comes behind the quote that closes it. -/
theorem unescape_escape (text : Bytes) : ∃ inner, escape text = Ascii.quote :: (inner ++ [Ascii.quote]) ∧
    (∀ c ∈ escape text, 0x20 ≤ c ∧ c ≤ 0x7e) ∧ unescape inner = some (text, []) ∧
      ∀ rest, unescape (inner ++ Ascii.quote :: rest) = some (text, Ascii.quote :: rest) := by
  have quotes : escape text = Ascii.quote :: (text.flatMap escapeByte ++ [Ascii.quote]) := rfl
  refine ⟨text.flatMap escapeByte, quotes, ?_, ?_, fun rest => ?_⟩
  · rw [quotes]
    intro b member
    rcases List.mem_cons.1 member with rfl | member
    · decide
    rcases List.mem_append.1 member with inside | last
    · obtain ⟨c, _, isPart⟩ := List.mem_flatMap.1 inside
      exact printable_escapeByte c b isPart
    · rw [List.mem_singleton.1 last]
      decide
  · have all := unescape_flatMap text []
    rw [List.append_nil, unescape] at all
    simpa using all
  · rw [unescape_flatMap, unescape_quote]
    simp

-- The digit 7 behind the byte 1 is none of its digits, and neither is the 0 behind the backslash.
example : escape [0x01, 0x37, 0x5c, 0x30, 0x00] = "\"\\0017\\\\0\\000\"" := by
  decide

end MiniC.Assembly
