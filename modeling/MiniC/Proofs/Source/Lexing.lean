import MiniC.Proofs.Decimal
import MiniC.Proofs.Source.WellFormed

namespace MiniC.Source

variable {text rest word : Bytes} {c : UInt8} {ls : List Lexeme} {n : Nat} {p : Punct}

def Lexes (text : Bytes) (ls : List Lexeme) : Prop :=
  ∀ size, ∃ tokens, Token.scanFrom size text = .ok tokens ∧ tokens.map Token.lexeme = ls

theorem lexes_nil : Lexes [] [] :=
  fun _ => ⟨[], scanFrom_eq_ok.2 (.inl ⟨rfl, rfl⟩), rfl⟩

theorem scanFrom_of_skipGap (skipped : skipGap .blank text = skipGap .blank rest) (size : Nat) :
    Token.scanFrom size text = Token.scanFrom size rest := by
  have same : Token.next size text = Token.next size rest := by rw [Token.next, Token.next, skipped]
  rw [Token.scanFrom, Token.scanFrom, same]

theorem skipGap_gap (gap : isGap c = true) (text : Bytes) : skipGap .blank (c :: text) = skipGap .blank text := by
  have notSlash : c ≠ Ascii.slash := by
    rintro rfl
    exact absurd gap (by decide)
  rw [skipGap.eq_def]
  simp [notSlash, gap]

theorem lexes_gap (gap : isGap c = true) (lexed : Lexes text ls) : Lexes (c :: text) ls := by
  intro size
  rw [scanFrom_of_skipGap (skipGap_gap gap text)]
  exact lexed size

theorem lexes_cons {l : Lexeme}
    (start : skipGap .blank (c :: text) = .ok (c :: text)) (read : Lexeme.read c text = .ok (l, rest))
    (lexed : Lexes rest ls) : Lexes (c :: text) (l :: ls) := by
  intro size
  obtain ⟨tokens, scanned, plain⟩ := lexed size
  have scanned := scanFrom_eq_ok.2 (.inr ⟨c, text, l, rest, tokens, start, read, scanned, rfl⟩)
  exact ⟨_, scanned, by rw [List.map_cons, plain]⟩

theorem skipGap_start (notGap : isGap c = false) (notSlash : c ≠ Ascii.slash) (text : Bytes) :
    skipGap .blank (c :: text) = .ok (c :: text) := by
  rw [skipGap.eq_def]
  simp [notGap, notSlash]

def NotWord (rest : Bytes) : Prop :=
  ∀ c ∈ rest.head?, Ascii.isWord c = false

def Breaks (text : Bytes) : Prop :=
  ∃ c rest, text = c :: rest ∧ Ascii.isWord c = false

theorem Breaks.append (breaks : Breaks text) (rest : Bytes) : Breaks (text ++ rest) := by
  obtain ⟨c, text, rfl, notWord⟩ := breaks
  exact ⟨c, text ++ rest, rfl, notWord⟩

theorem Breaks.notWord (breaks : Breaks text) : NotWord text := by
  obtain ⟨c, text, rfl, notWord⟩ := breaks
  rintro d ⟨⟩
  exact notWord

theorem takeWhile_word (all : ∀ d ∈ word, Ascii.isWord d = true) (ended : NotWord rest) :
    (word ++ rest).takeWhile Ascii.isWord = word ∧ (word ++ rest).dropWhile Ascii.isWord = rest := by
  have stops : rest.takeWhile Ascii.isWord = [] ∧ rest.dropWhile Ascii.isWord = rest := by
    cases rest with
    | nil => exact ⟨rfl, rfl⟩
    | cons c rest => simp [ended c rfl]
  rw [List.takeWhile_append_of_pos all, List.dropWhile_append_of_pos all, stops.1, stops.2, List.append_nil]
  exact ⟨rfl, rfl⟩

theorem not_isGap_of_isWord : ∀ {c : UInt8}, Ascii.isWord c = true → isGap c = false ∧ c ≠ Ascii.slash := by
  intro c word
  constructor
  · by_contra gap
    rw [Bool.not_eq_false, isGap] at gap
    simp only [Bool.or_eq_true, beq_iff_eq] at gap
    rcases gap with ((rfl | rfl) | rfl) | rfl <;> exact absurd word (by decide)
  · rintro rfl
    exact absurd word (by decide)

theorem not_isLetter_of_isDigit (digit : Ascii.isDigit c = true) : Ascii.isLetter c = false := by
  simp only [Ascii.isDigit, Ascii.isLetter, Bool.and_eq_true, decide_eq_true_eq, Bool.or_eq_false_iff,
    Bool.and_eq_false_iff, decide_eq_false_iff_not, beq_eq_false_iff_ne, UInt8.le_iff_toNat_le, ne_eq,
    ← UInt8.toNat_inj] at digit ⊢
  have zero : Ascii.zero.toNat = 0x30 := rfl
  have nine : Ascii.nine.toNat = 0x39 := rfl
  have under : Ascii.underscore.toNat = 0x5f := rfl
  have upper : (0x41 : UInt8).toNat = 0x41 := rfl
  have lower : (0x61 : UInt8).toNat = 0x61 := rfl
  omega

theorem read_name (letter : Ascii.isLetter c = true)
    (words : ∀ d ∈ word, Ascii.isWord d = true) (ended : NotWord rest) :
    Lexeme.read c (word ++ rest) = .ok (.ident (c :: word), rest) := by
  obtain ⟨taken, left⟩ := takeWhile_word words ended
  rw [Lexeme.read, if_pos letter, taken, left]

theorem read_numeral (digit : Ascii.isDigit c = true)
    (words : ∀ d ∈ word, Ascii.isWord d = true) (ended : NotWord rest) :
    Lexeme.read c (word ++ rest) = .ok (.int (c :: word), rest) := by
  obtain ⟨taken, left⟩ := takeWhile_word words ended
  rw [Lexeme.read, if_neg (by simp [not_isLetter_of_isDigit digit]), if_pos digit, taken, left]

theorem lexes_name {name : Bytes} (spelled : IsSpelled name) (ended : NotWord rest)
    (lexed : Lexes rest ls) : Lexes (name ++ rest) (.ident name :: ls) := by
  obtain ⟨c, word, rfl, letter, words⟩ := spelled
  have start := not_isGap_of_isWord (c := c) (by simp [Ascii.isWord, letter])
  exact lexes_cons (skipGap_start start.1 start.2 _) (read_name letter words ended) lexed

theorem lexes_numeral (digit : Ascii.isDigit c = true)
    (words : ∀ d ∈ word, Ascii.isWord d = true) (ended : NotWord rest) (lexed : Lexes rest ls) :
    Lexes (c :: word ++ rest) (.int (c :: word) :: ls) := by
  have start := not_isGap_of_isWord (c := c) (by simp [Ascii.isWord, digit])
  exact lexes_cons (skipGap_start start.1 start.2 _) (read_numeral digit words ended) lexed

theorem ofNat_head (pos : 0 < n) : ∃ c rest, Bytes.ofNat n = c :: rest ∧ c ≠ Ascii.zero := by
  induction n using Nat.strongRecOn with
  | _ n ih =>
    by_cases small : n < 10
    · have digit : ∀ n < 10, 0 < n → (Nat.digitChar n).toUInt8 ≠ Ascii.zero := by decide
      refine ⟨_, [], ?_, digit n small pos⟩
      rw [Bytes.ofNat, Nat.toDigits_of_lt_base small]
      rfl
    · obtain ⟨c, rest, whole, notZero⟩ := ih (n / 10) (by omega) (by omega)
      refine ⟨c, rest ++ [(Nat.digitChar (n % 10)).toUInt8], ?_, notZero⟩
      rw [Bytes.ofNat, Nat.toDigits_of_base_le (by decide) (by omega), List.map_append]
      rw [Bytes.ofNat] at whole
      rw [whole]
      rfl

theorem le_foldl_digits (text : Bytes) (n : Nat) : n ≤ text.foldl (fun n b => 10 * n + (b.toNat - 48)) n := by
  induction text generalizing n with
  | nil => exact Nat.le_refl n
  | cons c text ih =>
    rw [List.foldl_cons]
    exact Nat.le_trans (by omega) (ih _)

theorem numeral_digits {most n : Nat} {text : Bytes} (digits : ∀ c ∈ text, Ascii.isDigit c = true)
    (bound : text.foldl (fun n b => 10 * n + (b.toNat - 48)) n ≤ most) :
    Numeral.digits 10 most true n text = .ok (text.foldl (fun n b => 10 * n + (b.toNat - 48)) n) := by
  induction text generalizing n with
  | nil => rfl
  | cons c text ih =>
    have digit := digits c List.mem_cons_self
    have notUnder : (c == Ascii.underscore) = false := by
      rw [beq_eq_false_iff_ne]
      rintro rfl
      exact absurd digit (by decide)
    have value : Numeral.digit? c = some (c.toNat - 0x30) := by rw [Numeral.digit?, if_pos digit]
    have range := digit
    simp only [Ascii.isDigit, Bool.and_eq_true, decide_eq_true_eq, UInt8.le_iff_toNat_le] at range
    have nine : Ascii.nine.toNat = 0x39 := rfl
    rw [List.foldl_cons] at bound ⊢
    have next := Nat.le_trans (le_foldl_digits text _) bound
    rw [Numeral.digits, if_neg (by simp [notUnder]), value]
    simp only
    rw [if_neg (by omega), if_neg (by omega), Nat.mul_comm n 10]
    exact ih (fun d member => digits d (List.mem_cons_of_mem c member)) bound

theorem read_ofNat {most : Nat} (bound : n ≤ most) : Numeral.read most (Bytes.ofNat n) = .ok n := by
  rcases Nat.eq_zero_or_pos n with rfl | pos
  · rfl
  obtain ⟨c, rest, whole, notZero⟩ := ofNat_head pos
  have digits : ∀ d ∈ Bytes.ofNat n, Ascii.isDigit d = true := fun d => Bytes.isDigit_of_mem_ofNat
  have value : (Bytes.ofNat n).foldl (fun n b => 10 * n + (b.toNat - 48)) 0 = n := Bytes.decimalValue_ofNat n
  have inBase : Numeral.base (Bytes.ofNat n) = (10, Bytes.ofNat n) := by
    rw [whole, Numeral.base.eq_def]
    simp [notZero]
  have plain : (Bytes.ofNat n).contains Ascii.underscore = false := by
    rw [Bool.eq_false_iff]
    intro inside
    exact absurd (digits _ (List.contains_iff_mem.1 inside)) (by decide)
  have counted := @numeral_digits most 0 _ digits (by rw [value]; exact bound)
  rw [value] at counted
  rw [Numeral.read, if_neg (by rw [whole]; simp), inBase]
  simp only
  rw [counted, plain]
  rfl

theorem readIn_hex (c : UInt8) : Numeral.readIn 16 0xff (Bytes.hex 2 c.toNat) = .ok c.toNat := by
  have each : ∀ n < 256, Numeral.readIn 16 0xff (Bytes.hex 2 n) = .ok n := by decide +kernel
  exact each c.toNat c.toNat_lt

def quotes : List UInt8 :=
  [Ascii.apostrophe, Ascii.quote]

theorem backslash_ne {q : UInt8} (isQuote : q ∈ quotes) : Ascii.backslash ≠ q := by
  rintro rfl
  exact absurd isQuote (by decide)

section

variable {q : UInt8} (text : Bytes)

theorem read_close : Quoted.read q (q :: text) = .ok ([], text) := by
  rw [Quoted.read.eq_def]
  simp

theorem read_plain (notQuote : c ≠ q) (notNewline : c ≠ Ascii.newline) (notBackslash : c ≠ Ascii.backslash) :
    Quoted.read q (c :: text) =
      (do
        let (value, rest) ← Quoted.read q text
        .ok (c :: value, rest)) := by
  rw [Quoted.read.eq_def]
  simp [notQuote, notBackslash, notNewline]

theorem read_short (isQuote : q ∈ quotes) {e b : UInt8} (found : Quoted.short? e = some b) :
    Quoted.read q (Ascii.backslash :: e :: text) =
      (do
        let (value, rest) ← Quoted.read q text
        .ok (b :: value, rest)) := by
  have notLine : Ascii.backslash ≠ Ascii.newline := by decide
  have plain : e ≠ 0x78 := by
    rintro rfl
    cases found
  rw [Quoted.read.eq_def]
  simp [backslash_ne isQuote, notLine, found]

theorem read_hex (isQuote : q ∈ quotes) {a b : UInt8} (found : Numeral.readIn 16 0xff [a, b] = .ok n) :
    Quoted.read q (Ascii.backslash :: 0x78 :: a :: b :: text) =
      (do
        let (value, rest) ← Quoted.read q text
        .ok (n.toUInt8 :: value, rest)) := by
  have notLine : Ascii.backslash ≠ Ascii.newline := by decide
  rw [Quoted.read.eq_def]
  simp [backslash_ne isQuote, notLine, found, mapError_ok, bind, Except.bind]

theorem read_escape (isQuote : q ∈ quotes) (c : UInt8) :
    Quoted.read q (Quoted.escape q c ++ text) =
      (do
        let (value, rest) ← Quoted.read q text
        .ok (c :: value, rest)) := by
  have itself : Quoted.short? q = some q := by
    simp only [quotes, List.mem_cons, List.not_mem_nil, or_false] at isQuote
    rcases isQuote with rfl | rfl <;> decide
  unfold Quoted.escape
  split
  · rename_i special
    rcases special with rfl | rfl
    · exact read_short text isQuote itself
    · exact read_short text isQuote rfl
  rename_i ordinary
  obtain ⟨notQuote, notBackslash⟩ := not_or.1 ordinary
  split
  · rename_i same
    subst same
    exact read_short text isQuote rfl
  rename_i notNewline
  split
  · rename_i same
    subst same
    exact read_short text isQuote rfl
  split
  · rename_i same
    subst same
    exact read_short text isQuote rfl
  split
  · obtain ⟨a, b, two⟩ : ∃ a b, Bytes.hex 2 c.toNat = [a, b] := ⟨_, _, rfl⟩
    have found := readIn_hex c
    rw [two] at found ⊢
    have read := read_hex text isQuote found
    rwa [show c.toNat.toUInt8 = c from UInt8.ofNat_toNat] at read
  · exact read_plain text notQuote notNewline notBackslash

end

theorem read_written {q : UInt8} (isQuote : q ∈ quotes) (value rest : Bytes) :
    Quoted.read q (value.flatMap (Quoted.escape q) ++ q :: rest) = .ok (value, rest) := by
  induction value with
  | nil => rw [List.flatMap_nil, List.nil_append, read_close]
  | cons c value ih =>
    rw [List.flatMap_cons, List.append_assoc, read_escape _ isQuote, ih]
    rfl

/-- A literal that is written behind any text and before any other is read, from where its opening quote stands, as the
value that was written, and what follows its closing quote is left. -/
theorem read_write_behind {q : UInt8} (isQuote : q ∈ quotes) (before value after : Bytes) :
    before <+: before ++ Quoted.write q value ∧
      ∃ body, (before ++ Quoted.write q value ++ after).drop before.length = q :: body ∧
        Quoted.read q body = .ok (value, after) := by
  refine ⟨List.prefix_append .., value.flatMap (Quoted.escape q) ++ q :: after, ?_, read_written isQuote value after⟩
  rw [List.append_assoc, List.drop_left]
  simp [Quoted.write]

/-- Both quotes, a backslash, and bytes that are escaped in each way, before what an escape could go on with. -/
theorem read_write_behind_mixed :
    Ascii.quote ∈ quotes ∧ ∃ body,
      ("x\\" ++ Quoted.write Ascii.quote [0x22, 0x27, 0x5c, 0x0a, 0x09, 0x0d, 0x00, 0x7f, 0xff] ++ "41\"").drop 2 =
        Ascii.quote :: body ∧
      Quoted.read Ascii.quote body = .ok ([0x22, 0x27, 0x5c, 0x0a, 0x09, 0x0d, 0x00, 0x7f, 0xff], "41\"") :=
  ⟨by decide, (read_write_behind (by decide) "x\\" _ "41\"").2⟩

theorem read_char {value : UInt8} (read : Quoted.read Ascii.apostrophe text = .ok ([value], rest)) :
    Lexeme.read Ascii.apostrophe text = .ok (.char value, rest) := by
  rw [Lexeme.read, if_neg (by decide), if_neg (by decide), if_pos rfl, read]
  rfl

theorem read_str {value : Bytes} (read : Quoted.read Ascii.quote text = .ok (value, rest)) :
    Lexeme.read Ascii.quote text = .ok (.str value, rest) := by
  rw [Lexeme.read, if_neg (by decide), if_neg (by decide), if_neg (by decide), if_pos rfl, read]
  rfl

theorem lexes_char (value : UInt8) (lexed : Lexes rest ls) :
    Lexes (Quoted.write Ascii.apostrophe [value] ++ rest) (.char value :: ls) := by
  have read := read_written (q := Ascii.apostrophe) (by decide) [value] rest
  simp only [Quoted.write, List.append_assoc, List.singleton_append]
  exact lexes_cons (skipGap_start (by decide) (by decide) _) (read_char read) lexed

theorem lexes_str (value : Bytes) (lexed : Lexes rest ls) :
    Lexes (Quoted.write Ascii.quote value ++ rest) (.str value :: ls) := by
  have read := read_written (q := Ascii.quote) (by decide) value rest
  simp only [Quoted.write, List.append_assoc, List.singleton_append]
  exact lexes_cons (skipGap_start (by decide) (by decide) _) (read_str read) lexed

def joining : Bytes :=
  "<>=&|+-/*"

def lone : List Punct :=
  [.openParen, .closeParen, .openBrace, .closeBrace, .comma, .semicolon]

def Punct.Apart (p : Punct) (rest : Bytes) : Prop :=
  p ∈ lone ∨ ∀ c ∈ rest.head?, c ∉ joining

theorem Punct.mem_all (p : Punct) : p ∈ all := by
  cases p <;> decide

theorem Punct.text_inj : ∀ p ∈ all, ∀ q ∈ all, p.text = q.text → p = q := by
  decide

theorem Punct.mem_joining_of_mem_tail : ∀ p ∈ all, ∀ c ∈ p.text.tail, c ∈ joining := by
  decide

theorem Punct.eq_of_lone : ∀ p ∈ lone, ∀ q ∈ all, p.text <+: q.text → q = p := by
  decide

theorem Punct.all_sorted : all.Pairwise fun q p => q ≠ p ∧ p.text.length ≤ q.text.length := by
  decide

/-- What follows makes no longer mark of this one. -/
def Punct.Ends (p : Punct) (rest : Bytes) : Prop :=
  ∀ c ∈ rest.head?, ∀ q : Punct, q.text ≠ p.text ++ [c]

theorem Punct.Apart.ends (apart : p.Apart rest) : p.Ends rest := by
  intro c next q joined
  rcases apart with isLone | stops
  · have same := eq_of_lone p isLone q q.mem_all ⟨[c], joined.symm⟩
    rw [same] at joined
    exact absurd (congrArg List.length joined) (by simp)
  · obtain ⟨d, text, spelled⟩ := List.exists_cons_of_ne_nil p.text_ne_nil
    have inTail : c ∈ q.text.tail := by simp [joined, spelled]
    exact stops c next (mem_joining_of_mem_tail q q.mem_all c inTail)

theorem Punct.text_length : ∀ p ∈ all, p.text.length ≤ 2 := by
  decide

theorem Punct.not_prefix {q : Punct} (other : q ≠ p) (longer : p.text.length ≤ q.text.length) (ends : p.Ends rest) :
    ¬ q.text <+: p.text ++ rest := by
  rintro ⟨after, whole⟩
  obtain ⟨more, extended⟩ := List.prefix_of_prefix_length_le ⟨rest, rfl⟩ ⟨after, whole⟩ longer
  rw [← extended, List.append_assoc, List.append_cancel_left_eq] at whole
  have length := congrArg List.length extended
  have short := text_length q q.mem_all
  have some := List.length_pos_iff.2 p.text_ne_nil
  rw [List.length_append] at length
  match more with
  | [] =>
    rw [List.append_nil] at extended
    exact other (text_inj q q.mem_all p p.mem_all extended.symm)
  | [c] => exact ends c (by simp [← whole]) q extended.symm
  | _ :: _ :: _ =>
    simp only [List.length_cons] at length
    omega

theorem Punct.read?_text (ends : p.Ends rest) : read? (p.text ++ rest) = some (p, rest) := by
  obtain ⟨before, after, split⟩ := List.append_of_mem p.mem_all
  have sorted := all_sorted
  rw [split, List.pairwise_append] at sorted
  have found : (all.find? fun q => q.text.isPrefixOf (p.text ++ rest)) = some p := by
    refine List.find?_eq_some_iff_append.2 ⟨List.isPrefixOf_iff_prefix.2 (List.prefix_append ..), before, after, split, ?_⟩
    intro q member
    obtain ⟨other, longer⟩ := sorted.2.2 q member p List.mem_cons_self
    rw [Bool.not_eq_true', ← Bool.not_eq_true, List.isPrefixOf_iff_prefix]
    exact not_prefix other longer ends
  rw [read?, found, Option.map_some, List.drop_left]

theorem Punct.starts : ∀ p ∈ all, ∀ c ∈ p.text.head?,
    Ascii.isLetter c = false ∧ Ascii.isDigit c = false ∧ c ≠ Ascii.apostrophe ∧ c ≠ Ascii.quote ∧ isGap c = false ∧
      (c = Ascii.slash → p = .slash) := by
  decide

theorem read_mark (whole : c :: text = p.text ++ rest) (ends : p.Ends rest) :
    Lexeme.read c text = .ok (.punct p, rest) := by
  have first : c ∈ p.text.head? := by
    obtain ⟨d, more, spelled⟩ := List.exists_cons_of_ne_nil p.text_ne_nil
    rw [spelled] at whole ⊢
    cases whole
    rfl
  obtain ⟨notLetter, notDigit, notApostrophe, notQuote, _⟩ := Punct.starts p p.mem_all c first
  rw [Lexeme.read, if_neg (by simp [notLetter]), if_neg (by simp [notDigit]), if_neg notApostrophe, if_neg notQuote, whole,
    Punct.read?_text ends]

theorem lexes_mark (apart : p.Apart rest) (lexed : Lexes rest ls) : Lexes (p.text ++ rest) (.punct p :: ls) := by
  obtain ⟨c, text, spelled⟩ := List.exists_cons_of_ne_nil p.text_ne_nil
  obtain ⟨_, _, _, _, notGap, slash⟩ := Punct.starts p p.mem_all c (by rw [spelled]; rfl)
  have start : skipGap .blank (p.text ++ rest) = .ok (p.text ++ rest) := by
    by_cases isSlash : p = .slash
    · subst isSlash
      rcases apart with never | stops
      · exact absurd never (by decide)
      change skipGap .blank (Ascii.slash :: rest) = .ok (Ascii.slash :: rest)
      cases rest with
      | nil => rfl
      | cons d rest =>
        have notComment : d ≠ Ascii.slash ∧ d ≠ Ascii.star := by
          constructor <;> rintro rfl <;> exact stops _ rfl (by decide)
        have blank : isGap Ascii.slash = false := rfl
        rw [skipGap.eq_def]
        simp [notComment, blank]
    · rw [spelled]
      exact skipGap_start notGap (fun same => isSlash (slash same)) _
  have whole : c :: (text ++ rest) = p.text ++ rest := by rw [spelled]; rfl
  have read := read_mark whole apart.ends
  rw [spelled] at start ⊢
  exact lexes_cons start read lexed

def lexemesWithin : (n : Nat) → Bytes → Option (List Lexeme)
  | 0, _ => none
  | n + 1, text =>
    match skipGap .blank text with
    | .error _ => none
    | .ok [] => some []
    | .ok (c :: text) =>
      match Lexeme.read c text with
      | .error _ => none
      | .ok (l, rest) => (lexemesWithin n rest).map (l :: ·)

theorem skipGap_idem {gap : Gap} (skipped : skipGap gap text = .ok rest) : skipGap .blank rest = .ok rest := by
  fun_induction skipGap gap text with
  | case1 => cases skipped
  | case4 | case7 =>
    cases skipped
    rfl
  | case11 c text notLine notBlock stops =>
    cases skipped
    rw [skipGap, if_neg stops]
    · exact notLine
    · exact notBlock
  | case2 | case3 | case5 | case6 | case8 | case9 | case10 => simp_all

theorem lexes_of_lexemesWithin (found : lexemesWithin n text = some ls) : Lexes text ls := by
  induction n generalizing text ls with
  | zero => cases found
  | succ n ih =>
    intro size
    rw [lexemesWithin] at found
    split at found
    · cases found
    · rename_i skipped
      cases found
      have same : skipGap .blank text = skipGap .blank [] := skipped
      rw [scanFrom_of_skipGap same]
      exact lexes_nil size
    · rename_i c rest skipped
      split at found
      · cases found
      · rename_i l after read
        obtain ⟨others, inside, rfl⟩ := Option.map_eq_some_iff.1 found
        have start := skipGap_idem skipped
        rw [scanFrom_of_skipGap (skipped.trans start.symm)]
        exact lexes_cons start read (ih inside) size

def Spells (Ended : Bytes → Prop) (text : Bytes) (ls : List Lexeme) : Prop :=
  ∀ rest ls', Ended rest → Lexes rest ls' → Lexes (text ++ rest) (ls ++ ls')

abbrev SpellsAlways : Bytes → List Lexeme → Prop :=
  Spells fun _ => True

abbrev SpellsApart : Bytes → List Lexeme → Prop :=
  Spells NotWord

variable {Ended : Bytes → Prop} {text text' : Bytes} {ls rs : List Lexeme}

theorem SpellsAlways.apart (spelled : SpellsAlways text ls) : SpellsApart text ls :=
  fun rest ls' _ => spelled rest ls' trivial

theorem SpellsAlways.append (first : SpellsAlways text ls) (second : Spells Ended text' rs) :
    Spells Ended (text ++ text') (ls ++ rs) := by
  intro rest ls' ended lexed
  rw [List.append_assoc, List.append_assoc]
  exact first _ _ trivial (second rest ls' ended lexed)

theorem SpellsApart.append (first : SpellsApart text ls) (breaks : Breaks text') (second : Spells Ended text' rs) :
    Spells Ended (text ++ text') (ls ++ rs) := by
  intro rest ls' ended lexed
  rw [List.append_assoc, List.append_assoc]
  exact first _ _ (breaks.append rest).notWord (second rest ls' ended lexed)

theorem spells_nil : SpellsAlways [] [] :=
  fun _ _ _ lexed => lexed

theorem spells_gaps (gaps : Bytes) (all : ∀ c ∈ gaps, isGap c = true) : SpellsAlways gaps [] := by
  intro rest ls' _ lexed
  induction gaps with
  | nil => exact lexed
  | cons c gaps ih =>
    exact lexes_gap (all c List.mem_cons_self) (ih fun d member => all d (List.mem_cons_of_mem c member))

theorem spells_name {name : Name} (spelled : IsSpelled name) : SpellsApart name [.ident name] :=
  fun _ _ ended lexed => lexes_name spelled ended lexed

theorem spells_lone (isLone : p ∈ lone) : SpellsAlways p.text [.punct p] :=
  fun _ _ _ lexed => lexes_mark (.inl isLone) lexed

theorem spells_spaced (p : Punct) : SpellsAlways (Ascii.space :: (p.text ++ [Ascii.space])) [.punct p] := by
  intro rest ls' _ lexed
  refine lexes_gap rfl ?_
  rw [List.append_eq, List.append_assoc]
  exact lexes_mark (.inr (by rintro c ⟨⟩; decide)) (lexes_gap rfl lexed)

end MiniC.Source
