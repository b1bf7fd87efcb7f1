import MiniC.Proofs.Source.Lexing

namespace MiniC.Source

/-- Blanks and comments. They are closed if every comment in them is ended; one that is not goes to the end of the
text. -/
inductive IsTrivia : (closed : Bool) → Bytes → Prop
  | nil : IsTrivia true []
  | blank {closed c text} : isGap c = true → IsTrivia closed text → IsTrivia closed (c :: text)
  | line {closed body text} : Ascii.newline ∉ body → IsTrivia closed text →
    IsTrivia closed (Ascii.slash :: Ascii.slash :: (body ++ Ascii.newline :: text))
  | block {closed body text} : ¬ [Ascii.star, Ascii.slash] <:+: body → IsTrivia closed text →
    IsTrivia closed (Ascii.slash :: Ascii.star :: (body ++ Ascii.star :: Ascii.slash :: text))
  | lastLine {body} : Ascii.newline ∉ body → IsTrivia false (Ascii.slash :: Ascii.slash :: body)

inductive OpensComment : Bytes → Prop
  | line {text} : OpensComment (Ascii.slash :: Ascii.slash :: text)
  | block {text} : OpensComment (Ascii.slash :: Ascii.star :: text)

section

variable {closed : Bool} {body text rest : Bytes}

theorem skipGap_opensLine : skipGap .blank (Ascii.slash :: Ascii.slash :: text) = skipGap .line text :=
  rfl

theorem skipGap_opensBlock : skipGap .blank (Ascii.slash :: Ascii.star :: text) =
    skipGap (.block (Ascii.slash :: Ascii.star :: text)) text :=
  rfl

theorem skipGap_endsBlock (opened : Bytes) :
    skipGap (.block opened) (Ascii.star :: Ascii.slash :: text) = skipGap .blank text :=
  rfl

theorem skipGap_line (unended : Ascii.newline ∉ body) (rest : Bytes) :
    skipGap .line body = .ok [] ∧ skipGap .line (body ++ Ascii.newline :: rest) = skipGap .blank rest := by
  induction body with
  | nil => exact ⟨rfl, by rw [List.nil_append, skipGap, if_pos rfl]⟩
  | cons c body ih =>
    obtain ⟨notEnd, unended⟩ := List.ne_and_not_mem_of_not_mem_cons unended
    rw [List.cons_append, skipGap, skipGap, if_neg notEnd.symm, if_neg notEnd.symm]
    exact ih unended

theorem skipGap_block_cons {c : UInt8} (opened : Bytes) (unended : ¬ [Ascii.star, Ascii.slash] <+: c :: text) :
    skipGap (.block opened) (c :: text) = skipGap (.block opened) text := by
  rw [skipGap]
  rintro after rfl rfl
  exact unended ⟨after, rfl⟩

theorem skipGap_block (opened : Bytes) (unended : ¬ [Ascii.star, Ascii.slash] <:+: body) :
    skipGap (.block opened) (body ++ Ascii.star :: Ascii.slash :: rest) = skipGap .blank rest := by
  induction body with
  | nil => exact skipGap_endsBlock opened
  | cons c body ih =>
    obtain ⟨notHere, notLater⟩ := not_or.1 (mt List.infix_cons_iff.2 unended)
    rw [List.cons_append, skipGap_block_cons, ih notLater]
    -- The mark that ends the comment starts with a star, so it makes no earlier end with the body before it.
    cases body with
    | nil =>
      rintro ⟨_, same⟩
      cases same
    | cons d body =>
      rintro ⟨_, same⟩
      cases same
      exact notHere ⟨body, rfl⟩

theorem IsTrivia.skipGap_append {gap : Bytes} (trivia : IsTrivia closed gap) (isClosed : closed = true) :
    skipGap .blank (gap ++ rest) = skipGap .blank rest := by
  induction trivia with
  | nil => rfl
  | blank isBlank _ ih => rw [List.cons_append, skipGap_gap isBlank, ih isClosed]
  | line unended _ ih =>
    rw [List.cons_append, List.cons_append, List.append_assoc, skipGap_opensLine, List.cons_append, (skipGap_line unended _).2,
      ih isClosed]
  | block unended _ ih =>
    rw [List.cons_append, List.cons_append, List.append_assoc, skipGap_opensBlock, List.cons_append, List.cons_append,
      skipGap_block _ unended, ih isClosed]
  | lastLine => cases isClosed

theorem IsTrivia.skipGap_eq_nil {gap : Bytes} (trivia : IsTrivia closed gap) : skipGap .blank gap = .ok [] := by
  induction trivia with
  | nil => rfl
  | blank isBlank _ ih => rw [skipGap_gap isBlank, ih]
  | line unended _ ih => rw [skipGap_opensLine, (skipGap_line unended _).2, ih]
  | block unended _ ih => rw [skipGap_opensBlock, skipGap_block _ unended, ih]
  | lastLine unended => rw [skipGap_opensLine, (skipGap_line unended []).1]

theorem exists_block {opened : Bytes} (skipped : skipGap (.block opened) text = .ok rest) :
    ∃ body after, text = body ++ Ascii.star :: Ascii.slash :: after ∧ ¬ [Ascii.star, Ascii.slash] <:+: body ∧
      skipGap .blank after = .ok rest := by
  induction text with
  | nil => cases skipped
  | cons c text ih =>
    by_cases ended : [Ascii.star, Ascii.slash] <+: c :: text
    · obtain ⟨after, whole⟩ := ended
      rw [← whole, List.cons_append, List.singleton_append, skipGap_endsBlock] at skipped
      exact ⟨[], after, whole.symm, by decide, skipped⟩
    · rw [skipGap_block_cons opened ended] at skipped
      obtain ⟨body, after, rfl, unended, later⟩ := ih skipped
      refine ⟨c :: body, after, rfl, fun inside => ?_, later⟩
      rcases List.infix_cons_iff.1 inside with here | inside
      · exact ended (here.trans (List.prefix_append (c :: body) _))
      · exact unended inside

theorem skipGap_cons {c : UInt8} (notComment : ¬ OpensComment (c :: text)) :
    skipGap .blank (c :: text) = if isGap c then skipGap .blank text else .ok (c :: text) := by
  rw [skipGap]
  · rintro after rfl rfl
    exact notComment .line
  · rintro after rfl rfl
    exact notComment .block

theorem exists_trivia {text rest : Bytes} (skipped : skipGap .blank text = .ok rest) :
    ∃ closed gap, IsTrivia closed gap ∧ text = gap ++ rest ∧ (closed = false → rest = []) := by
  -- A comment takes more than one byte, so the induction is on the length.
  induction length : text.length using Nat.strong_induction_on generalizing text with
  | _ n ih =>
    subst length
    by_cases comment : OpensComment text
    · cases comment with
      | @line text =>
        rw [skipGap_opensLine] at skipped
        by_cases ended : Ascii.newline ∈ text
        · obtain ⟨body, after, rfl, unended⟩ := List.eq_append_cons_of_mem ended
          rw [(skipGap_line unended _).2] at skipped
          have shorter : after.length < (Ascii.slash :: Ascii.slash :: (body ++ Ascii.newline :: after)).length := by
            simp only [List.length_cons, List.length_append]
            omega
          obtain ⟨closed, gap, trivia, rfl, last⟩ := ih _ shorter skipped rfl
          exact ⟨closed, _, .line unended trivia, by simp, last⟩
        · rw [(skipGap_line ended []).1] at skipped
          cases skipped
          exact ⟨false, _, .lastLine ended, by simp, fun _ => rfl⟩
      | @block text =>
        rw [skipGap_opensBlock] at skipped
        obtain ⟨body, after, rfl, unended, later⟩ := exists_block skipped
        have shorter : after.length <
            (Ascii.slash :: Ascii.star :: (body ++ Ascii.star :: Ascii.slash :: after)).length := by
          simp only [List.length_cons, List.length_append]
          omega
        obtain ⟨closed, gap, trivia, rfl, last⟩ := ih _ shorter later rfl
        exact ⟨closed, _, .block unended trivia, by simp, last⟩
    · cases text with
      | nil =>
        cases skipped
        exact ⟨true, [], .nil, rfl, by simp⟩
      | cons c text =>
        rw [skipGap_cons comment] at skipped
        split at skipped
        · rename_i isBlank
          obtain ⟨closed, gap, trivia, rfl, last⟩ := ih _ (Nat.lt_succ_self text.length) skipped rfl
          exact ⟨closed, c :: gap, .blank isBlank trivia, rfl, last⟩
        · cases skipped
          exact ⟨true, [], .nil, rfl, by simp⟩

theorem skipGap_eq_self {c : UInt8} :
    skipGap .blank (c :: text) = .ok (c :: text) ↔ isGap c = false ∧ ¬ OpensComment (c :: text) := by
  constructor
  · intro skipped
    have notComment : ¬ OpensComment (c :: text) := by
      intro comment
      cases comment with
      | line =>
        rw [skipGap_opensLine] at skipped
        exact absurd (skipGap_le skipped) (by simp only [List.length_cons]; omega)
      | block =>
        rw [skipGap_opensBlock] at skipped
        exact absurd (skipGap_le skipped) (by simp only [List.length_cons]; omega)
    refine ⟨?_, notComment⟩
    by_contra isBlank
    rw [skipGap_cons notComment, if_pos (by simpa using isBlank)] at skipped
    exact absurd (skipGap_le skipped) (by simp)
  · rintro ⟨notBlank, notComment⟩
    rw [skipGap_cons notComment, if_neg (by simp [notBlank])]

end

/-- What the escapes of one letter stand for. -/
def escapes : List (UInt8 × UInt8) :=
  [(0x6e, Ascii.newline), (0x74, Ascii.tab), (0x72, Ascii.carriageReturn), (Ascii.zero, 0),
   (Ascii.backslash, Ascii.backslash), (Ascii.apostrophe, Ascii.apostrophe), (Ascii.quote, Ascii.quote)]

/-- A digit of base sixteen, in either case, and its value. -/
def IsHexDigit (c : UInt8) (n : Nat) : Prop :=
  ("0123456789abcdef" : Bytes)[n]? = some c ∨ ("0123456789ABCDEF" : Bytes)[n]? = some c

/-- What stands between quotes `q`, and the bytes it denotes. -/
inductive Denotes (q : UInt8) : (body value : Bytes) → Prop
  | nil : Denotes q [] []
  | plain {c body value} : c ∉ [q, Ascii.newline, Ascii.backslash] → Denotes q body value → Denotes q (c :: body) (c :: value)
  | short {e c body value} : (e, c) ∈ escapes → Denotes q body value →
    Denotes q (Ascii.backslash :: e :: body) (c :: value)
  | hex {a b m n body value} : IsHexDigit a m → IsHexDigit b n → Denotes q body value →
    Denotes q (Ascii.backslash :: 0x78 :: a :: b :: body) ((16 * m + n).toUInt8 :: value)

theorem short?_eq_some {e c : UInt8} : Quoted.short? e = some c ↔ (e, c) ∈ escapes := by
  unfold Quoted.short? escapes
  simp only [List.mem_cons, Prod.mk.injEq, List.not_mem_nil, or_false]
  grind

theorem digit?_eq_some {c : UInt8} {n : Nat} : Numeral.digit? c = some n ∧ n < 16 ↔ IsHexDigit c n := by
  unfold IsHexDigit
  have each : ∀ c < 256, ∀ n < 16, Numeral.digit? (UInt8.ofNat c) = some n ↔
      ("0123456789abcdef" : Bytes)[n]? = some (UInt8.ofNat c) ∨ ("0123456789ABCDEF" : Bytes)[n]? = some (UInt8.ofNat c) := by
    decide +kernel
  have found := each c.toNat c.toNat_lt n
  rw [UInt8.ofNat_toNat] at found
  by_cases small : n < 16
  · rw [← found small]
    exact and_iff_left small
  · have lower : ("0123456789abcdef" : Bytes)[n]? = none := List.getElem?_eq_none (Nat.not_lt.1 small)
    have upper : ("0123456789ABCDEF" : Bytes)[n]? = none := List.getElem?_eq_none (Nat.not_lt.1 small)
    simp [small, lower, upper]

theorem digits_cons_eq_ok {base most n k : Nat} {c : UInt8} {text : Bytes} :
    Numeral.digits base most false n (c :: text) = .ok k ↔
      ∃ d, Numeral.digit? c = some d ∧ d < base ∧ n * base + d ≤ most ∧
        Numeral.digits base most false (n * base + d) text = .ok k := by
  rw [Numeral.digits, if_neg (by simp)]
  cases Numeral.digit? c with
  | none => simp
  | some d =>
    simp only [Option.some.injEq, exists_eq_left']
    split
    · simp only [reduceCtorEq, false_iff]
      omega
    split
    · simp only [reduceCtorEq, false_iff]
      omega
    · grind

theorem readIn_eq_ok {a b : UInt8} {k : Nat} :
    Numeral.readIn 16 0xff [a, b] = .ok k ↔ ∃ m n, IsHexDigit a m ∧ IsHexDigit b n ∧ k = 16 * m + n := by
  rw [Numeral.readIn, if_neg (by simp)]
  simp only [digits_cons_eq_ok, ← digit?_eq_some, Numeral.digits.eq_1, Except.ok.injEq]
  constructor
  · rintro ⟨m, first, small, _, n, second, small', _, rfl⟩
    exact ⟨m, n, ⟨first, small⟩, ⟨second, small'⟩, by omega⟩
  · rintro ⟨m, n, ⟨first, small⟩, ⟨second, small'⟩, rfl⟩
    exact ⟨m, first, small, by omega, n, second, small', by omega, by omega⟩

theorem Denotes.read {q : UInt8} (isQuote : q ∈ quotes) {body value : Bytes} (denotes : Denotes q body value) (rest : Bytes) :
    Quoted.read q (body ++ q :: rest) = .ok (value, rest) := by
  induction denotes with
  | nil => rw [List.nil_append, read_close]
  | plain ordinary _ ih =>
    simp only [List.mem_cons, List.not_mem_nil, or_false, not_or] at ordinary
    obtain ⟨notQuote, notNewline, notBackslash⟩ := ordinary
    rw [List.cons_append, read_plain _ notQuote notNewline notBackslash, ih]
    rfl
  | short escape _ ih =>
    rw [List.cons_append, List.cons_append, read_short _ isQuote (short?_eq_some.2 escape), ih]
    rfl
  | hex first second _ ih =>
    rw [List.cons_append, List.cons_append, List.cons_append, List.cons_append,
      read_hex _ isQuote (readIn_eq_ok.2 ⟨_, _, first, second, rfl⟩), ih]
    rfl

theorem exists_denotes {q : UInt8} {text value rest : Bytes} (read : Quoted.read q text = .ok (value, rest)) :
    ∃ body, text = body ++ q :: rest ∧ Denotes q body value := by
  fun_induction Quoted.read q text generalizing value rest with
  | case1 => cases read
  | case2 =>
    cases read
    exact ⟨[], rfl, .nil⟩
  | case3 => cases read
  | case4 => cases read
  | case5 a b text _ _ ih =>
    obtain ⟨k, digits, read⟩ := bind_eq_ok.1 read
    obtain ⟨⟨value, rest⟩, later, done⟩ := bind_eq_ok.1 read
    cases done
    obtain ⟨m, n, first, second, rfl⟩ := readIn_eq_ok.1 (mapError_eq_ok.1 digits)
    obtain ⟨body, rfl, denotes⟩ := ih later
    exact ⟨_, rfl, .hex first second denotes⟩
  | case6 => cases read
  | case7 e text _ c escape _ _ ih =>
    obtain ⟨⟨value, rest⟩, later, done⟩ := bind_eq_ok.1 read
    cases done
    obtain ⟨body, rfl, denotes⟩ := ih later
    exact ⟨_, rfl, .short (short?_eq_some.1 escape) denotes⟩
  | case8 => cases read
  | case9 c text notQuote notNewline notBackslash ih =>
    obtain ⟨⟨value, rest⟩, later, done⟩ := bind_eq_ok.1 read
    cases done
    obtain ⟨body, rfl, denotes⟩ := ih later
    exact ⟨c :: body, rfl, .plain (by simp [notQuote, notNewline, notBackslash]) denotes⟩

/-- How a lexeme is written: words and marks as they are, literals between quotes by what denotes their value. -/
inductive Lexeme.WrittenAs : Lexeme → Bytes → Prop
  | ident {name} : IsSpelled name → WrittenAs (.ident name) name
  | int {c word} : Ascii.isDigit c = true → (∀ d ∈ word, Ascii.isWord d = true) → WrittenAs (.int (c :: word)) (c :: word)
  | char {body value} : Denotes Ascii.apostrophe body [value] →
    WrittenAs (.char value) (Ascii.apostrophe :: (body ++ [Ascii.apostrophe]))
  | str {body value} : Denotes Ascii.quote body value → WrittenAs (.str value) (Ascii.quote :: (body ++ [Ascii.quote]))
  | punct (p) : WrittenAs (.punct p) p.text

/-- What follows does not go on with a lexeme: neither a word with a word nor a mark with another. -/
def Lexeme.Ends : Lexeme → Bytes → Prop
  | .ident _, rest | .int _, rest => NotWord rest
  | .punct p, rest => p.Ends rest
  | .char _, _ | .str _, _ => True

theorem Lexeme.WrittenAs.ne_nil {l : Lexeme} {spelling : Bytes} (written : l.WrittenAs spelling) : spelling ≠ [] := by
  cases written with
  | ident spelled =>
    obtain ⟨c, word, rfl, _⟩ := spelled
    exact List.cons_ne_nil c word
  | punct p => exact p.text_ne_nil
  | int | char | str => exact List.cons_ne_nil _ _

theorem Punct.ends_of_read? {input rest : Bytes} {p : Punct} (read : Punct.read? input = some (p, rest)) : p.Ends rest := by
  intro c next q joined
  have whole := Punct.read?_eq read
  obtain ⟨p', found, same⟩ := Option.map_eq_some_iff.1 read
  obtain ⟨rfl, -⟩ := Prod.mk.inj same
  obtain ⟨_, before, after, split, skipped⟩ := List.find?_eq_some_iff_append.1 found
  have matched : q.text <+: input := by
    cases rest with
    | nil => cases next
    | cons d rest =>
      cases next
      exact ⟨rest, by rw [whole, joined]; simp⟩
  have length := congrArg List.length joined
  rw [List.length_append, List.length_singleton] at length
  have member := q.mem_all
  have sorted := Punct.all_sorted
  rw [split] at member sorted
  rcases List.mem_append.1 member with earlier | later
  · have other := skipped q earlier
    rw [List.isPrefixOf_iff_prefix.2 matched] at other
    cases other
  · rcases List.mem_cons.1 later with rfl | later
    · omega
    · have shorter := (List.pairwise_cons.1 (List.pairwise_append.1 sorted).2.1).1 q later
      omega

theorem takeWhile_words {word : Bytes} : ∀ d ∈ word.takeWhile Ascii.isWord, Ascii.isWord d = true :=
  fun d member => List.all_eq_true.1 List.all_takeWhile d member

theorem notWord_dropWhile {text : Bytes} : NotWord (text.dropWhile Ascii.isWord) := by
  intro c next
  have stopped := List.head?_dropWhile_not Ascii.isWord text
  rwa [Option.mem_def.1 next] at stopped

theorem Lexeme.exists_spelling {c : UInt8} {text rest : Bytes} {l : Lexeme} (read : Lexeme.read c text = .ok (l, rest)) :
    ∃ spelling, c :: text = spelling ++ rest ∧ l.WrittenAs spelling ∧ l.Ends rest := by
  have words : text = text.takeWhile Ascii.isWord ++ text.dropWhile Ascii.isWord := List.takeWhile_append_dropWhile.symm
  unfold Lexeme.read at read
  split at read
  · rename_i letter
    cases read
    exact ⟨_, congrArg (c :: ·) words, .ident ⟨c, _, rfl, letter, takeWhile_words⟩, notWord_dropWhile⟩
  split at read
  · rename_i digit
    cases read
    exact ⟨_, congrArg (c :: ·) words, .int digit takeWhile_words, notWord_dropWhile⟩
  split at read
  · rename_i isApostrophe
    subst isApostrophe
    obtain ⟨⟨value, after⟩, quoted, done⟩ := bind_eq_ok.1 read
    obtain ⟨body, rfl, denotes⟩ := exists_denotes (mapError_eq_ok.1 quoted)
    dsimp only at done
    split at done
    · cases done
      exact ⟨_, by simp, .char denotes, trivial⟩
    · cases done
  split at read
  · rename_i isQuote
    subst isQuote
    obtain ⟨⟨value, after⟩, quoted, done⟩ := bind_eq_ok.1 read
    obtain ⟨body, rfl, denotes⟩ := exists_denotes (mapError_eq_ok.1 quoted)
    cases done
    exact ⟨_, by simp, .str denotes, trivial⟩
  split at read
  · rename_i p after found
    cases read
    exact ⟨_, Punct.read?_eq found, .punct p, Punct.ends_of_read? found⟩
  · cases read

theorem Lexeme.WrittenAs.read {l : Lexeme} {c : UInt8} {text spelling rest : Bytes} (written : l.WrittenAs spelling)
    (ends : l.Ends rest) (whole : c :: text = spelling ++ rest) : Lexeme.read c text = .ok (l, rest) := by
  cases written with
  | ident spelled =>
    obtain ⟨d, word, rfl, letter, words⟩ := spelled
    cases whole
    exact read_name letter words ends
  | int digit words =>
    cases whole
    exact read_numeral digit words ends
  | char denotes =>
    rw [List.cons_append, List.append_assoc] at whole
    cases whole
    exact read_char (denotes.read (by decide) rest)
  | str denotes =>
    rw [List.cons_append, List.append_assoc] at whole
    cases whole
    exact read_str (denotes.read (by decide) rest)
  | punct p => exact read_mark whole ends

end MiniC.Source
