import MiniC.Proofs.Source.Spelling

namespace MiniC.Source

/-- A lexeme in a text: the blanks and comments before it, and how it is written. -/
structure Piece where
  gap : Bytes
  spelling : Bytes
  lexeme : Lexeme

/-- The text of pieces and of what stands after the last. -/
def spell : List Piece → Bytes → Bytes
  | [], last => last
  | p :: ps, last => p.gap ++ (p.spelling ++ spell ps last)

/-- The tokens of pieces, of which the first starts after `offset` bytes. -/
def tokensFrom : Nat → List Piece → List Token
  | _, [] => []
  | offset, p :: ps =>
    ⟨p.lexeme, offset + p.gap.length⟩ :: tokensFrom (offset + p.gap.length + p.spelling.length) ps

/-- Pieces that the lexer finds. No lexeme goes on with what follows it, and none starts a comment. -/
inductive IsLayout : List Piece → (last : Bytes) → Prop
  | last {closed last} : IsTrivia closed last → IsLayout [] last
  | piece {p ps last} : IsTrivia true p.gap → p.lexeme.WrittenAs p.spelling → p.lexeme.Ends (spell ps last) →
    ¬ OpensComment (p.spelling ++ spell ps last) → IsLayout ps last → IsLayout (p :: ps) last

theorem map_lexeme_tokensFrom (offset : Nat) (ps : List Piece) :
    (tokensFrom offset ps).map Token.lexeme = ps.map Piece.lexeme := by
  induction ps generalizing offset with
  | nil => rfl
  | cons p ps ih => rw [tokensFrom, List.map_cons, List.map_cons, ih]

theorem Lexeme.WrittenAs.not_isGap {l : Lexeme} {spelling : Bytes} (written : l.WrittenAs spelling) :
    ∀ c ∈ spelling.head?, isGap c = false := by
  intro c first
  cases written with
  | ident spelled =>
    obtain ⟨d, word, rfl, letter, _⟩ := spelled
    cases first
    exact (not_isGap_of_isWord (by simp [Ascii.isWord, letter])).1
  | int digit =>
    cases first
    exact (not_isGap_of_isWord (by simp [Ascii.isWord, digit])).1
  | char | str =>
    cases first
    rfl
  | punct p => exact (Punct.starts p p.mem_all c first).2.2.2.2.1

theorem IsLayout.scanFrom {ps : List Piece} {last : Bytes} (layout : IsLayout ps last) {size : Nat}
    (fits : (spell ps last).length ≤ size) :
    Token.scanFrom size (spell ps last) = .ok (tokensFrom (size - (spell ps last).length) ps) := by
  induction layout with
  | last trivia => exact scanFrom_eq_ok.2 (.inl ⟨trivia.skipGap_eq_nil, rfl⟩)
  | @piece p ps last trivia written ends notComment _ ih =>
    obtain ⟨c, more, spelled⟩ := List.exists_cons_of_ne_nil written.ne_nil
    have whole : c :: (more ++ spell ps last) = p.spelling ++ spell ps last := by rw [spelled]; rfl
    have skipped : skipGap .blank (spell (p :: ps) last) = .ok (c :: (more ++ spell ps last)) := by
      rw [spell, trivia.skipGap_append rfl, ← whole, skipGap_eq_self, whole]
      exact ⟨written.not_isGap c (by rw [spelled]; rfl), notComment⟩
    simp only [spell, List.length_append] at fits
    have later := ih (by omega)
    refine scanFrom_eq_ok.2 (.inr ⟨c, _, p.lexeme, _, _, skipped, written.read ends whole, later, ?_⟩)
    rw [whole, tokensFrom]
    simp only [spell, List.length_append]
    congr 2 <;> omega

theorem exists_layout {size : Nat} {input : Bytes} {tokens : List Token} (fits : input.length ≤ size)
    (scanned : Token.scanFrom size input = .ok tokens) :
    ∃ ps last, IsLayout ps last ∧ input = spell ps last ∧ tokens = tokensFrom (size - input.length) ps := by
  rcases scanFrom_eq_ok.1 scanned with ⟨skipped, rfl⟩ | ⟨c, text, l, rest, others, skipped, read, later, rfl⟩
  · obtain ⟨closed, last, trivia, rfl, _⟩ := exists_trivia skipped
    exact ⟨[], last, .last trivia, List.append_nil last, rfl⟩
  · obtain ⟨closed, gap, trivia, split, ended⟩ := exists_trivia skipped
    obtain rfl : closed = true := by
      by_contra isOpen
      exact absurd (ended (by simpa using isOpen)) (List.cons_ne_nil c text)
    obtain ⟨spelling, whole, written, ends⟩ := Lexeme.exists_spelling read
    have length := congrArg List.length split
    rw [whole, List.length_append, List.length_append] at length
    have some := List.length_pos_iff.2 written.ne_nil
    have shorter : rest.length < input.length := by omega
    obtain ⟨ps, last, layout, rfl, rfl⟩ := exists_layout (by omega) later
    have notComment := (skipGap_eq_self.1 (skipGap_idem skipped)).2
    rw [whole] at notComment
    refine ⟨⟨gap, spelling, l⟩ :: ps, last, .piece trivia written ends notComment layout, by rw [split, spell, whole], ?_⟩
    rw [tokensFrom, whole, List.length_append]
    dsimp only
    congr 2 <;> omega
termination_by input.length

section

variable {rest rest' : Bytes}

theorem Lexeme.Ends.of_blank {l : Lexeme} (ends : l.Ends rest) (start : ∀ c ∈ rest'.head?, c ∈ rest.head? ∨ isGap c = true) :
    l.Ends rest' := by
  have words : NotWord rest → NotWord rest' := by
    intro ended c next
    rcases start c next with same | blank
    · exact ended c same
    · by_contra word
      rw [(not_isGap_of_isWord (by simpa using word)).1] at blank
      cases blank
  cases l with
  | ident => exact words ends
  | int => exact words ends
  | char => trivial
  | str => trivial
  | punct p =>
    intro c next q joined
    rcases start c next with same | blank
    · exact ends c same q joined
    · obtain ⟨d, text, spelled⟩ := List.exists_cons_of_ne_nil p.text_ne_nil
      have joins := Punct.mem_joining_of_mem_tail q q.mem_all c (by simp [joined, spelled])
      have notBlank : ∀ c ∈ joining, isGap c = false := by decide
      rw [notBlank c joins] at blank
      cases blank

theorem not_opensComment_of_blank {spelling : Bytes} (some : spelling ≠ []) (notComment : ¬ OpensComment (spelling ++ rest))
    (start : ∀ c ∈ rest'.head?, c ∈ rest.head? ∨ isGap c = true) : ¬ OpensComment (spelling ++ rest') := by
  intro comment
  match spelling with
  | [] => exact some rfl
  | [b] =>
    -- The second byte of the comment is the first of the rest.
    have second : ∃ c ∈ rest'.head?, isGap c = false ∧ (c ∈ rest.head? → OpensComment (b :: rest)) := by
      generalize same : [b] ++ rest' = text at comment
      cases comment with
      | line =>
        cases same
        refine ⟨Ascii.slash, rfl, rfl, fun first => ?_⟩
        obtain ⟨after, rfl⟩ := List.head?_eq_some_iff.1 first
        exact .line
      | block =>
        cases same
        refine ⟨Ascii.star, rfl, rfl, fun first => ?_⟩
        obtain ⟨after, rfl⟩ := List.head?_eq_some_iff.1 first
        exact .block
    obtain ⟨c, first, notBlank, before⟩ := second
    rcases start c first with first | blank
    · exact notComment (before first)
    · rw [notBlank] at blank
      cases blank
  | a :: b :: more =>
    apply notComment
    generalize same : a :: b :: more ++ rest' = text at comment
    cases comment with
    | line =>
      cases same
      exact .line
    | block =>
      cases same
      exact .block

theorem head?_spell {p : Piece} (some : p.spelling ≠ []) (ps : List Piece) (last : Bytes) :
    (spell (p :: ps) last).head? = (p.gap ++ p.spelling).head? := by
  obtain ⟨c, more, spelled⟩ := List.exists_cons_of_ne_nil some
  simp [spell, spelled, List.head?_append]

theorem IsLayout.replace {before after : List Piece} {p : Piece} {last gap : Bytes}
    (layout : IsLayout (before ++ p :: after) last) (trivia : IsTrivia true gap) (blank : ∃ c ∈ gap.head?, isGap c = true) :
    IsLayout (before ++ { p with gap } :: after) last := by
  induction before with
  | nil =>
    cases layout with
    | piece _ written ends notComment others => exact .piece trivia written ends notComment others
  | cons q before ih =>
    cases layout with
    | piece gapped written ends notComment others =>
      -- Only the first byte behind a lexeme matters, and it stays or is a blank.
      have start : ∀ c ∈ (spell (before ++ { p with gap } :: after) last).head?,
          c ∈ (spell (before ++ p :: after) last).head? ∨ isGap c = true := by
        cases before with
        | nil =>
          intro c first
          obtain ⟨d, isFirst, blank⟩ := blank
          obtain ⟨more, rfl⟩ := List.head?_eq_some_iff.1 isFirst
          cases first
          exact .inr blank
        | cons r before =>
          intro c first
          cases others with
          | piece _ written =>
            rw [List.cons_append, head?_spell written.ne_nil] at first ⊢
            exact .inl first
      exact .piece gapped written (ends.of_blank start) (not_opensComment_of_blank written.ne_nil notComment start)
        (ih others)

end

/-- A text that is cut into tokens is made of blanks, comments and the spellings of the tokens, each at its place. A
lexeme is as long as can be. Other blanks and comments before a lexeme, closed and led by a blank, leave the lexemes as
they are. -/
theorem exists_layout_of_scan {text : Bytes} {tokens : List Token} (scanned : Token.scan text = .ok tokens) :
    ∃ pieces last, text = spell pieces last ∧ IsLayout pieces last ∧ tokens = tokensFrom 0 pieces ∧
      ∀ before p after gap, pieces = before ++ p :: after → IsTrivia true gap → (∃ c ∈ gap.head?, isGap c = true) →
        ∃ tokens', Token.scan (spell (before ++ { p with gap } :: after) last) = .ok tokens' ∧
          tokens'.map Token.lexeme = tokens.map Token.lexeme := by
  obtain ⟨pieces, last, layout, rfl, rfl⟩ := exists_layout (Nat.le_refl _) scanned
  refine ⟨pieces, last, rfl, layout, by rw [Nat.sub_self], ?_⟩
  rintro before p after gap rfl trivia blank
  refine ⟨_, (layout.replace trivia blank).scanFrom (Nat.le_refl _), ?_⟩
  simp [map_lexeme_tokensFrom]

def tightText : Bytes :=
  "a//x\n/ /**/b<<==='\\n'\"\\x4a\"07//z"

theorem exists_layout_of_scan_tight :
    ∃ tokens, Token.scan tightText = .ok tokens ∧
      tokens.map Token.lexeme = [.ident "a", .punct .slash, .ident "b", .punct .shiftLeft, .punct .eq, .punct .assign,
        .char Ascii.newline, .str "J", .int "07"] ∧
      ∃ pieces last, tightText = spell pieces last ∧ IsLayout pieces last ∧ tokens = tokensFrom 0 pieces ∧
        ∀ before p after gap, pieces = before ++ p :: after → IsTrivia true gap → (∃ c ∈ gap.head?, isGap c = true) →
          ∃ tokens', Token.scan (spell (before ++ { p with gap } :: after) last) = .ok tokens' ∧
            tokens'.map Token.lexeme = tokens.map Token.lexeme := by
  have lexed : lexemesWithin 10 tightText =
      some [.ident "a", .punct .slash, .ident "b", .punct .shiftLeft, .punct .eq, .punct .assign, .char Ascii.newline,
        .str "J", .int "07"] := by
    decide +kernel
  obtain ⟨tokens, scanned, plain⟩ := lexes_of_lexemesWithin lexed tightText.length
  exact ⟨tokens, scanned, plain, exists_layout_of_scan scanned⟩

end MiniC.Source
