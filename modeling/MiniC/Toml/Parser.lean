import MiniC.Text.Utf8
import MiniC.Toml.Quoted

namespace MiniC.Toml

def isControl (c : Char) : Bool :=
  (c < ' ' && c != '\t' && c != '\n' && c != '\r') || c == '\x7f'

def replacement : Char := '\ufffd'

/-- No control characters but tabs and line ends, carriage returns before newlines only, and no
replacement characters. -/
def clean : List Char → Bool
  | [] => true
  | '\r' :: cs => cs.head? == some '\n' && clean cs
  | c :: cs => !isControl c && c != replacement && clean cs

def unmarked (text : Bytes) : Bytes :=
  match text with
  | 0xff :: 0xfe :: rest => rest
  | 0xfe :: 0xff :: rest => rest
  | 0xef :: 0xbb :: 0xbf :: rest => rest
  | rest => rest

def pieceChar? : Utf8.Piece → Option Char
  | .char c => some c
  | .stray _ => none

def characters? (text : Bytes) : Option (List Char) := do
  let cs ← (Utf8.pieces (unmarked text)).mapM pieceChar?
  if clean cs then some cs else none

def skipBlanks (cs : List Char) : Tail cs := skip isBlank cs

def bareKey? (cs : List Char) : Option (Key × Rest cs) :=
  match cs with
  | [] => none
  | c :: rest =>
    if isBare c then
      let ⟨after, bound⟩ := skip isBare rest
      some (encode (c :: rest.takeWhile isBare), ⟨after, Nat.lt_succ_of_le bound⟩)
    else none

def key? (cs : List Char) : Option (Key × Rest cs) :=
  match quotedKey? cs with
  | some read => some read
  | none => bareKey? cs

def next? (cs : List Char) : Option (Char × Rest cs) :=
  match skipBlanks cs with
  | ⟨[], _⟩ => none
  | ⟨c :: rest, bound⟩ => some (c, ⟨rest, by simp only [List.length_cons] at bound; omega⟩)

def path? (close : Char) (cs : List Char) : Option (Path × Rest cs) := do
  let ⟨start, bound⟩ := skipBlanks cs
  let (key, ⟨rest, short⟩) ← key? start
  let (mark, ⟨rest, shorter⟩) ← next? rest
  have within := Nat.lt_of_lt_of_le (Nat.lt_trans shorter short) bound
  if mark = close then some ([key], ⟨rest, within⟩)
  else if mark = '.' then do
    let (path, ⟨rest, shorter⟩) ← path? close rest
    some (key :: path, ⟨rest, Nat.lt_trans shorter within⟩)
  else none
termination_by cs.length
decreasing_by exact within

def skipGaps : (inComment : Bool) → List Char → List Char
  | _, [] => []
  | true, c :: cs => skipGaps (c != '\n') cs
  | false, c :: cs =>
    if isBlank c || isLineEnd c then skipGaps false cs
    else if c = '#' then skipGaps true cs
    else c :: cs

theorem length_skipGaps (inComment : Bool) (cs : List Char) :
    (skipGaps inComment cs).length ≤ cs.length := by
  induction cs generalizing inComment with
  | nil => simp [skipGaps]
  | cons c cs ih =>
    cases inComment with
    | true => exact Nat.le_succ_of_le (ih _)
    | false =>
      simp only [skipGaps]
      split
      · exact Nat.le_succ_of_le (ih _)
      · split
        · exact Nat.le_succ_of_le (ih _)
        · simp

def overGaps (cs : List Char) : Tail cs :=
  ⟨skipGaps false cs, length_skipGaps false cs⟩

def nextOver? (cs : List Char) : Option (Char × Rest cs) :=
  match overGaps cs with
  | ⟨[], _⟩ => none
  | ⟨c :: rest, bound⟩ => some (c, ⟨rest, by simp only [List.length_cons] at bound; omega⟩)

def isPlain (c : Char) : Bool :=
  !(isBlank c || isLineEnd c || c == ',' || c == ']' || c == '}' || c == '#')

def plainEnd (word rest : List Char) : List Char × List Char :=
  match rest with
  | ' ' :: d :: rest =>
    if d.isDigit ∧ afterDate? word = some [] then
      (word ++ ' ' :: d :: rest.takeWhile isPlain, rest.dropWhile isPlain)
    else (word, ' ' :: d :: rest)
  | rest => (word, rest)

theorem length_plainEnd (word rest : List Char) : (plainEnd word rest).2.length ≤ rest.length := by
  unfold plainEnd
  split
  · split
    · have := (List.dropWhile_suffix isPlain (l := ‹List Char›)).length_le
      simp only [List.length_cons]
      omega
    · simp
  · simp

def plain? (cs : List Char) : Option (Scalar × Rest cs) :=
  match cs with
  | [] => none
  | c :: cs =>
    if isPlain c then do
      let ended := plainEnd (c :: cs.takeWhile isPlain) (cs.dropWhile isPlain)
      let value ← scalar? ended.1
      some (value, ⟨ended.2, by
        have ended := length_plainEnd (c :: cs.takeWhile isPlain) (cs.dropWhile isPlain)
        have dropped := (List.dropWhile_suffix isPlain (l := cs)).length_le
        rw [List.length_cons]
        exact Nat.lt_succ_of_le (Nat.le_trans ended dropped)⟩)
    else none

def readScalar? (cs : List Char) : Option (Term × Rest cs) :=
  if cs.head? = some '"' ∨ cs.head? = some '\'' then
    (string? cs).map fun (text, rest) => (.scalar (.string text), rest)
  else (plain? cs).map fun (value, rest) => (.scalar value, rest)

mutual

def term? (cs : List Char) : Option (Term × Rest cs) := do
  let (mark, ⟨rest, _⟩) ← next? cs
  if mark = '[' then do
    let (items, ⟨rest, _⟩) ← items? rest
    some (.array items, ⟨rest, by omega⟩)
  else if mark = '\x7b' then do
    let (mark, ⟨after, _⟩) ← next? rest
    if mark = '\x7d' then some (.inline [], ⟨after, by omega⟩)
    else do
      let (entries, ⟨rest, _⟩) ← entries? rest
      some (.inline entries, ⟨rest, by omega⟩)
  else do
    let ⟨start, _⟩ := skipBlanks cs
    let (term, ⟨rest, _⟩) ← readScalar? start
    some (term, ⟨rest, by omega⟩)
termination_by (cs.length, 0)
decreasing_by
  all_goals simp only [Prod.lex_def]; omega

def items? (cs : List Char) : Option (List Term × Rest cs) := do
  let (mark, ⟨rest, _⟩) ← nextOver? cs
  if mark = ']' then some ([], ⟨rest, by omega⟩)
  else do
    let ⟨start, _⟩ := overGaps cs
    let (term, ⟨rest, _⟩) ← term? start
    let (mark, ⟨rest, _⟩) ← nextOver? rest
    if mark = ']' then some ([term], ⟨rest, by omega⟩)
    else if mark = ',' then do
      let (terms, ⟨rest, _⟩) ← items? rest
      some (term :: terms, ⟨rest, by omega⟩)
    else none
termination_by (cs.length, 1)
decreasing_by
  all_goals simp only [Prod.lex_def]; omega

def entries? (cs : List Char) : Option (List (Path × Term) × Rest cs) := do
  let (path, ⟨rest, _⟩) ← path? '=' cs
  let (term, ⟨rest, _⟩) ← term? rest
  let (mark, ⟨rest, _⟩) ← next? rest
  if mark = '\x7d' then some ([(path, term)], ⟨rest, by omega⟩)
  else if mark = ',' then do
    let (entries, ⟨rest, _⟩) ← entries? rest
    some ((path, term) :: entries, ⟨rest, by omega⟩)
  else none
termination_by (cs.length, 1)
decreasing_by
  all_goals simp only [Prod.lex_def]; omega

end

def endsLine (cs : List Char) : Bool :=
  match (skipBlanks cs).val with
  | [] => true
  | c :: _ => isLineEnd c || c == '#'

def accept? (c : Char) (cs : List Char) : Option (Rest cs) :=
  match cs with
  | [] => none
  | d :: rest => if d = c then some ⟨rest, Nat.lt_add_one _⟩ else none

def item? (cs : List Char) : Option (Item × Rest cs) :=
  match cs with
  | '[' :: '[' :: rest => do
    let (path, ⟨rest, _⟩) ← path? ']' rest
    let ⟨rest, _⟩ ← accept? ']' rest
    some (.element path, ⟨rest, by simp only [List.length_cons]; omega⟩)
  | '[' :: rest => do
    let (path, ⟨rest, _⟩) ← path? ']' rest
    some (.table path, ⟨rest, by simp only [List.length_cons]; omega⟩)
  | cs => do
    let (path, ⟨rest, _⟩) ← path? '=' cs
    let (term, ⟨rest, _⟩) ← term? rest
    some (.entry path term, ⟨rest, by omega⟩)

def statements? (cs : List Char) : Option (List Item) :=
  match overGaps cs with
  | ⟨[], _⟩ => some []
  | ⟨start, _⟩ => do
    let (item, ⟨rest, _⟩) ← item? start
    if endsLine rest then do
      let items ← statements? rest
      some (item :: items)
    else none
termination_by cs.length

def parse? (text : Bytes) : Option (List Item) := do
  let cs ← characters? text
  statements? cs

end MiniC.Toml
