import MiniC.Proofs.Source.Yields

namespace MiniC.Source

open MiniC.Source.Parser (unary? binary? counting?)
open MiniC.Source.Climbing

variable {p : Punct} {ts rest : List Placed} {l : Lexeme} {ls rs : List Lexeme} {e : Expr}

theorem level_lt {op : BinOp} {level : Nat} (mark : binary? p = some (op, level)) : level < 10 := by
  cases p <;> cases mark <;> decide

theorem counting?_of_binary {mark : BinOp × Nat} (is : binary? p = some mark) : counting? p = none := by
  cases p with
  | increment | decrement => cases is
  | _ => rfl

theorem ne_openParen_of_binary {mark : BinOp × Nat} (is : binary? p = some mark) : p ≠ .openParen := by
  rintro rfl
  cases is

theorem ne_openParen_of_counting {op : UnOp} (is : counting? p = some op) : p ≠ .openParen := by
  rintro rfl
  cases is

namespace Climbing

/-- The lexemes of a list, without their places. -/
def plain (ts : List Placed) : List Lexeme :=
  ts.map Placed.lexeme

@[simp] theorem plain_nil : plain [] = [] := rfl

@[simp] theorem plain_cons (t : Placed) (ts : List Placed) : plain (t :: ts) = t.lexeme :: plain ts := rfl

@[simp] theorem plain_append (ts us : List Placed) : plain (ts ++ us) = plain ts ++ plain us :=
  List.map_append

theorem plain_eq_cons (same : plain ts = l :: ls) : ∃ pos us, ts = ⟨l, pos⟩ :: us ∧ plain us = ls := by
  obtain ⟨⟨_, pos⟩, us, rfl, rfl, rest⟩ := List.map_eq_cons_iff.1 same
  exact ⟨pos, us, rfl, rest⟩

theorem plain_eq_append (same : plain ts = ls ++ rs) : ∃ us vs, ts = us ++ vs ∧ plain us = ls ∧ plain vs = rs :=
  List.map_eq_append_iff.1 same

theorem plain_eq_singleton (same : plain ts = [l]) : ∃ pos, ts = [⟨l, pos⟩] := by
  obtain ⟨pos, us, rfl, rest⟩ := plain_eq_cons same
  obtain rfl : us = [] := by simpa [plain] using rest
  exact ⟨pos, rfl⟩

theorem NotOperator.mono {least more : Nat} (other : NotOperator least ts) (le : least ≤ more) :
    NotOperator more ts :=
  fun p pos rest op level starts mark => Nat.lt_of_lt_of_le (other p pos rest op level starts mark) le

theorem notOperator_ten (ts : List Placed) : NotOperator 10 ts :=
  fun _ _ _ _ _ _ mark => level_lt mark

theorem notOperator_mark (pos : Position) (ts : List Placed) (none : binary? p = none) (least : Nat) :
    NotOperator least (⟨.punct p, pos⟩ :: ts) := by
  intro q place rest op level same mark
  cases same
  rw [none] at mark
  cases mark

theorem notCounted_mark (pos : Position) (ts : List Placed) (none : counting? p = none) :
    NotCounted (⟨.punct p, pos⟩ :: ts) := by
  intro q place rest same
  cases same
  exact none

theorem notCall_mark (pos : Position) (ts : List Placed) (other : p ≠ .openParen) :
    NotCall (⟨.punct p, pos⟩ :: ts) := by
  intro place rest same
  cases same
  exact other rfl

def NotCallee (ls : List Lexeme) (rest : List Placed) : Prop :=
  (∃ name, ls.getLast? = some (.ident name)) → NotCall rest

theorem notCallee_mark (ls : List Lexeme) (pos : Position) (ts : List Placed) (other : p ≠ .openParen) :
    NotCallee ls (⟨.punct p, pos⟩ :: ts) :=
  fun _ => notCall_mark pos ts other

theorem NotCallee.append (other : NotCallee rs rest) (read : rs ≠ []) : NotCallee (ls ++ rs) rest := by
  intro named
  rw [List.getLast?_append_of_ne_nil ls read] at named
  exact other named

theorem NotCallee.tail (other : NotCallee (ls ++ rs) rest) (read : rs ≠ []) : NotCallee rs rest := by
  intro named
  rw [← List.getLast?_append_of_ne_nil ls read] at named
  exact other named

theorem NotCallee.cons (other : NotCallee ls rest) (read : ls ≠ []) : NotCallee (l :: ls) rest := by
  have whole : NotCallee ([l] ++ ls) rest := other.append read
  exact whole

theorem NotCallee.uncons (other : NotCallee (l :: ls) rest) (read : ls ≠ []) : NotCallee ls rest := by
  have whole : NotCallee ([l] ++ ls) rest := other
  exact whole.tail read

theorem notCallee_closed (ls : List Lexeme) (p : Punct) (rest : List Placed) : NotCallee (ls ++ [Lexeme.punct p]) rest := by
  rintro ⟨name, named⟩
  simp at named

/-- The list does not go on with an expression of operators that bind at least as tightly as `least`. -/
structure Ends (least : Nat) (ls : List Lexeme) (rest : List Placed) : Prop where
  notOperator : NotOperator least rest
  notCounted : NotCounted rest
  notCallee : NotCallee ls rest

theorem ends_mark (p : Punct) (ls : List Lexeme) (pos : Position) (ts : List Placed) (notBinary : binary? p = none)
    (notCounting : counting? p = none) (other : p ≠ .openParen) (least : Nat) : Ends least ls (⟨.punct p, pos⟩ :: ts) :=
  ⟨notOperator_mark pos ts notBinary least, notCounted_mark pos ts notCounting, notCallee_mark ls pos ts other⟩

end Climbing

theorem IsExpr.le {i : Nat} (derived : IsExpr i ls e) : i ≤ 10 := by
  cases derived with
  | tighter below => omega
  | binary _ mark =>
    have := level_lt mark
    omega
  | unary => omega
  | counted => omega

theorem IsExpr.weaken {i least : Nat} (derived : IsExpr i ls e) (le : least ≤ i) : IsExpr least ls e := by
  have top := derived.le
  obtain ⟨n, rfl⟩ := Nat.le.dest le
  induction n with
  | zero => exact derived
  | succ n ih => exact ih (.tighter (by omega) derived) (by omega) (by omega)

def Starts : Lexeme → Prop
  | .ident name => IsName name
  | .int _ | .char _ | .str _ => True
  | .punct p => p = .openParen ∨ (unary? p).isSome = true

mutual

theorem IsExpr.starts : ∀ {i ls e}, IsExpr i ls e → ∃ l rest, ls = l :: rest ∧ Starts l
  | _, _, _, .tighter _ inner => inner.starts
  | _, _, _, .binary _ _ left _ => by
    obtain ⟨l, rest, rfl, starts⟩ := left.starts
    exact ⟨l, _, rfl, starts⟩
  | _, _, _, .unary _ mark _ _ => ⟨_, _, rfl, .inr (by rw [mark]; rfl)⟩
  | _, _, _, .counted inner => by
    obtain ⟨l, rest, same, starts, _⟩ := inner.starts
    exact ⟨l, rest, same, starts⟩

theorem IsCounted.starts : ∀ {ls e}, IsCounted ls e →
    ∃ l rest, ls = l :: rest ∧ Starts l ∧ ∀ p, l = .punct p → unary? p = none
  | _, _, .primary inner => inner.starts
  | _, _, .behind _ inner _ _ => by
    obtain ⟨l, rest, rfl, starts⟩ := inner.starts
    exact ⟨l, _, rfl, starts⟩

theorem IsPrimary.starts : ∀ {ls e}, IsPrimary ls e →
    ∃ l rest, ls = l :: rest ∧ Starts l ∧ ∀ p, l = .punct p → unary? p = none
  | _, _, .var _ isName => ⟨_, _, rfl, isName, fun _ never => nomatch never⟩
  | _, _, .literal _ isLiteral => by
    refine ⟨_, _, rfl, ?_⟩
    cases isLiteral with
    | int | char | str => exact ⟨trivial, fun _ never => nomatch never⟩
  | _, _, .call _ isName _ => ⟨_, _, rfl, isName, fun _ never => nomatch never⟩
  | _, _, .paren _ => by
    refine ⟨_, _, rfl, .inl rfl, ?_⟩
    rintro p ⟨⟩
    rfl

end

theorem IsExpr.ne_nil {i : Nat} (derived : IsExpr i ls e) : ls ≠ [] := by
  obtain ⟨l, rest, rfl, _⟩ := derived.starts
  exact List.cons_ne_nil l rest

def Inner (l : Lexeme) : Prop :=
  l ∉ ([.punct .assign, .punct .semicolon, .punct .openBrace, .punct .closeBrace] : List Lexeme)

theorem inner_append (left : ∀ l ∈ ls, Inner l) (mark : Inner (.punct p))
    (right : ∀ l ∈ rs, Inner l) : ∀ l ∈ ls ++ .punct p :: rs, Inner l := by
  intro l member
  rcases List.mem_append.1 member with inLeft | later
  · exact left l inLeft
  · rcases List.mem_cons.1 later with rfl | inRight
    · exact mark
    · exact right l inRight

theorem inner_of_mark (is : binary? p ≠ none ∨ unary? p ≠ none ∨ counting? p ≠ none) : Inner (.punct p) := by
  cases p with
  | assign | semicolon | openBrace | closeBrace => simp [binary?, unary?, counting?] at is
  | _ => simp [Inner]

theorem inner_nil : ∀ l ∈ ([] : List Lexeme), Inner l :=
  fun _ never => nomatch never

mutual

theorem IsExpr.inner : ∀ {i ls e}, IsExpr i ls e → ∀ l ∈ ls, Inner l
  | _, _, _, .tighter _ inner => inner.inner
  | _, _, _, .binary _ mark left right => inner_append left.inner (inner_of_mark (.inl (by simp [mark]))) right.inner
  | _, _, _, .unary _ mark operand _ => inner_append inner_nil (inner_of_mark (.inr (.inl (by simp [mark])))) operand.inner
  | _, _, _, .counted inner => inner.inner

theorem IsCounted.inner : ∀ {ls e}, IsCounted ls e → ∀ l ∈ ls, Inner l
  | _, _, .primary inner => inner.inner
  | _, _, .behind _ inner mark _ => inner_append inner.inner (inner_of_mark (.inr (.inr (by simp [mark])))) inner_nil

theorem IsPrimary.inner : ∀ {ls e}, IsPrimary ls e → ∀ l ∈ ls, Inner l
  | _, _, .var _ _ => by simp [Inner]
  | _, _, .literal _ isLiteral => by
    cases isLiteral with
    | int | char | str => simp [Inner]
  | _, _, .call _ _ args => by
    intro l member
    rcases List.mem_cons.1 member with rfl | later
    · simp [Inner]
    · have opened := inner_append (p := .closeParen) args.inner (by simp [Inner]) inner_nil
      exact inner_append (p := .openParen) inner_nil (by simp [Inner]) opened l later
  | _, _, .paren inner => by
    have opened := inner_append (p := .closeParen) inner.inner (by simp [Inner]) inner_nil
    exact inner_append (p := .openParen) inner_nil (by simp [Inner]) opened

theorem IsArgs.inner : ∀ {ls es}, IsArgs ls es → ∀ l ∈ ls, Inner l
  | _, _, .none => inner_nil
  | _, _, .last arg => arg.inner
  | _, _, .more arg others => inner_append arg.inner (by simp [Inner]) others.inner

end

theorem Expr.isVar_bare (e : Expr) : e.bare.isVar = e.isVar := by
  cases e <;> rfl

theorem Expr.isVar_of_bare {e' : Expr} (same : e'.bare = e.bare) (var : e.isVar = true) : e'.isVar = true := by
  rw [← Expr.isVar_bare, same, Expr.isVar_bare, var]

variable {eof : Position}

theorem isCounted_of_yields {ls : List Lexeme} {e e' : Expr} {ts rest : List Placed} (derived : IsCounted ls e)
    (notCallee : NotCallee ls ts) (yields : Yields (postfixes e ts) e' rest) :
    ∃ read, ts = read ++ rest ∧ IsCounted (ls ++ plain read) e' ∧ NotCounted rest ∧
      NotCallee (ls ++ plain read) rest := by
  rcases marked_or counting? ts with ⟨p, pos, after, op, rfl, mark⟩ | notCounted
  · obtain ⟨onVar, inner⟩ := (yields_postfixes_counting mark).1 yields
    obtain ⟨read, rfl, derived', ends⟩ :=
      isCounted_of_yields (.behind pos derived mark onVar) (notCallee_closed ls p after) inner
    rw [List.append_assoc] at derived' ends
    exact ⟨⟨.punct p, pos⟩ :: read, rfl, derived', ends⟩
  · obtain ⟨rfl, rfl⟩ := (yields_postfixes_other notCounted).1 yields
    exact ⟨[], rfl, by simpa using derived, notCounted, by simpa using notCallee⟩
termination_by ts.length

mutual

theorem isExpr_of_yields {least : Nat} {e : Expr} {ts rest : List Placed} (top : least ≤ 10)
    (yields : Yields (expr eof least ts) e rest) :
    ∃ read, ts = read ++ rest ∧ IsExpr least (plain read) e ∧ Ends least (plain read) rest := by
  obtain ⟨x, mid, first, second⟩ := yields_expr.1 yields
  have shorter : mid.length < ts.length := first.bound
  obtain ⟨read, rfl, derived, notCounted, notCallee⟩ := isUnary_of_yields first
  obtain ⟨more, rfl, derived', ends⟩ := isOperators_of_yields derived top ⟨(notOperator_ten mid).mono (by omega),
    notCounted, notCallee⟩ second
  exact ⟨read ++ more, by simp, by simpa using derived', by simpa using ends⟩
termination_by (ts.length, 3)

theorem isOperators_of_yields {least level : Nat} {ls : List Lexeme} {left e : Expr} {ts rest : List Placed}
    (derived : IsExpr level ls left) (le : least ≤ level) (ends : Ends (level + 1) ls ts)
    (yields : Yields (operators eof least left ts) e rest) :
    ∃ read, ts = read ++ rest ∧ IsExpr least (ls ++ plain read) e ∧ Ends least (ls ++ plain read) rest := by
  by_cases operator : NotOperator least ts
  · obtain ⟨rfl, rfl⟩ := (yields_operators_other operator).1 yields
    refine ⟨[], rfl, by simpa using derived.weaken le, ?_⟩
    exact ⟨operator, ends.notCounted, by simpa using ends.notCallee⟩
  · simp only [NotOperator, not_forall] at operator
    obtain ⟨p, pos, after, op, mine, rfl, mark, tight⟩ := operator
    obtain ⟨right, mid, first, second⟩ := (yields_operators_mark mark (by omega)).1 yields
    have shorter : mid.length < after.length := first.bound
    have loose := ends.notOperator _ _ _ _ _ rfl mark
    have below := level_lt mark
    obtain ⟨read, rfl, derivedRight, endsRight⟩ := isExpr_of_yields (by omega) first
    have whole := IsExpr.binary pos mark (derived.weaken (by omega)) derivedRight
    have endsWhole : Ends (mine + 1) (ls ++ .punct p :: plain read) mid :=
      ⟨endsRight.notOperator, endsRight.notCounted, (endsRight.notCallee.cons derivedRight.ne_nil).append (by simp)⟩
    obtain ⟨more, rfl, derived', ends'⟩ := isOperators_of_yields whole (by omega) endsWhole second
    refine ⟨⟨.punct p, pos⟩ :: (read ++ more), by simp, ?_, ?_⟩
    · simpa using derived'
    · simpa using ends'
termination_by (ts.length, 0)

theorem isUnary_of_yields {e : Expr} {ts rest : List Placed} (yields : Yields (unary eof ts) e rest) :
    ∃ read, ts = read ++ rest ∧ IsExpr 10 (plain read) e ∧ NotCounted rest ∧ NotCallee (plain read) rest := by
  rcases marked_or unary? ts with ⟨p, pos, after, op, rfl, mark⟩ | notUnary
  · obtain ⟨x, inner, onVar, rfl⟩ := (yields_unary_mark mark).1 yields
    obtain ⟨read, rfl, derived, notCounted, notCallee⟩ := isUnary_of_yields inner
    exact ⟨⟨.punct p, pos⟩ :: read, rfl, .unary pos mark derived onVar, notCounted, notCallee.cons derived.ne_nil⟩
  · obtain ⟨x, mid, first, second⟩ := (yields_unary_other notUnary).1 yields
    obtain ⟨read, rfl, derived, notCallee⟩ := isPrimary_of_yields first
    obtain ⟨more, rfl, derived', ends⟩ := isCounted_of_yields (.primary derived) notCallee second
    exact ⟨read ++ more, by simp, by simpa using IsExpr.counted derived', by simpa using ends⟩
termination_by (ts.length, 2)

theorem isPrimary_of_yields {e : Expr} {ts rest : List Placed} (yields : Yields (primary eof ts) e rest) :
    ∃ read, ts = read ++ rest ∧ IsPrimary (plain read) e ∧ NotCallee (plain read) rest := by
  by_cases ident : ∃ name pos after, ts = ⟨.ident name, pos⟩ :: after
  · obtain ⟨name, pos, after, rfl⟩ := ident
    obtain ⟨isName, called | ⟨notCall, rfl, rfl⟩⟩ := yields_primary_ident.1 yields
    · obtain ⟨place, mid, args, rfl, inner, rfl⟩ := called
      obtain ⟨read, last, rfl, derived⟩ := isArgs_of_yields inner
      refine ⟨⟨.ident name, pos⟩ :: ⟨.punct .openParen, place⟩ :: (read ++ [⟨.punct .closeParen, last⟩]), by simp, ?_, ?_⟩
      · simpa using IsPrimary.call pos isName derived
      · rw [← List.cons_append, ← List.cons_append, plain_append]
        exact notCallee_closed _ _ rest
    · exact ⟨[⟨.ident name, pos⟩], rfl, .var pos isName, fun _ => notCall⟩
  rcases starts_or (.punct .openParen) ts with ⟨pos, after, rfl⟩ | notParen
  · obtain ⟨place, inner⟩ := yields_primary_paren.1 yields
    obtain ⟨read, rfl, derived, _⟩ := isExpr_of_yields (by omega) inner
    refine ⟨⟨.punct .openParen, pos⟩ :: (read ++ [⟨.punct .closeParen, place⟩]), by simp, ?_, ?_⟩
    · simpa using IsPrimary.paren derived
    · rw [← List.cons_append, plain_append]
      exact notCallee_closed _ _ rest
  · simp only [not_exists] at ident
    obtain ⟨l, read, rfl⟩ := (yields_primary_other ident notParen).1 yields
    obtain ⟨lexeme, rfl, isLiteral⟩ := yields_literal.1 read
    refine ⟨[⟨lexeme, l.pos⟩], rfl, .literal l.pos isLiteral, ?_⟩
    rintro ⟨name, named⟩
    obtain rfl : lexeme = .ident name := by simpa using named
    cases isLiteral
termination_by (ts.length, 1)

theorem isArgs_of_yields {args : List Expr} {ts rest : List Placed} (yields : Yields (arguments eof true ts) args rest) :
    ∃ read pos, ts = read ++ ⟨.punct .closeParen, pos⟩ :: rest ∧ IsArgs (plain read) args := by
  rcases starts_or (.punct .closeParen) ts with ⟨pos, after, rfl⟩ | notClosed
  · obtain ⟨rfl, rfl⟩ := yields_arguments_close.1 yields
    exact ⟨[], pos, rfl, .none⟩
  · obtain ⟨x, mid, xs, first, second, rfl⟩ := (yields_arguments_first notClosed).1 yields
    have shorter : mid.length < ts.length := first.bound
    obtain ⟨read, rfl, derived, _⟩ := isExpr_of_yields (by omega) first
    obtain ⟨more, pos, rfl, derived'⟩ := moreArgs_of_yields derived second
    exact ⟨read ++ more, pos, by simp, by simpa using derived'⟩
termination_by (ts.length, 4)

theorem moreArgs_of_yields {ls : List Lexeme} {e : Expr} {args : List Expr} {ts rest : List Placed}
    (before : IsExpr 0 ls e) (yields : Yields (arguments eof false ts) args rest) :
    ∃ read pos, ts = read ++ ⟨.punct .closeParen, pos⟩ :: rest ∧ IsArgs (ls ++ plain read) (e :: args) := by
  rcases starts_or (.punct .closeParen) ts with ⟨pos, after, rfl⟩ | notClosed
  · obtain ⟨rfl, rfl⟩ := yields_arguments_close.1 yields
    exact ⟨[], pos, rfl, by simpa using IsArgs.last before⟩
  · obtain ⟨place, inside, x, mid, xs, rfl, first, second, rfl⟩ := (yields_arguments_next notClosed).1 yields
    have shorter : mid.length < inside.length := first.bound
    obtain ⟨read, rfl, derived, _⟩ := isExpr_of_yields (by omega) first
    obtain ⟨more, pos, rfl, derived'⟩ := moreArgs_of_yields derived second
    exact ⟨⟨.punct .comma, place⟩ :: (read ++ more), pos, by simp, by simpa using IsArgs.more before derived'⟩
termination_by (ts.length, 4)

end

theorem notUnary_of_starts {read : List Placed} (spelled : plain read = ls) (rest : List Placed)
    (starts : ∃ l after, ls = l :: after ∧ Starts l ∧ ∀ p, l = .punct p → unary? p = none) : NotUnary (read ++ rest) := by
  obtain ⟨l, after, rfl, _, other⟩ := starts
  obtain ⟨pos, us, rfl, _⟩ := plain_eq_cons spelled
  intro p place behind same
  cases same
  exact other p rfl

theorem notClosed_of_starts {read : List Placed} (spelled : plain read = ls) (rest : List Placed)
    (starts : ∃ l after, ls = l :: after ∧ Starts l) : NotClosed (read ++ rest) := by
  obtain ⟨l, after, rfl, starts⟩ := starts
  obtain ⟨pos, us, rfl, _⟩ := plain_eq_cons spelled
  intro place behind same
  cases same
  rcases starts with never | never
  · cases never
  · cases never

theorem yields_applied {op : UnOp} {x : Expr} (mark : unary? p = some op)
    (onVar : op.counts = true → e.isVar = true) (pos : Position) (same : x.bare = e.bare)
    (reads : Yields (unary eof ts) x rest) : Yields (unary eof (⟨.punct p, pos⟩ :: ts)) (.unary pos op x) rest :=
  (yields_unary_mark mark).2 ⟨x, reads, fun counts => Expr.isVar_of_bare same (onVar counts), rfl⟩

theorem yields_closed {pos : Position} {read : List Placed} (notBinary : binary? p = none)
    (reads : ∀ out r, Yields (operators eof 0 e (⟨.punct p, pos⟩ :: rest)) out r →
      Yields (expr eof 0 (read ++ ⟨.punct p, pos⟩ :: rest)) out r) :
    Yields (expr eof 0 (read ++ ⟨.punct p, pos⟩ :: rest)) e (⟨.punct p, pos⟩ :: rest) :=
  reads _ _ ((yields_operators_other (notOperator_mark pos rest notBinary 0)).2 ⟨rfl, rfl⟩)

mutual

theorem IsExpr.yields : ∀ {i ls e}, IsExpr i ls e → ∀ {read rest : List Placed}, plain read = ls →
    Ends (i + 1) ls rest → ∃ e', e'.bare = e.bare ∧ ∀ least ≤ i, ∀ out r,
      Yields (operators eof least e' rest) out r → Yields (expr eof least (read ++ rest)) out r
  | _, _, _, .tighter _ inner, read, rest, spelled, ends => by
    obtain ⟨e', same, reads⟩ := inner.yields spelled ⟨ends.notOperator.mono (by omega), ends.notCounted, ends.notCallee⟩
    exact ⟨e', same, fun least le => reads least (by omega)⟩
  | i, _, _, @IsExpr.binary _ p op ls rs _ _ _ mark left right, read, rest, spelled, ends => by
    obtain ⟨before, behind, rfl, spelledLeft, marked⟩ := plain_eq_append spelled
    obtain ⟨pos, after, rfl, spelledRight⟩ := plain_eq_cons marked
    have endsLeft : Ends (i + 1) ls (⟨.punct p, pos⟩ :: (after ++ rest)) := by
      refine ⟨?_, notCounted_mark _ _ (counting?_of_binary mark), notCallee_mark _ _ _ (ne_openParen_of_binary mark)⟩
      intro q place other op' level same mark'
      cases same
      rw [mark] at mark'
      cases mark'
      exact Nat.lt_succ_self i
    obtain ⟨l, sameLeft, readsLeft⟩ := left.yields spelledLeft endsLeft
    have notCallee : NotCallee rs rest := (ends.notCallee.tail (by simp)).uncons right.ne_nil
    obtain ⟨r, sameRight, readsRight⟩ :=
      right.yields spelledRight ⟨ends.notOperator.mono (by omega), ends.notCounted, notCallee⟩
    refine ⟨.binary pos op l r, by simp only [Expr.bare, sameLeft, sameRight], fun least le out last yields => ?_⟩
    rw [List.append_assoc]
    apply readsLeft least le
    rw [yields_operators_mark mark le]
    refine ⟨r, rest, readsRight (i + 1) (Nat.le_refl _) _ _ ?_, yields⟩
    exact (yields_operators_other ends.notOperator).2 ⟨rfl, rfl⟩
  | _, _, _, @IsExpr.unary _ op _ _ _ mark operand onVar, read, rest, spelled, ends => by
    obtain ⟨pos, after, rfl, inside⟩ := plain_eq_cons spelled
    obtain ⟨x, same, reads⟩ :=
      operand.yieldsUnary rfl inside ends.notCounted (ends.notCallee.uncons operand.ne_nil)
    have whole := yields_applied mark onVar pos same reads
    refine ⟨.unary pos op x, by simp only [Expr.bare, same], fun least _ out r yields => ?_⟩
    exact yields_expr.2 ⟨.unary pos op x, rest, whole, yields⟩
  | _, _, _, .counted inner, read, rest, spelled, ends => by
    obtain ⟨e', same, reads⟩ := inner.yields spelled ends.notCallee
    have whole := reads e' rest ((yields_postfixes_other ends.notCounted).2 ⟨rfl, rfl⟩)
    exact ⟨e', same, fun least _ out r yields => yields_expr.2 ⟨e', rest, whole, yields⟩⟩

theorem IsExpr.yieldsUnary : ∀ {i ls e}, IsExpr i ls e → i = 10 → ∀ {read rest : List Placed}, plain read = ls →
    NotCounted rest → NotCallee ls rest → ∃ e', e'.bare = e.bare ∧ Yields (unary eof (read ++ rest)) e' rest
  | _, _, _, .tighter below _, isTop, _, _, _, _, _ => by omega
  | _, _, _, .binary _ mark _ _, isTop, _, _, _, _, _ => by
    have := level_lt mark
    omega
  | _, _, _, @IsExpr.unary _ op _ _ _ mark operand onVar, _, read, rest, spelled, notCounted, notCallee => by
    obtain ⟨pos, after, rfl, inside⟩ := plain_eq_cons spelled
    obtain ⟨x, same, reads⟩ := operand.yieldsUnary rfl inside notCounted (notCallee.uncons operand.ne_nil)
    exact ⟨.unary pos op x, by simp only [Expr.bare, same], yields_applied mark onVar pos same reads⟩
  | _, _, _, .counted inner, _, read, rest, spelled, notCounted, notCallee => by
    obtain ⟨e', same, reads⟩ := inner.yields spelled notCallee
    exact ⟨e', same, reads e' rest ((yields_postfixes_other notCounted).2 ⟨rfl, rfl⟩)⟩

theorem IsCounted.yields : ∀ {ls e}, IsCounted ls e → ∀ {read rest : List Placed}, plain read = ls →
    NotCallee ls rest → ∃ e', e'.bare = e.bare ∧ ∀ out r,
      Yields (postfixes e' rest) out r → Yields (unary eof (read ++ rest)) out r
  | _, _, .primary inner, read, rest, spelled, notCallee => by
    obtain ⟨e', same, reads⟩ := inner.yields spelled notCallee
    have notUnary : NotUnary (read ++ rest) :=
      notUnary_of_starts spelled rest inner.starts
    exact ⟨e', same, fun out r yields => (yields_unary_other notUnary).2 ⟨e', rest, reads, yields⟩⟩
  | _, _, @IsCounted.behind _ op _ _ _ inner mark onVar, read, rest, spelled, _ => by
    obtain ⟨before, behind, rfl, inside, last⟩ := plain_eq_append spelled
    obtain ⟨pos, rfl⟩ := plain_eq_singleton last
    obtain ⟨x, same, reads⟩ := inner.yields inside (notCallee_mark _ pos rest (ne_openParen_of_counting mark))
    refine ⟨.unary pos op x, by simp only [Expr.bare, same], fun out r yields => ?_⟩
    rw [List.append_assoc]
    exact reads out r ((yields_postfixes_counting mark).2 ⟨Expr.isVar_of_bare same onVar, yields⟩)

theorem IsPrimary.yields : ∀ {ls e}, IsPrimary ls e → ∀ {read rest : List Placed}, plain read = ls →
    NotCallee ls rest → ∃ e', e'.bare = e.bare ∧ Yields (primary eof (read ++ rest)) e' rest
  | _, _, @IsPrimary.var name _ isName, read, rest, spelled, notCallee => by
    obtain ⟨pos, rfl⟩ := plain_eq_singleton spelled
    exact ⟨.var pos name, rfl, yields_primary_ident.2 ⟨isName, .inr ⟨notCallee ⟨name, rfl⟩, rfl, rfl⟩⟩⟩
  | _, _, @IsPrimary.literal _ c _ isLiteral, read, rest, spelled, _ => by
    obtain ⟨pos, rfl⟩ := plain_eq_singleton spelled
    have read : Yields (literal eof ([⟨_, pos⟩] ++ rest)) ⟨pos, c⟩ rest := yields_literal.2 ⟨_, rfl, isLiteral⟩
    refine ⟨.literal ⟨pos, c⟩, rfl, (yields_primary_other ?_ ?_).2 ⟨⟨pos, c⟩, read, rfl⟩⟩
    · intro name place after same
      cases same
      cases isLiteral
    · intro place after same
      cases same
      cases isLiteral
  | _, _, @IsPrimary.call name _ _ _ isName args, read, rest, spelled, _ => by
    obtain ⟨pos, after, rfl, called⟩ := plain_eq_cons spelled
    obtain ⟨place, inside, rfl, opened⟩ := plain_eq_cons called
    obtain ⟨inner, behind, rfl, between, last⟩ := plain_eq_append opened
    obtain ⟨close, rfl⟩ := plain_eq_singleton last
    obtain ⟨es, same, reads, _⟩ := args.yields between close rest
    refine ⟨.call pos name es, by simp only [Expr.bare, same], yields_primary_ident.2 ⟨isName, .inl ?_⟩⟩
    refine ⟨place, inner ++ ⟨.punct .closeParen, close⟩ :: rest, es, ?_, reads, rfl⟩
    simp
  | _, _, .paren derived, read, rest, spelled, _ => by
    obtain ⟨pos, after, rfl, opened⟩ := plain_eq_cons spelled
    obtain ⟨inner, behind, rfl, between, last⟩ := plain_eq_append opened
    obtain ⟨close, rfl⟩ := plain_eq_singleton last
    obtain ⟨e', same, reads⟩ := derived.yields between (ends_mark .closeParen _ close rest rfl rfl (by simp) 1)
    refine ⟨e', same, ?_⟩
    rw [List.cons_append, List.append_assoc]
    exact yields_primary_paren.2 ⟨close, yields_closed rfl (reads 0 (Nat.le_refl 0))⟩

theorem IsArgs.yields : ∀ {ls es}, IsArgs ls es → ∀ {read : List Placed}, plain read = ls →
    ∀ (close : Position) (rest : List Placed), ∃ es', Expr.bareAll es' = Expr.bareAll es ∧
      Yields (arguments eof true (read ++ ⟨.punct .closeParen, close⟩ :: rest)) es' rest ∧
      (es ≠ [] → ∀ comma, Yields (arguments eof false (⟨.punct .comma, comma⟩ :: (read ++ ⟨.punct .closeParen, close⟩ :: rest)))
        es' rest)
  | _, _, .none, read, spelled, close, rest => by
    obtain rfl : read = [] := by simpa [plain] using spelled
    exact ⟨[], rfl, yields_arguments_close.2 ⟨rfl, rfl⟩, fun never => absurd rfl never⟩
  | _, _, .last arg, read, spelled, close, rest => by
    obtain ⟨e', same, reads⟩ := arg.yields spelled (ends_mark .closeParen _ close rest rfl rfl (by simp) 1)
    have first := yields_closed rfl (reads 0 (Nat.le_refl 0))
    have second : Yields (arguments eof false (⟨.punct .closeParen, close⟩ :: rest)) [] rest :=
      yields_arguments_close.2 ⟨rfl, rfl⟩
    have notClosed : NotClosed (read ++ ⟨.punct .closeParen, close⟩ :: rest) :=
      notClosed_of_starts spelled _ arg.starts
    refine ⟨[e'], by simp only [Expr.bareAll, same], ?_, fun _ comma => ?_⟩
    · exact (yields_arguments_first notClosed).2 ⟨e', _, [], first, second, rfl⟩
    · exact (yields_arguments_next (by simp [NotClosed])).2 ⟨comma, _, e', _, [], rfl, first, second, rfl⟩
  | _, _, .more arg others, read, spelled, close, rest => by
    obtain ⟨before, behind, rfl, spelledFirst, marked⟩ := plain_eq_append spelled
    obtain ⟨place, after, rfl, spelledOthers⟩ := plain_eq_cons marked
    obtain ⟨es, sameOthers, _, next⟩ := others.yields spelledOthers close rest
    have second := next (by simp) place
    obtain ⟨e', same, reads⟩ := arg.yields spelledFirst
      (ends_mark .comma _ place (after ++ ⟨.punct .closeParen, close⟩ :: rest) rfl rfl (by simp) 1)
    have first := yields_closed rfl (reads 0 (Nat.le_refl 0))
    have notClosed : NotClosed (before ++ ⟨.punct .comma, place⟩ :: (after ++ ⟨.punct .closeParen, close⟩ :: rest)) :=
      notClosed_of_starts spelledFirst _ arg.starts
    refine ⟨e' :: es, by simp only [Expr.bareAll, same, sameOthers], ?_, fun _ comma => ?_⟩
    · rw [List.append_assoc, List.cons_append]
      exact (yields_arguments_first notClosed).2 ⟨e', _, es, first, second, rfl⟩
    · rw [List.append_assoc, List.cons_append]
      exact (yields_arguments_next (by simp [NotClosed])).2 ⟨comma, _, e', _, es, rfl, first, second, rfl⟩

end

end MiniC.Source
