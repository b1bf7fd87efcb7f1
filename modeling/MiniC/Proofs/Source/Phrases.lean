import MiniC.Proofs.Source.Descent

namespace MiniC.Source

open MiniC.Source.Parser (binary? counting?)
open MiniC.Source.Climbing

theorem Expr.bareAll_eq_cons {es bs : List Expr} {b : Expr} (same : Expr.bareAll es = b :: bs) :
    ∃ e rest, es = e :: rest ∧ e.bare = b ∧ Expr.bareAll rest = bs := by
  cases es with
  | nil => cases same
  | cons e rest =>
    cases same
    exact ⟨e, rest, rfl, rfl, rfl⟩

mutual

theorem IsExpr.of_bare : ∀ {i ls e}, IsExpr i ls e → ∀ {e' : Expr}, e'.bare = e.bare → IsExpr i ls e'
  | _, _, _, .tighter below inner, _, same => .tighter below (inner.of_bare same)
  | _, _, _, .binary _ mark left right, e', same => by
    cases e' with
    | binary pos op l r =>
      simp only [Expr.bare, Expr.binary.injEq, true_and] at same
      obtain ⟨rfl, sameLeft, sameRight⟩ := same
      exact .binary pos mark (left.of_bare sameLeft) (right.of_bare sameRight)
    | _ => cases same
  | _, _, _, .unary _ mark operand onVar, e', same => by
    cases e' with
    | unary pos op x =>
      simp only [Expr.bare, Expr.unary.injEq, true_and] at same
      obtain ⟨rfl, sameOperand⟩ := same
      exact .unary pos mark (operand.of_bare sameOperand) fun counts => Expr.isVar_of_bare sameOperand (onVar counts)
    | _ => cases same
  | _, _, _, .counted inner, _, same => .counted (inner.of_bare same)

theorem IsCounted.of_bare : ∀ {ls e}, IsCounted ls e → ∀ {e' : Expr}, e'.bare = e.bare → IsCounted ls e'
  | _, _, .primary inner, _, same => .primary (inner.of_bare same)
  | _, _, .behind _ inner mark onVar, e', same => by
    cases e' with
    | unary pos op x =>
      simp only [Expr.bare, Expr.unary.injEq, true_and] at same
      obtain ⟨rfl, sameOperand⟩ := same
      exact .behind pos (inner.of_bare sameOperand) mark (Expr.isVar_of_bare sameOperand onVar)
    | _ => cases same

theorem IsPrimary.of_bare : ∀ {ls e}, IsPrimary ls e → ∀ {e' : Expr}, e'.bare = e.bare → IsPrimary ls e'
  | _, _, .var _ isName, e', same => by
    cases e' with
    | var pos name =>
      cases same
      exact .var pos isName
    | _ => cases same
  | _, _, .literal _ isLiteral, e', same => by
    cases e' with
    | literal l =>
      obtain ⟨pos, value⟩ := l
      cases same
      exact .literal pos isLiteral
    | _ => cases same
  | _, _, .call _ isName args, e', same => by
    cases e' with
    | call pos name es =>
      simp only [Expr.bare, Expr.call.injEq, true_and] at same
      obtain ⟨rfl, sameArgs⟩ := same
      exact .call pos isName (args.of_bare sameArgs)
    | _ => cases same
  | _, _, .paren inner, _, same => .paren (inner.of_bare same)

theorem IsArgs.of_bare : ∀ {ls es}, IsArgs ls es → ∀ {es' : List Expr}, Expr.bareAll es' = Expr.bareAll es → IsArgs ls es'
  | _, _, .none, es', same => by
    cases es' with
    | nil => exact .none
    | cons => cases same
  | _, _, .last arg, es', same => by
    obtain ⟨e, others, rfl, sameFirst, none⟩ := Expr.bareAll_eq_cons same
    cases others with
    | nil => exact .last (arg.of_bare sameFirst)
    | cons => cases none
  | _, _, .more arg others, es', same => by
    obtain ⟨e, rest, rfl, sameFirst, sameOthers⟩ := Expr.bareAll_eq_cons same
    obtain ⟨e', es, rfl, _, _⟩ := Expr.bareAll_eq_cons sameOthers
    exact .more (arg.of_bare sameFirst) (others.of_bare sameOthers)

end

/-- The lexemes numbered from `i` on and before `j`. -/
def phrase (ts : List Placed) (i j : Nat) : List Lexeme :=
  plain ((ts.take j).drop i)

/-- The lexeme numbered `j` goes on with an expression that ends before it: it is an operator between two operands
or behind one, or a parenthesis behind a name. -/
inductive GoesOn (ts : List Placed) (j : Nat) : Prop
  | operator {p : Punct} {mark : BinOp × Nat} : (plain ts)[j]? = some (.punct p) → binary? p = some mark → GoesOn ts j
  | counting {p : Punct} {op : UnOp} : (plain ts)[j]? = some (.punct p) → counting? p = some op → GoesOn ts j
  | call {name : Name} : (plain ts)[j]? = some (.punct .openParen) → 0 < j → (plain ts)[j - 1]? = some (.ident name) →
    GoesOn ts j

/-- The parser of expressions, put at the lexeme numbered `i`, returns a tree and stops at the one numbered `j`. -/
def ReadsExpr (eof : Position) (ts : List Placed) (i : Nat) (e : Expr) (j : Nat) : Prop :=
  Parser.Call.outcome ⟨ts.toArray, eof⟩ ⟨.expr, i⟩ = some (.ok (e, j))

theorem readsExpr_iff_yields {eof : Position} {ts : List Placed} {i j : Nat} {e : Expr} :
    ReadsExpr eof ts i e j ↔ j ≤ ts.length ∧ Yields (expr eof 0 (ts.drop i)) e (ts.drop j) := by
  obtain ⟨outcome, ends, moves, same⟩ := @Parser.Call.outcome_eq ⟨ts.toArray, eof⟩ ⟨.expr, i⟩
  have same : bare (expr eof 0 (ts.drop i)) = outcome.map fun (a, j) => (a, ts.drop j) := same
  have inside : ∀ {a j}, outcome = .ok (a, j) → j ≤ ts.length := fun returned => (moves _ _ returned).2
  unfold ReadsExpr
  rw [ends, Option.some.injEq, ← bare_eq_ok, same]
  constructor
  · rintro rfl
    exact ⟨inside rfl, rfl⟩
  · rintro ⟨within, stops⟩
    cases outcome with
    | error => cases stops
    | ok found =>
      obtain ⟨a, k⟩ := found
      obtain ⟨rfl, left⟩ := Prod.mk.inj (Except.ok.inj stops)
      have within' := inside rfl
      have left : (ts.drop k).length = (ts.drop j).length := congrArg List.length left
      rw [List.length_drop, List.length_drop] at left
      obtain rfl : k = j := by omega
      rfl

section

variable {ts : List Placed} {i j : Nat}

theorem drop_eq_append (order : i ≤ j) : ts.drop i = (ts.take j).drop i ++ ts.drop j := by
  have whole := (List.take_append_drop (j - i) (ts.drop i)).symm
  rwa [List.drop_drop, Nat.add_sub_cancel' order, ← List.drop_take] at whole

theorem getElem?_of_drop {t : Placed} {rest : List Placed} (starts : ts.drop j = t :: rest) :
    (plain ts)[j]? = some t.lexeme := by
  have first : (ts.drop j)[0]? = some t := by rw [starts]; rfl
  rw [List.getElem?_drop, Nat.add_zero] at first
  rw [plain, List.getElem?_map, first, Option.map_some]

theorem drop_of_getElem? {l : Lexeme} (found : (plain ts)[j]? = some l) : ∃ pos rest, ts.drop j = ⟨l, pos⟩ :: rest := by
  rw [plain, List.getElem?_map, Option.map_eq_some_iff] at found
  obtain ⟨t, at_, rfl⟩ := found
  obtain ⟨inside, rfl⟩ := List.getElem?_eq_some_iff.1 at_
  exact ⟨_, _, List.drop_eq_getElem_cons inside⟩

theorem getLast?_phrase (order : i < j) (inside : j ≤ ts.length) : (phrase ts i j).getLast? = (plain ts)[j - 1]? := by
  have length : (phrase ts i j).length = j - i := by
    simp only [phrase, plain, List.length_map, List.length_drop, List.length_take]
    omega
  rw [List.getLast?_eq_getElem?, length, phrase, plain, plain, List.getElem?_map, List.getElem?_map, List.getElem?_drop,
    List.getElem?_take_of_lt (by omega)]
  congr 2
  omega

theorem ends_iff (order : i < j) (inside : j ≤ ts.length) : Ends 0 (phrase ts i j) (ts.drop j) ↔ ¬ GoesOn ts j := by
  constructor
  · rintro ⟨notOperator, notCounted, notCallee⟩ goesOn
    cases goesOn with
    | operator found mark =>
      obtain ⟨pos, rest, starts⟩ := drop_of_getElem? found
      exact absurd (notOperator _ _ _ _ _ starts mark) (Nat.not_lt_zero _)
    | counting found mark =>
      obtain ⟨pos, rest, starts⟩ := drop_of_getElem? found
      cases mark.symm.trans (notCounted _ _ _ starts)
    | call found _ named =>
      obtain ⟨pos, rest, starts⟩ := drop_of_getElem? found
      exact notCallee ⟨_, (getLast?_phrase order inside).trans named⟩ pos rest starts
  · intro stops
    refine ⟨?_, ?_, ?_⟩
    · intro p pos rest op level starts mark
      exact absurd (.operator (getElem?_of_drop starts) mark) stops
    · intro p pos rest starts
      by_contra some
      obtain ⟨op, mark⟩ := Option.ne_none_iff_exists'.1 some
      exact stops (.counting (getElem?_of_drop starts) mark)
    · rintro ⟨name, named⟩ pos rest starts
      rw [getLast?_phrase order inside] at named
      exact stops (.call (getElem?_of_drop starts) (by omega) named)

end

/-- The parser of expressions reads exactly what the grammar derives: from any lexeme on it returns a tree and stops
somewhere if and only if the lexemes in between derive the tree and the next one does not go on with them. -/
theorem readsExpr_iff (eof : Position) (ts : List Placed) (i j : Nat) (e : Expr) :
    (∃ e', ReadsExpr eof ts i e' j ∧ e'.bare = e.bare) ↔
      j ≤ ts.length ∧ IsExpr 0 (phrase ts i j) e ∧ ¬ GoesOn ts j := by
  constructor
  · rintro ⟨e', reads, same⟩
    obtain ⟨inside, reads⟩ := readsExpr_iff_yields.1 reads
    obtain ⟨read, split, derived, ends⟩ := isExpr_of_yields (Nat.zero_le 10) reads
    have order : i < j := by
      have shorter : (ts.drop j).length < (ts.drop i).length := reads.bound
      rw [List.length_drop, List.length_drop] at shorter
      omega
    obtain rfl : (ts.take j).drop i = read := by
      rw [drop_eq_append (Nat.le_of_lt order)] at split
      exact List.append_cancel_right split
    exact ⟨inside, derived.of_bare same.symm, (ends_iff order inside).1 ends⟩
  · rintro ⟨inside, derived, stops⟩
    have order : i < j := by
      have some : ((ts.take j).drop i).length ≠ 0 := fun none =>
        derived.ne_nil (by rw [phrase, List.length_eq_zero_iff.1 none]; rfl)
      rw [List.length_drop, List.length_take] at some
      omega
    have ends := (ends_iff order inside).2 stops
    have ends' : Ends 1 (phrase ts i j) (ts.drop j) := ⟨ends.notOperator.mono (Nat.zero_le 1), ends.notCounted, ends.notCallee⟩
    obtain ⟨e', same, reads⟩ := @IsExpr.yields eof _ _ _ derived _ _ rfl ends'
    have stopped := reads 0 (Nat.le_refl 0) e' (ts.drop j) ((yields_operators_other ends.notOperator).2 ⟨rfl, rfl⟩)
    rw [← drop_eq_append (Nat.le_of_lt order)] at stopped
    exact ⟨e', readsExpr_iff_yields.2 ⟨inside, stopped⟩, same⟩

end MiniC.Source
