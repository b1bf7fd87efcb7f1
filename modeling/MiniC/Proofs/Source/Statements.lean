import MiniC.Proofs.Source.Expressions

namespace MiniC.Source.Climbing

open MiniC.Source.Parser (type?)

variable {eof pos : Position} {ts rest : List Placed} {ss : List Stmt}

theorem yields_condition {e : Expr} :
    Yields (condition eof ts) e rest ↔
      ∃ first inside last, ts = ⟨.punct .openParen, first⟩ :: inside ∧
        Yields (expr eof 0 inside) e (⟨.punct .closeParen, last⟩ :: rest) := by
  simp [condition, yields_expect, yields_bind, yields_ok]

theorem yields_exprStmt :
    Yields (exprStmt eof ts) ss rest ↔
      ∃ e last, Yields (expr eof 0 ts) e (⟨.punct .semicolon, last⟩ :: rest) ∧ ss = [.exprStmt (place eof ts) e] := by
  simp [exprStmt, yields_expect, yields_bind, yields_ok, and_comm]

theorem yields_declaration {ty : Ty} :
    Yields (declaration eof pos ty ts) ss rest ↔
      ∃ name first mid, ts = ⟨.ident name, first⟩ :: mid ∧ IsName name ∧ ty ≠ .void ∧
        ((∃ mark inside e last, mid = ⟨.punct .assign, mark⟩ :: inside ∧
            Yields (expr eof 0 inside) e (⟨.punct .semicolon, last⟩ :: rest) ∧ ss = [.declare pos ty name e]) ∨
          (ty ≠ .string ∧ ∃ last, mid = ⟨.punct .semicolon, last⟩ :: rest ∧ ss = [.declare pos ty name .missing])) := by
  rw [declaration, yields_bind]
  constructor
  · rintro ⟨name, mid, first, last⟩
    obtain ⟨pos, rfl, isName⟩ := yields_ident.1 first
    dsimp only at last
    split at last
    · exact absurd last not_yields_error
    · rename_i notVoid
      refine ⟨name, pos, mid, rfl, isName, notVoid, ?_⟩
      split at last
      · rename_i inside _ assigned
        obtain ⟨mark, rfl⟩ := accept?_eq_some.1 assigned
        simp only [yields_bind, yields_expect, yields_ok] at last
        obtain ⟨e, _, read, last, _, rfl, rfl, rfl⟩ := last
        exact .inl ⟨mark, inside, e, last, rfl, read, rfl⟩
      · split at last
        · exact absurd last not_yields_error
        · rename_i notString
          simp only [yields_expect, yields_ok] at last
          obtain ⟨last, _, rfl, rfl, rfl⟩ := last
          exact .inr ⟨notString, last, rfl, rfl⟩
  · rintro ⟨name, first, mid, rfl, isName, notVoid, given | ⟨notString, last, rfl, rfl⟩⟩
    · obtain ⟨mark, inside, e, last, rfl, read, rfl⟩ := given
      refine ⟨name, _, yields_ident.2 ⟨first, rfl, isName⟩, ?_⟩
      simp only [if_neg notVoid, accept?_head, yields_bind, yields_expect, yields_ok]
      exact ⟨e, _, read, last, rest, rfl, rfl, rfl⟩
    · have notAssign : accept? (.punct .assign) (⟨.punct .semicolon, last⟩ :: rest) = none :=
        accept?_eq_none.2 (by simp)
      refine ⟨name, _, yields_ident.2 ⟨first, rfl, isName⟩, ?_⟩
      simp only [if_neg notVoid, notAssign, if_neg notString, yields_expect, yields_ok]
      exact ⟨last, rest, rfl, trivial, rfl⟩

theorem yields_returned :
    Yields (returned eof pos ts) ss rest ↔
      (∃ last, ts = ⟨.punct .semicolon, last⟩ :: rest ∧ ss = [.returnStmt pos .missing]) ∨
        ((∀ last after, ts ≠ ⟨.punct .semicolon, last⟩ :: after) ∧
          ∃ e last, Yields (expr eof 0 ts) e (⟨.punct .semicolon, last⟩ :: rest) ∧ ss = [.returnStmt pos e]) := by
  unfold returned
  rcases starts_or (.punct .semicolon) ts with ⟨last, after, rfl⟩ | given
  · simp [accept?_head, yields_ok, and_comm, eq_comm]
  · simp [accept?_eq_none.2 given, given, yields_bind, yields_expect, yields_ok, and_comm]

theorem yields_named_assign {name : Name} {first mark : Position} :
    Yields (named eof pos (⟨.ident name, first⟩ :: ⟨.punct .assign, mark⟩ :: ts)) ss rest ↔
      IsName name ∧ ∃ e last, Yields (expr eof 0 ts) e (⟨.punct .semicolon, last⟩ :: rest) ∧
        ss = [.assign pos name e] := by
  rw [named, yields_bind]
  simp [yields_ident, yields_bind, yields_expect, yields_ok, and_comm]

theorem named_other (notAssign : ∀ first mark after, ts ≠ first :: ⟨.punct .assign, mark⟩ :: after) :
    named eof pos ts = exprStmt eof ts := by
  unfold named
  split
  · exact absurd rfl (notAssign _ _ _)
  · rfl

theorem yields_stmt_block :
    Yields (stmt eof (⟨.punct .openBrace, pos⟩ :: ts)) ss rest ↔ Yields (stmts eof ts) ss rest := by
  rw [stmt]
  simp [yields_bind, yields_ok]

theorem yields_stmt_empty :
    Yields (stmt eof (⟨.punct .semicolon, pos⟩ :: ts)) ss rest ↔ ss = [] ∧ rest = ts := by
  rw [stmt]
  exact yields_ok

theorem yields_stmt_type {name : Name} {ty : Ty} (isType : type? name = some ty) :
    Yields (stmt eof (⟨.ident name, pos⟩ :: ts)) ss rest ↔ Yields (declaration eof pos ty ts) ss rest := by
  rw [stmt]
  simp [isType, yields_bind, yields_ok]

def NotElse (ts : List Placed) : Prop :=
  ∀ pos rest, ts ≠ ⟨.ident "else", pos⟩ :: rest

theorem yields_stmt_if :
    Yields (stmt eof (⟨.ident "if", pos⟩ :: ts)) ss rest ↔
      ∃ check mid thenBody behind, Yields (condition eof ts) check mid ∧ Yields (stmt eof mid) thenBody behind ∧
        ((∃ other inside elseBody, behind = ⟨.ident "else", other⟩ :: inside ∧
            Yields (stmt eof inside) elseBody rest ∧ ss = [.ifStmt pos check thenBody elseBody]) ∨
          (NotElse behind ∧ rest = behind ∧ ss = [.ifStmt pos check thenBody []])) := by
  have notType : type? (Bytes.ofString "if") = none := by decide
  rw [stmt]
  simp only [notType, if_true, yields_bind]
  constructor
  · rintro ⟨check, mid, first, thenBody, behind, second, last⟩
    refine ⟨check, mid, thenBody, behind, first, second, ?_⟩
    split at last
    · rename_i inside _ given
      obtain ⟨other, rfl⟩ := accept?_eq_some.1 given
      simp only [yields_bind, yields_ok] at last
      obtain ⟨elseBody, _, third, rfl, rfl⟩ := last
      exact .inl ⟨other, inside, elseBody, rfl, third, rfl⟩
    · rename_i none
      obtain ⟨rfl, rfl⟩ := yields_ok.1 last
      exact .inr ⟨accept?_eq_none.1 none, rfl, rfl⟩
  · rintro ⟨check, mid, thenBody, behind, first, second, given | ⟨none, rfl, rfl⟩⟩
    · obtain ⟨other, inside, elseBody, rfl, third, rfl⟩ := given
      refine ⟨check, mid, first, thenBody, _, second, ?_⟩
      simp only [accept?_head, yields_bind, yields_ok]
      exact ⟨elseBody, rest, third, rfl, rfl⟩
    · refine ⟨check, mid, first, thenBody, rest, second, ?_⟩
      simp only [accept?_eq_none.2 none]
      exact yields_ok.2 ⟨rfl, rfl⟩

theorem yields_stmt_while :
    Yields (stmt eof (⟨.ident "while", pos⟩ :: ts)) ss rest ↔
      ∃ check mid body, Yields (condition eof ts) check mid ∧ Yields (stmt eof mid) body rest ∧
        ss = [.whileStmt pos check body] := by
  have notType : type? (Bytes.ofString "while") = none := by decide
  rw [stmt]
  simp +decide [notType, yields_bind, yields_ok, and_comm]

theorem yields_stmt_break :
    Yields (stmt eof (⟨.ident "break", pos⟩ :: ts)) ss rest ↔
      ∃ last, ts = ⟨.punct .semicolon, last⟩ :: rest ∧ ss = [.breakStmt pos] := by
  have notType : type? (Bytes.ofString "break") = none := by decide
  rw [stmt]
  simp +decide [notType, yields_expect, yields_ok, and_comm]

theorem yields_stmt_continue :
    Yields (stmt eof (⟨.ident "continue", pos⟩ :: ts)) ss rest ↔
      ∃ last, ts = ⟨.punct .semicolon, last⟩ :: rest ∧ ss = [.continueStmt pos] := by
  have notType : type? (Bytes.ofString "continue") = none := by decide
  rw [stmt]
  simp +decide [notType, yields_expect, yields_ok, and_comm]

theorem yields_stmt_return :
    Yields (stmt eof (⟨.ident "return", pos⟩ :: ts)) ss rest ↔ Yields (returned eof pos ts) ss rest := by
  have notType : type? (Bytes.ofString "return") = none := by decide
  rw [stmt]
  simp +decide [notType, yields_bind, yields_ok]

def leads : List Name :=
  ["if", "while", "break", "continue", "return"]

theorem stmt_named {name : Name} (notType : type? name = none) (notLead : name ∉ leads) :
    stmt eof (⟨.ident name, pos⟩ :: ts) = named eof pos (⟨.ident name, pos⟩ :: ts) := by
  simp only [leads, List.mem_cons, List.not_mem_nil, or_false, not_or] at notLead
  obtain ⟨notIf, notWhile, notBreak, notContinue, notReturn⟩ := notLead
  rw [stmt]
  simp only [notType, if_neg notIf, if_neg notWhile, if_neg notBreak, if_neg notContinue, if_neg notReturn]

theorem stmt_other (notIdent : ∀ name pos after, ts ≠ ⟨.ident name, pos⟩ :: after)
    (notBlock : ∀ pos after, ts ≠ ⟨.punct .openBrace, pos⟩ :: after)
    (notEmpty : ∀ pos after, ts ≠ ⟨.punct .semicolon, pos⟩ :: after) : stmt eof ts = exprStmt eof ts := by
  unfold stmt
  split
  · exact absurd rfl (notBlock _ _)
  · exact absurd rfl (notEmpty _ _)
  · exact absurd rfl (notIdent _ _ _)
  · rfl

theorem yields_stmts_close :
    Yields (stmts eof (⟨.punct .closeBrace, pos⟩ :: ts)) ss rest ↔ ss = [] ∧ rest = ts := by
  rw [stmts]
  simp only [accept?_head]
  exact yields_ok

theorem yields_stmts_next (notClosed : ∀ pos after, ts ≠ ⟨.punct .closeBrace, pos⟩ :: after) :
    Yields (stmts eof ts) ss rest ↔
      ts ≠ [] ∧ ∃ first mid body, Yields (stmt eof ts) first mid ∧ Yields (stmts eof mid) body rest ∧
        ss = first ++ body := by
  rw [stmts]
  simp only [accept?_eq_none.2 notClosed]
  cases ts with
  | nil => simp [not_yields_error]
  | cons t ts => simp [yields_bind, yields_ok, and_comm]

end MiniC.Source.Climbing

namespace MiniC.Source

open MiniC.Source.Parser (keywords type? binary? counting?)
open MiniC.Source.Climbing

variable {e : Expr} {ts rest read : List Placed} {ss : List Stmt} {ls : List Lexeme}

variable {eof : Position}

theorem isExpr_before_mark {p : Punct} {last : Position}
    (yields : Yields (expr eof 0 ts) e (⟨.punct p, last⟩ :: rest)) :
    ∃ read, ts = (read ++ [⟨.punct p, last⟩]) ++ rest ∧ IsExpr 0 (plain read) e := by
  obtain ⟨read, rfl, derived, _⟩ := isExpr_of_yields (by omega) yields
  exact ⟨read, by simp, derived⟩

theorem isExpr_of_condition (yields : Yields (condition eof ts) e rest) :
    ∃ read cs, ts = read ++ rest ∧ plain read = inParens cs ∧ IsExpr 0 cs e := by
  obtain ⟨first, inside, last, rfl, inner⟩ := yields_condition.1 yields
  obtain ⟨read, rfl, derived⟩ := isExpr_before_mark inner
  exact ⟨⟨.punct .openParen, first⟩ :: (read ++ [⟨.punct .closeParen, last⟩]), plain read, by simp,
    by simp [inParens], derived⟩

theorem isStmt_of_exprStmt (yields : Yields (exprStmt eof ts) ss rest) :
    ∃ read, ts = read ++ rest ∧ IsStmt true (plain read) ss := by
  obtain ⟨e, last, inner, rfl⟩ := yields_exprStmt.1 yields
  obtain ⟨read, rfl, derived⟩ := isExpr_before_mark inner
  refine ⟨_, rfl, ?_⟩
  rw [plain_append]
  exact .expr _ derived

theorem isStmt_of_declaration {spelled : Bytes} {ty : Ty} {pos : Position}
    (isType : type? spelled = some ty) (yields : Yields (declaration eof pos ty ts) ss rest) :
    ∃ read, ts = read ++ rest ∧ IsStmt true (.ident spelled :: plain read) ss := by
  obtain ⟨name, first, mid, rfl, isName, notVoid, given | ⟨notString, last, rfl, rfl⟩⟩ := yields_declaration.1 yields
  · obtain ⟨mark, inside, e, last, rfl, inner, rfl⟩ := given
    obtain ⟨read, rfl, derived⟩ := isExpr_before_mark inner
    refine ⟨⟨.ident name, first⟩ :: ⟨.punct .assign, mark⟩ :: (read ++ [⟨.punct .semicolon, last⟩]), by simp, ?_⟩
    simpa using IsStmt.declareWith pos isType isName notVoid derived
  · exact ⟨[⟨.ident name, first⟩, ⟨.punct .semicolon, last⟩], rfl, .declare pos isType isName notVoid notString⟩

theorem isStmt_of_returned {pos : Position} (yields : Yields (returned eof pos ts) ss rest) :
    ∃ read, ts = read ++ rest ∧ IsStmt true (.ident "return" :: plain read) ss := by
  rcases yields_returned.1 yields with ⟨last, rfl, rfl⟩ | ⟨_, e, last, inner, rfl⟩
  · exact ⟨[⟨.punct .semicolon, last⟩], rfl, .leave pos⟩
  · obtain ⟨read, rfl, derived⟩ := isExpr_before_mark inner
    refine ⟨_, rfl, ?_⟩
    rw [plain_append]
    exact .leaveWith pos derived

theorem isStmt_of_named {name : Name} {pos first : Position}
    (yields : Yields (named eof pos (⟨.ident name, first⟩ :: ts)) ss rest) :
    ∃ read, ⟨.ident name, first⟩ :: ts = read ++ rest ∧ IsStmt true (plain read) ss := by
  rcases starts_or (.punct .assign) ts with ⟨mark, after, rfl⟩ | notAssign
  · obtain ⟨isName, e, last, inner, rfl⟩ := yields_named_assign.1 yields
    obtain ⟨read, rfl, derived⟩ := isExpr_before_mark inner
    refine ⟨⟨.ident name, first⟩ :: ⟨.punct .assign, mark⟩ :: (read ++ [⟨.punct .semicolon, last⟩]), by simp, ?_⟩
    simpa using IsStmt.assign pos isName derived
  · rw [named_other] at yields
    · exact isStmt_of_exprStmt yields
    · rintro _ mark after ⟨⟩
      exact notAssign mark after rfl

mutual

theorem isIf_of_yields {ss : List Stmt} {pos : Position} {ts rest : List Placed}
    (yields : Yields (stmt eof (⟨.ident "if", pos⟩ :: ts)) ss rest) :
    ∃ closed read, ts = read ++ rest ∧ IsStmt closed (.ident "if" :: plain read) ss ∧
      (closed = false → NotElse rest) := by
  obtain ⟨check, mid, thenBody, behind, first, second, third⟩ := yields_stmt_if.1 yields
  have shorter : mid.length < ts.length := first.bound
  have shorter' : behind.length < mid.length := second.bound
  obtain ⟨before, cs, rfl, inParens, derivedCheck⟩ := isExpr_of_condition first
  obtain ⟨closed, read, rfl, derivedThen, ends⟩ := isStmt_of_yields second
  rcases third with ⟨other, inside, elseBody, rfl, third, rfl⟩ | ⟨notElse, rfl, rfl⟩
  · obtain ⟨closed', read', rfl, derivedElse, ends'⟩ := isStmt_of_yields third
    -- an open statement before it would have taken the `else`
    obtain rfl : closed = true := by
      cases closed with
      | true => rfl
      | false => exact absurd rfl (ends rfl other _)
    refine ⟨closed', before ++ (read ++ ⟨.ident "else", other⟩ :: read'), by simp, ?_, ends'⟩
    rw [plain_append, inParens, plain_append, plain_cons]
    exact .ifElse pos derivedCheck derivedThen derivedElse
  · refine ⟨false, before ++ read, by simp, ?_, fun _ => notElse⟩
    rw [plain_append, inParens]
    exact .ifThen pos derivedCheck derivedThen
termination_by (ts.length, 2)

theorem isLoop_of_yields {ss : List Stmt} {pos : Position} {ts rest : List Placed}
    (yields : Yields (stmt eof (⟨.ident "while", pos⟩ :: ts)) ss rest) :
    ∃ closed read, ts = read ++ rest ∧ IsStmt closed (.ident "while" :: plain read) ss ∧
      (closed = false → NotElse rest) := by
  obtain ⟨check, mid, body, first, second, rfl⟩ := yields_stmt_while.1 yields
  have shorter : mid.length < ts.length := first.bound
  obtain ⟨before, cs, rfl, inParens, derivedCheck⟩ := isExpr_of_condition first
  obtain ⟨closed, read, rfl, derived, ends⟩ := isStmt_of_yields second
  refine ⟨closed, before ++ read, by simp, ?_, ends⟩
  rw [plain_append, inParens]
  exact .loop pos derivedCheck derived
termination_by (ts.length, 2)

theorem isLed_of_yields {name : Name} {ss : List Stmt} {pos : Position} {ts rest : List Placed} (lead : name ∈ leads)
    (yields : Yields (stmt eof (⟨.ident name, pos⟩ :: ts)) ss rest) :
    ∃ closed read, ts = read ++ rest ∧ IsStmt closed (.ident name :: plain read) ss ∧
      (closed = false → NotElse rest) := by
  simp only [leads, List.mem_cons, List.not_mem_nil, or_false] at lead
  rcases lead with rfl | rfl | rfl | rfl | rfl
  · exact isIf_of_yields yields
  · exact isLoop_of_yields yields
  · obtain ⟨last, rfl, rfl⟩ := yields_stmt_break.1 yields
    exact ⟨true, [⟨.punct .semicolon, last⟩], rfl, .breakLoop pos, fun never => nomatch never⟩
  · obtain ⟨last, rfl, rfl⟩ := yields_stmt_continue.1 yields
    exact ⟨true, [⟨.punct .semicolon, last⟩], rfl, .continueLoop pos, fun never => nomatch never⟩
  · obtain ⟨read, rfl, derived⟩ := isStmt_of_returned (yields_stmt_return.1 yields)
    exact ⟨true, read, rfl, derived, fun never => nomatch never⟩
termination_by (ts.length, 3)

theorem isStmt_of_yields {ss : List Stmt} {ts rest : List Placed} (yields : Yields (stmt eof ts) ss rest) :
    ∃ closed read, ts = read ++ rest ∧ IsStmt closed (plain read) ss ∧ (closed = false → NotElse rest) := by
  by_cases ident : ∃ name pos after, ts = ⟨.ident name, pos⟩ :: after
  · obtain ⟨name, pos, ts, rfl⟩ := ident
    cases isType : type? name with
    | some ty =>
      obtain ⟨read, rfl, derived⟩ := isStmt_of_declaration isType ((yields_stmt_type isType).1 yields)
      exact ⟨true, ⟨.ident name, pos⟩ :: read, rfl, derived, fun never => nomatch never⟩
    | none =>
      by_cases lead : name ∈ leads
      · obtain ⟨closed, read, rfl, derived, ends⟩ := isLed_of_yields lead yields
        exact ⟨closed, ⟨.ident name, pos⟩ :: read, rfl, derived, ends⟩
      · rw [stmt_named isType lead] at yields
        obtain ⟨read, same, derived⟩ := isStmt_of_named yields
        exact ⟨true, read, same, derived, fun never => nomatch never⟩
  rcases starts_or (.punct .openBrace) ts with ⟨pos, ts, rfl⟩ | block
  · obtain ⟨read, last, rfl, derived⟩ := isStmts_of_yields (yields_stmt_block.1 yields)
    refine ⟨true, ⟨.punct .openBrace, pos⟩ :: (read ++ [⟨.punct .closeBrace, last⟩]), by simp, ?_, fun never => nomatch never⟩
    simpa using IsStmt.block derived
  rcases starts_or (.punct .semicolon) ts with ⟨pos, ts, rfl⟩ | empty
  · obtain ⟨rfl, rfl⟩ := yields_stmt_empty.1 yields
    exact ⟨true, [⟨.punct .semicolon, pos⟩], rfl, .empty, fun never => nomatch never⟩
  simp only [not_exists] at ident
  rw [stmt_other ident block empty] at yields
  obtain ⟨read, same, derived⟩ := isStmt_of_exprStmt yields
  exact ⟨true, read, same, derived, fun never => nomatch never⟩
termination_by (ts.length, 0)

theorem isStmts_of_yields {ss : List Stmt} {ts rest : List Placed} (yields : Yields (stmts eof ts) ss rest) :
    ∃ read pos, ts = read ++ ⟨.punct .closeBrace, pos⟩ :: rest ∧ IsStmts (plain read) ss := by
  rcases starts_or (.punct .closeBrace) ts with ⟨pos, after, rfl⟩ | notClosed
  · obtain ⟨rfl, rfl⟩ := yields_stmts_close.1 yields
    exact ⟨[], pos, rfl, .nil⟩
  · obtain ⟨_, first, mid, body, here, there, rfl⟩ := (yields_stmts_next notClosed).1 yields
    have shorter : mid.length < ts.length := here.bound
    obtain ⟨_, read, rfl, derived, _⟩ := isStmt_of_yields here
    obtain ⟨more, pos, rfl, derived'⟩ := isStmts_of_yields there
    exact ⟨read ++ more, pos, by simp, by simpa using IsStmts.cons derived derived'⟩
termination_by (ts.length, 1)

end

theorem IsExpr.yields_before (derived : IsExpr 0 ls e) {p : Punct} (notBinary : binary? p = none)
    (notCounting : counting? p = none) (other : p ≠ .openParen) (spelled : plain read = ls)
    (last : Position) (rest : List Placed) :
    ∃ e', e'.bare = e.bare ∧ Yields (expr eof 0 (read ++ ⟨.punct p, last⟩ :: rest)) e' (⟨.punct p, last⟩ :: rest) := by
  obtain ⟨e', same, reads⟩ := derived.yields spelled (ends_mark p _ last rest notBinary notCounting other 1)
  exact ⟨e', same, yields_closed notBinary (reads 0 (Nat.le_refl 0))⟩

theorem IsExpr.yields_condition {cs : List Lexeme} (derived : IsExpr 0 cs e)
    (spelled : plain read = inParens cs) (rest : List Placed) :
    ∃ e', e'.bare = e.bare ∧ Yields (condition eof (read ++ rest)) e' rest := by
  obtain ⟨first, inside, rfl, opened⟩ := plain_eq_cons spelled
  obtain ⟨inner, behind, rfl, between, closed⟩ := plain_eq_append opened
  obtain ⟨last, rfl⟩ := plain_eq_singleton closed
  obtain ⟨e', same, reads⟩ := derived.yields_before (p := .closeParen) rfl rfl (by simp) between last rest
  refine ⟨e', same, yields_condition.2 ⟨first, inner ++ ⟨.punct .closeParen, last⟩ :: rest, last, ?_, reads⟩⟩
  simp

theorem IsName.not_mem_leads {name : Name} (isName : IsName name) : name ∉ leads := by
  intro lead
  have keyword : name ∈ keywords := by
    simp only [leads, List.mem_cons, List.not_mem_nil, or_false] at lead
    rcases lead with rfl | rfl | rfl | rfl | rfl <;> decide
  exact isName.notKeyword keyword

theorem stmt_of_named {name : Name} (isName : IsName name) (pos : Position) (ts : List Placed) :
    stmt eof (⟨.ident name, pos⟩ :: ts) = named eof pos (⟨.ident name, pos⟩ :: ts) :=
  stmt_named isName.notType isName.not_mem_leads

theorem IsExpr.yields_semicolon (derived : IsExpr 0 ls e)
    (spelled : plain read = ls ++ [Lexeme.punct .semicolon]) (rest : List Placed) :
    ∃ e' last, e'.bare = e.bare ∧ Yields (expr eof 0 (read ++ rest)) e' (⟨.punct .semicolon, last⟩ :: rest) := by
  obtain ⟨inner, behind, rfl, between, closed⟩ := plain_eq_append spelled
  obtain ⟨last, rfl⟩ := plain_eq_singleton closed
  obtain ⟨e', same, reads⟩ := derived.yields_before (p := .semicolon) rfl rfl (by simp) between last rest
  refine ⟨e', last, same, ?_⟩
  rwa [List.append_assoc]

theorem IsExpr.stmt_eq {i : Nat} (derived : IsExpr i ls e)
    (spelled : plain read = ls ++ [Lexeme.punct .semicolon]) (rest : List Placed) :
    stmt eof (read ++ rest) = exprStmt eof (read ++ rest) := by
  obtain ⟨l, after, rfl, starts⟩ := derived.starts
  obtain ⟨pos, us, rfl, inside⟩ := plain_eq_cons spelled
  cases l with
  | ident name =>
    rw [List.cons_append, stmt_of_named starts]
    apply named_other
    intro first mark behind same
    -- the second lexeme is one of the expression or the semicolon
    obtain ⟨second, others, rfl⟩ := List.exists_cons_of_ne_nil (l := us) (by rintro rfl; simp at inside)
    cases same
    have member : Lexeme.punct .assign ∈ after ++ [Lexeme.punct .semicolon] := by
      rw [← List.append_eq, ← inside]
      exact List.mem_cons_self
    have inExpr : Lexeme.punct .assign ∈ after := by simpa using member
    have isInner := derived.inner _ (List.mem_cons_of_mem _ inExpr)
    simp [Inner] at isInner
  | punct q =>
    apply stmt_other
    · rintro name place behind ⟨⟩
    · rintro place behind ⟨⟩
      rcases starts with never | never <;> cases never
    · rintro place behind ⟨⟩
      rcases starts with never | never <;> cases never
  | int | char | str =>
    apply stmt_other
    · rintro name place behind ⟨⟩
    · rintro place behind ⟨⟩
    · rintro place behind ⟨⟩

theorem type?_ne {spelled name : Bytes} {ty : Ty} (isType : type? spelled = some ty) (notType : type? name = none) :
    spelled ≠ name := by
  rintro rfl
  rw [isType] at notType
  cases notType

theorem IsStmt.starts {closed : Bool} (derived : IsStmt closed ls ss) :
    ∃ l after, ls = l :: after ∧ l ≠ .punct .closeBrace ∧ l ≠ .ident "else" := by
  have notType : type? (Bytes.ofString "else") = none := by decide
  have keyword : Bytes.ofString "else" ∈ keywords := by decide
  cases derived with
  | declare _ isType | declareWith _ isType => exact ⟨_, _, rfl, by simp, by simpa using type?_ne isType notType⟩
  | assign _ isName =>
    refine ⟨_, _, rfl, by simp, ?_⟩
    rintro ⟨⟩
    exact isName.notKeyword keyword
  | expr _ value =>
    obtain ⟨l, after, rfl, starts⟩ := value.starts
    refine ⟨l, _, rfl, ?_, ?_⟩
    · rintro rfl
      rcases starts with never | never <;> cases never
    · rintro rfl
      exact starts.notKeyword keyword
  | block | empty => exact ⟨_, _, rfl, by simp, by simp⟩
  | ifThen | ifElse | loop | breakLoop | continueLoop | leave | leaveWith =>
    exact ⟨_, _, rfl, by simp, by decide⟩

theorem IsStmts.notElse (derived : IsStmts ls ss) (spelled : plain read = ls) (last : Position) (rest : List Placed) :
    NotElse (read ++ ⟨.punct .closeBrace, last⟩ :: rest) := by
  cases derived with
  | nil =>
    obtain rfl : read = [] := by simpa [plain] using spelled
    rintro pos after ⟨⟩
  | cons first others =>
    obtain ⟨l, after, rfl, _, notElse⟩ := first.starts
    obtain ⟨pos, us, rfl, _⟩ := plain_eq_cons spelled
    rintro place behind ⟨⟩
    exact notElse rfl

mutual

theorem IsStmt.yields : ∀ {closed ls ss}, IsStmt closed ls ss → ∀ {read rest : List Placed}, plain read = ls →
    (closed = false → NotElse rest) → ∃ ss', Stmt.bareAll ss' = Stmt.bareAll ss ∧ Yields (stmt eof (read ++ rest)) ss' rest
  | _, _, _, .block body, read, rest, spelled, _ => by
    obtain ⟨pos, after, rfl, opened⟩ := plain_eq_cons spelled
    obtain ⟨inner, behind, rfl, between, closed⟩ := plain_eq_append opened
    obtain ⟨last, rfl⟩ := plain_eq_singleton closed
    obtain ⟨ss', same, reads⟩ := body.yields between last rest
    refine ⟨ss', same, ?_⟩
    rw [List.cons_append, List.append_assoc]
    exact yields_stmt_block.2 reads
  | _, _, _, .empty, read, rest, spelled, _ => by
    obtain ⟨pos, rfl⟩ := plain_eq_singleton spelled
    exact ⟨[], rfl, yields_stmt_empty.2 ⟨rfl, rfl⟩⟩
  | _, _, _, @IsStmt.declare ty _ name _ isType isName notVoid notString, read, rest, spelled, _ => by
    obtain ⟨pos, after, rfl, named⟩ := plain_eq_cons spelled
    obtain ⟨first, inside, rfl, closed⟩ := plain_eq_cons named
    obtain ⟨last, rfl⟩ := plain_eq_singleton closed
    refine ⟨[.declare pos ty name .missing], rfl, (yields_stmt_type isType).2 (yields_declaration.2 ?_)⟩
    exact ⟨name, first, _, rfl, isName, notVoid, .inr ⟨notString, last, rfl, rfl⟩⟩
  | _, _, _, @IsStmt.declareWith ty _ name _ _ _ isType isName notVoid init, read, rest, spelled, _ => by
    obtain ⟨pos, after, rfl, named⟩ := plain_eq_cons spelled
    obtain ⟨first, inside, rfl, assigned⟩ := plain_eq_cons named
    obtain ⟨mark, inside, rfl, given⟩ := plain_eq_cons assigned
    obtain ⟨e', last, same, reads⟩ := init.yields_semicolon given rest
    refine ⟨[.declare pos ty name e'], by simp only [Stmt.bareAll, Stmt.bare, same], ?_⟩
    refine (yields_stmt_type isType).2 (yields_declaration.2 ?_)
    exact ⟨name, first, _, rfl, isName, notVoid, .inl ⟨mark, _, e', last, rfl, reads, rfl⟩⟩
  | _, _, _, @IsStmt.assign name _ _ _ isName value, read, rest, spelled, _ => by
    obtain ⟨pos, after, rfl, assigned⟩ := plain_eq_cons spelled
    obtain ⟨mark, inside, rfl, given⟩ := plain_eq_cons assigned
    obtain ⟨e', last, same, reads⟩ := value.yields_semicolon given rest
    refine ⟨[.assign pos name e'], by simp only [Stmt.bareAll, Stmt.bare, same], ?_⟩
    rw [List.cons_append, List.cons_append, stmt_of_named isName]
    exact yields_named_assign.2 ⟨isName, e', last, reads, rfl⟩
  | _, _, _, .ifThen _ check thenBody, read, rest, spelled, ends => by
    obtain ⟨pos, after, rfl, spelled'⟩ := plain_eq_cons spelled
    obtain ⟨before, behind, rfl, checked, body⟩ := plain_eq_append spelled'
    obtain ⟨c, sameCheck, readsCheck⟩ := check.yields_condition checked (behind ++ rest)
    obtain ⟨ss', same, reads⟩ := thenBody.yields body fun _ => ends rfl
    refine ⟨[.ifStmt pos c ss' []], by simp only [Stmt.bareAll, Stmt.bare, sameCheck, same], ?_⟩
    rw [List.cons_append, List.append_assoc]
    exact yields_stmt_if.2 ⟨c, _, ss', rest, readsCheck, reads, .inr ⟨ends rfl, rfl, rfl⟩⟩
  | _, _, _, .ifElse _ check thenBody elseBody, read, rest, spelled, ends => by
    obtain ⟨pos, after, rfl, spelled'⟩ := plain_eq_cons spelled
    obtain ⟨before, behind, rfl, checked, bodies⟩ := plain_eq_append spelled'
    obtain ⟨first, others, rfl, body, otherwise⟩ := plain_eq_append bodies
    obtain ⟨other, second, rfl, body'⟩ := plain_eq_cons otherwise
    obtain ⟨c, sameCheck, readsCheck⟩ :=
      check.yields_condition checked (first ++ ⟨.ident "else", other⟩ :: (second ++ rest))
    obtain ⟨ss', same, reads⟩ : ∃ ss', Stmt.bareAll ss' = _ ∧
        Yields (stmt eof (first ++ ⟨.ident "else", other⟩ :: (second ++ rest))) ss' _ :=
      thenBody.yields body fun never => nomatch never
    obtain ⟨ts', same', reads'⟩ := elseBody.yields body' ends
    refine ⟨[.ifStmt pos c ss' ts'], by simp only [Stmt.bareAll, Stmt.bare, sameCheck, same, same'], ?_⟩
    rw [List.cons_append, List.append_assoc, List.append_assoc, List.cons_append]
    exact yields_stmt_if.2 ⟨c, _, ss', _, readsCheck, reads, .inl ⟨other, _, ts', rfl, reads', rfl⟩⟩
  | _, _, _, .loop _ check body, read, rest, spelled, ends => by
    obtain ⟨pos, after, rfl, spelled'⟩ := plain_eq_cons spelled
    obtain ⟨before, behind, rfl, checked, inside⟩ := plain_eq_append spelled'
    obtain ⟨c, sameCheck, readsCheck⟩ := check.yields_condition checked (behind ++ rest)
    obtain ⟨ss', same, reads⟩ := body.yields inside ends
    refine ⟨[.whileStmt pos c ss'], by simp only [Stmt.bareAll, Stmt.bare, sameCheck, same], ?_⟩
    rw [List.cons_append, List.append_assoc]
    exact yields_stmt_while.2 ⟨c, _, ss', readsCheck, reads, rfl⟩
  | _, _, _, .breakLoop _, read, rest, spelled, _ => by
    obtain ⟨pos, after, rfl, closed⟩ := plain_eq_cons spelled
    obtain ⟨last, rfl⟩ := plain_eq_singleton closed
    exact ⟨[.breakStmt pos], rfl, yields_stmt_break.2 ⟨last, rfl, rfl⟩⟩
  | _, _, _, .continueLoop _, read, rest, spelled, _ => by
    obtain ⟨pos, after, rfl, closed⟩ := plain_eq_cons spelled
    obtain ⟨last, rfl⟩ := plain_eq_singleton closed
    exact ⟨[.continueStmt pos], rfl, yields_stmt_continue.2 ⟨last, rfl, rfl⟩⟩
  | _, _, _, .leave _, read, rest, spelled, _ => by
    obtain ⟨pos, after, rfl, closed⟩ := plain_eq_cons spelled
    obtain ⟨last, rfl⟩ := plain_eq_singleton closed
    exact ⟨[.returnStmt pos .missing], rfl, yields_stmt_return.2 (yields_returned.2 (.inl ⟨last, rfl, rfl⟩))⟩
  | _, _, _, .leaveWith _ value, read, rest, spelled, _ => by
    obtain ⟨pos, after, rfl, given⟩ := plain_eq_cons spelled
    obtain ⟨e', last, same, reads⟩ := value.yields_semicolon given rest
    refine ⟨[.returnStmt pos e'], by simp only [Stmt.bareAll, Stmt.bare, same], ?_⟩
    refine yields_stmt_return.2 (yields_returned.2 (.inr ⟨?_, e', last, reads, rfl⟩))
    obtain ⟨l, more, rfl, starts⟩ := value.starts
    obtain ⟨place, us, rfl, _⟩ := plain_eq_cons given
    rintro place behind ⟨⟩
    rcases starts with never | never <;> cases never
  | _, _, _, .expr _ value, read, rest, spelled, _ => by
    obtain ⟨e', last, same, reads⟩ := value.yields_semicolon spelled rest
    refine ⟨[.exprStmt (place eof (read ++ rest)) e'], by simp only [Stmt.bareAll, Stmt.bare, same], ?_⟩
    rw [value.stmt_eq spelled rest]
    exact yields_exprStmt.2 ⟨e', last, reads, rfl⟩

theorem IsStmts.yields : ∀ {ls ss}, IsStmts ls ss → ∀ {read : List Placed}, plain read = ls →
    ∀ (last : Position) (rest : List Placed), ∃ ss', Stmt.bareAll ss' = Stmt.bareAll ss ∧
      Yields (stmts eof (read ++ ⟨.punct .closeBrace, last⟩ :: rest)) ss' rest
  | _, _, .nil, read, spelled, last, rest => by
    obtain rfl : read = [] := by simpa [plain] using spelled
    exact ⟨[], rfl, yields_stmts_close.2 ⟨rfl, rfl⟩⟩
  | _, _, .cons first others, read, spelled, last, rest => by
    obtain ⟨here, there, rfl, spelledFirst, spelledOthers⟩ := plain_eq_append spelled
    obtain ⟨ss', same, reads⟩ := first.yields spelledFirst fun _ => others.notElse spelledOthers last rest
    obtain ⟨ts', same', reads'⟩ := others.yields spelledOthers last rest
    refine ⟨ss' ++ ts', by rw [Stmt.bareAll_append, Stmt.bareAll_append, same, same'], ?_⟩
    obtain ⟨l, after, rfl, notClosed, _⟩ := first.starts
    obtain ⟨pos, us, rfl, _⟩ := plain_eq_cons spelledFirst
    rw [List.append_assoc]
    refine (yields_stmts_next ?_).2 ⟨List.cons_ne_nil _ _, ss', _, ts', reads, reads', rfl⟩
    rintro place behind ⟨⟩
    exact notClosed rfl

end

end MiniC.Source
