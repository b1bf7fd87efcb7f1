import MiniC.Proofs.Compilation.Stages

namespace MiniC

open Code Assembly

namespace Source

namespace Printer

mutual

theorem expr_bare (nested : Bool) : ∀ e : Expr, expr nested e.bare = expr nested e
  | .missing | .var _ _ | .literal _ => rfl
  | .call _ name es => by rw [Expr.bare, expr, expr, args_bare 0 es]
  | .unary _ op e => by
    have same : isUnary e.bare = isUnary e := by cases e <;> rfl
    rw [Expr.bare, expr, expr, expr_bare true e, same]
  | .binary _ op l r => by rw [Expr.bare, expr, expr, expr_bare true l, expr_bare true r]

theorem args_bare (index : Nat) : ∀ es : List Expr, args index (Expr.bareAll es) = args index es
  | [] => rfl
  | e :: es => by rw [Expr.bareAll, args, args, expr_bare false e, args_bare (index + 1) es]

end

theorem isEmpty_bareAll (ss : List Stmt) : (Stmt.bareAll ss).isEmpty = ss.isEmpty := by
  cases ss <;> rfl

mutual

theorem stmt_bare (depth : Nat) : ∀ s : Stmt, stmt depth s.bare = stmt depth s
  | .missing | .breakStmt _ | .continueStmt _ => rfl
  | .assign _ target value => by rw [Stmt.bare, stmt, stmt, expr_bare false value]
  | .exprStmt _ value => by rw [Stmt.bare, stmt, stmt, expr_bare false value]
  | .declare _ ty name init => by
    have same := expr_bare false init
    cases init with
    | missing => rfl
    | _ => exact congrArg (fun text => within (.init name) text >>= _) same
  | .returnStmt _ value => by
    have same := expr_bare false value
    cases value with
    | missing => rfl
    | _ => exact congrArg (fun text => within .returned text >>= _) same
  | .whileStmt _ check body => by
    rw [Stmt.bare, stmt, stmt, expr_bare false check, stmts_bare (depth + 1) body]
  | .ifStmt _ check thenBody elseBody => by
    rw [Stmt.bare, stmt, stmt, expr_bare false check, stmts_bare (depth + 1) thenBody, stmts_bare (depth + 1) elseBody,
      isEmpty_bareAll]

theorem stmts_bare (depth : Nat) : ∀ ss : List Stmt, stmts depth (Stmt.bareAll ss) = stmts depth ss
  | [] => rfl
  | s :: ss => by rw [Stmt.bareAll, stmts, stmts, stmt_bare depth s, stmts_bare depth ss]

end

theorem function_bare (f : Function) : function f.bare = function f := by
  unfold function
  rw [show f.bare.body = Stmt.bareAll f.body from rfl, stmts_bare]
  rfl

theorem functions_bare (first : Bool) (fs : List Function) : functions first (fs.map Function.bare) = functions first fs := by
  induction fs generalizing first with
  | nil => rfl
  | cons f fs ih =>
    rw [List.map_cons, functions, functions, function_bare, ih]
    rfl

theorem global_bare (g : Global) : global g.bare = global g := by
  unfold global Global.bare
  cases g.init <;> rfl

end Printer

theorem Program.format_bare (x : Program) : x.bare.format = x.format := by
  unfold format Program.bare
  simp only [Printer.functions_bare, List.isEmpty_map, List.flatMap_map, Printer.global_bare]

end Source

theorem lower_alike {text other : Bytes} {x y : Source.Program} (parsed : Source.parse text = .ok x)
    (parsed' : Source.parse other = .ok y) (same : y.bare = x.bare) (p : Program) :
    lower other = .ok p ↔ lower text = .ok p := by
  simp only [lower_eq_ok, parsed, parsed', Except.ok.injEq, exists_eq_left']
  rw [← Program.ofSource_bare y, same, Program.ofSource_bare]

theorem compile_alike {text other : Bytes} {x y : Source.Program} (parsed : Source.parse text = .ok x)
    (parsed' : Source.parse other = .ok y) (same : y.bare = x.bare) (s : Startup) (lines : List Line) :
    compile s other = .ok lines ↔ compile s text = .ok lines := by
  unfold compile
  simp only [bind_eq_ok, mapError_eq_ok, lower_alike parsed parsed' same]

/-- A text that parses can be printed anew, and then compiles iff it did, into the same assembly. -/
theorem compile_formatted {text : Bytes} {x : Source.Program} (parsed : Source.parse text = .ok x) :
    ∃ formatted, x.format = .ok formatted ∧
      (∃ y, Source.parse formatted = .ok y ∧ y.bare = x.bare ∧ y.format = .ok formatted ∧
        ∀ p, Program.ofSource y = .ok p ↔ Program.ofSource x = .ok p) ∧
      ∀ s lines, compile s formatted = .ok lines ↔ compile s text = .ok lines := by
  obtain ⟨formatted, printed, y, again, same⟩ := Source.exists_parse_format (Source.wellFormed_of_parse parsed)
  refine ⟨formatted, printed, ⟨y, again, same, ?_, ?_⟩, compile_alike parsed again same⟩
  · rw [← Source.Program.format_bare, same, Source.Program.format_bare, printed]
  · intro p
    rw [← Program.ofSource_bare y, same, Program.ofSource_bare]

def summing : Source.Program :=
  let pos := Source.Position.nowhere
  let i := Source.Expr.var pos "i"
  let body : List Source.Stmt :=
    [.declare pos .int "i" (.literal ⟨pos, .int 4⟩),
      .whileStmt pos i
        [.assign pos "sum" (.binary pos .add (.var pos "sum") (.binary pos .mul i (.literal ⟨pos, .int 2⟩))),
          .exprStmt pos (.unary pos .decrement i)],
      .returnStmt pos (.var pos "sum")]
  ⟨[⟨pos, "sum", .int, none⟩], [⟨pos, "main", .int, [], false, body⟩]⟩

def summingLoose : Bytes :=
  "int sum;/*4+3+2+1*/int main()\x7bint i=((4));while(i)\x7bsum=sum+i*2;i--;\x7dreturn(sum);\x7d"

def summingText : Bytes :=
  "int sum;\n\nint main() \x7b\n\tint i = 4;\n\twhile (i) \x7b\n\t\tsum = sum + (i * 2);\n\t\t--i;\n\t\x7d\n" ++
    "\treturn sum;\n\x7d\n"

def mainLexemes : List Source.Lexeme :=
  [.ident "int", .ident "main", .punct .openParen, .punct .closeParen, .punct .openBrace,
    .ident "int", .ident "i", .punct .assign, .punct .openParen, .punct .openParen, .int "4", .punct .closeParen,
    .punct .closeParen, .punct .semicolon,
    .ident "while", .punct .openParen, .ident "i", .punct .closeParen, .punct .openBrace,
    .ident "sum", .punct .assign, .ident "sum", .punct .plus, .ident "i", .punct .star, .int "2", .punct .semicolon,
    .ident "i", .punct .decrement, .punct .semicolon, .punct .closeBrace,
    .ident "return", .punct .openParen, .ident "sum", .punct .closeParen, .punct .semicolon, .punct .closeBrace]

open Source in
theorem isDecl_main : IsDecl mainLexemes
    (.function ⟨.nowhere, "main", .int, [], false, summing.functions.flatMap (·.body)⟩) := by
  have isInt : Parser.type? "int" = some .int := rfl
  have isI : IsName "i" := ⟨by decide, by decide, by decide⟩
  have isSum : IsName "sum" := ⟨by decide, by decide, by decide⟩
  have i : ∀ level ≤ 10, IsExpr level [.ident "i"] (.var .nowhere "i") :=
    fun _ le => IsExpr.weaken (.counted (.primary (.var .nowhere isI))) le
  have sum : ∀ level ≤ 10, IsExpr level [.ident "sum"] (.var .nowhere "sum") :=
    fun _ le => IsExpr.weaken (.counted (.primary (.var .nowhere isSum))) le
  have four : IsExpr 0 [.int "4"] (.literal ⟨.nowhere, .int 4⟩) :=
    IsExpr.weaken (.counted (.primary (.literal .nowhere (.int (n := 4) rfl)))) (by decide)
  have two : IsExpr 10 [.int "2"] (.literal ⟨.nowhere, .int 2⟩) :=
    .counted (.primary (.literal .nowhere (.int (n := 2) rfl)))
  have once := IsExpr.weaken (.counted (.primary (.paren four))) (Nat.zero_le 10)
  have twice := IsExpr.weaken (.counted (.primary (.paren once))) (Nat.zero_le 10)
  have product := IsExpr.binary .nowhere (p := .star) rfl (i 9 (by decide)) two
  have total := IsExpr.weaken (.binary .nowhere (p := .plus) rfl (sum 8 (by decide)) product) (Nat.zero_le 8)
  have counted := IsCounted.behind .nowhere (.primary (.var .nowhere isI)) (p := .decrement) rfl rfl
  have loop := IsStmt.loop .nowhere (i 0 (by decide)) (.block (.cons (.assign .nowhere isSum total)
    (.cons (.expr .nowhere (IsExpr.weaken (.counted counted) (Nat.zero_le 10))) .nil)))
  have result := IsExpr.weaken (.counted (.primary (.paren (sum 0 (by decide))))) (Nat.zero_le 10)
  have body := IsStmts.cons (.declareWith .nowhere isInt isI (by decide) twice)
    (.cons loop (.cons (.leaveWith .nowhere result) .nil))
  exact .function .nowhere rfl ⟨by decide, by decide, by decide⟩ .none body

theorem exists_parse_loose : ∃ x, Source.parse summingLoose = .ok x ∧ x.bare = summing := by
  have isInt : Source.Parser.type? "int" = some .int := rfl
  have isSum : Source.IsName "sum" := ⟨by decide, by decide, by decide⟩
  have lexed : Source.lexemesWithin 41 summingLoose =
      some ([Source.Lexeme.ident "int", .ident "sum", .punct .semicolon] ++ (mainLexemes ++ [])) := by
    decide +kernel
  exact Source.exists_parse (Source.lexes_of_lexemesWithin lexed)
    (.cons (.global .nowhere isInt isSum (by decide) (by decide)) (.cons isDecl_main .nil))

theorem exists_compiled_summing : ∃ p lines, Program.ofSource summing = .ok p ∧ compileCode .default p = .ok lines := by
  have compiles : (Program.ofSource summing).toOption.any (fun p => (compileCode .default p).toOption.isSome) = true := by
    decide +kernel
  obtain ⟨p, lowered, accepted⟩ := any_toOption.1 compiles
  obtain ⟨lines, compiled⟩ := isSome_toOption.1 accepted
  exact ⟨p, lines, lowered, compiled⟩

theorem compile_formatted_summing :
    summingText ≠ summingLoose ∧ ∃ x lines, Source.parse summingLoose = .ok x ∧ x.format = .ok summingText ∧
      compile .default summingLoose = .ok lines ∧ compile .default summingText = .ok lines := by
  obtain ⟨x, parsed, same⟩ := exists_parse_loose
  obtain ⟨formatted, printed, _, alike⟩ := compile_formatted parsed
  have neat : summing.format = .ok summingText := by decide +kernel
  have printed' : x.format = .ok summingText := by rw [← Source.Program.format_bare, same, neat]
  cases printed.symm.trans printed'
  obtain ⟨p, lines, lowered, compiled⟩ := exists_compiled_summing
  have compiled := compile_format (by decide) neat lowered compiled
  exact ⟨by decide, x, lines, parsed, printed, (alike _ _).1 compiled, compiled⟩

end MiniC
