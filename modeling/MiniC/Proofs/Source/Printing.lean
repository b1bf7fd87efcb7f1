import MiniC.Proofs.Source.Lexing
import MiniC.Source.Printer

namespace MiniC.Source

open MiniC.Source.Parser (Decl program type? unary? binary?)
open MiniC.Source.Climbing

variable {text : Bytes} {ls : List Lexeme}

theorem exists_binary {op : BinOp} (known : op ∈ BinOp.all) :
    ∃ p level, binary? p = some (op, level) ∧ p.text = op.text := by
  have each : ∀ op ∈ BinOp.all, ∃ p ∈ Punct.all, (binary? p).map Prod.fst = some op ∧ p.text = op.text := by decide
  obtain ⟨p, _, mark, text⟩ := each op known
  obtain ⟨⟨_, level⟩, found, rfl⟩ := Option.map_eq_some_iff.1 mark
  exact ⟨p, level, found, text⟩

theorem exists_unary {op : UnOp} (known : op ∈ UnOp.all) : ∃ p, unary? p = some op ∧ p.text = op.text := by
  have each : ∀ op ∈ UnOp.all, ∃ p ∈ Punct.all, unary? p = some op ∧ p.text = op.text := by decide
  obtain ⟨p, _, found⟩ := each op known
  exact ⟨p, found⟩

theorem type?_text {ty : Ty} (known : ty ∈ Ty.all) : type? ty.text = some ty := by
  have each : ∀ ty ∈ Ty.all, type? ty.text = some ty := by decide
  exact each ty known

theorem isSpelled_text {ty : Ty} (known : ty ∈ Ty.all) : IsSpelled ty.text := by
  simp only [Ty.all, List.mem_cons, List.not_mem_nil, or_false] at known
  rcases known with rfl | rfl | rfl | rfl <;> exact ⟨_, _, rfl, rfl, by decide⟩

theorem spells_constant (c : Constant) :
    ∃ l, SpellsApart (Printer.constant c) [l] ∧ IsLiteral l c ∧ ∃ b rest, Printer.constant c = b :: rest ∧ b ∉ joining := by
  cases c with
  | int value =>
    have small : value.toNat ≤ 0xffffffffffffffff := Nat.le_of_lt_succ value.toNat_lt
    have read := read_ofNat small
    obtain ⟨b, rest, whole⟩ := List.exists_cons_of_ne_nil (Bytes.ofNat_ne_nil value.toNat)
    have digits : ∀ d ∈ b :: rest, Ascii.isDigit d = true := fun d member => Bytes.isDigit_of_mem_ofNat (whole ▸ member)
    have digit := digits b List.mem_cons_self
    have back : value.toNat.toUInt64 = value := UInt64.ofNat_toNat
    have derived := IsLiteral.int read
    rw [back] at derived
    rw [whole] at derived
    refine ⟨_, ?_, derived, b, rest, whole, ?_⟩
    · rw [Printer.constant, whole]
      intro after ls ended lexed
      exact lexes_numeral digit (fun d member => by simp [Ascii.isWord, digits d (List.mem_cons_of_mem b member)]) ended lexed
    · intro joined
      have each : ∀ c ∈ joining, Ascii.isDigit c = false := by decide
      rw [each b joined] at digit
      cases digit
  | char value => exact ⟨_, fun _ _ _ lexed => lexes_char value lexed, .char value, _, _, rfl, by decide⟩
  | str value => exact ⟨_, fun _ _ _ lexed => lexes_str value lexed, .str value, _, _, rfl, by decide⟩

theorem SpellsApart.inParens (spelled : SpellsApart text ls) : SpellsAlways ("(" ++ (text ++ ")")) (inParens ls) :=
  (spells_lone (p := .openParen) (by decide)).append
    (spelled.append ⟨_, _, rfl, rfl⟩ (spells_lone (p := .closeParen) (by decide)))

theorem SpellsApart.comma {text' : Bytes} {rs : List Lexeme} (spelled : SpellsApart text ls)
    (others : SpellsApart text' rs) : SpellsApart (text ++ ", " ++ text') (ls ++ .punct .comma :: rs) := by
  have comma : SpellsAlways ", " [.punct .comma] :=
    (spells_lone (p := .comma) (by decide)).append (spells_gaps [Ascii.space] (by decide))
  rw [List.append_assoc]
  exact spelled.append ⟨_, _, rfl, rfl⟩ (comma.append others)

/-- What is printed of an expression, and the lexemes of that. Unless an operator before an operand comes
first, the text goes on with no mark. -/
structure Expr.Shown (nested : Bool) (e : Expr) (text : Bytes) (ls : List Lexeme) : Prop where
  printed : Printer.expr nested e = .ok text
  spelled : SpellsApart text ls
  derived : IsExpr (if nested then 10 else 0) ls e
  start : nested = true → Printer.isUnary e = false → ∃ c rest, text = c :: rest ∧ c ∉ joining

theorem isExpr_of_top {e : Expr} (derived : IsExpr 10 ls e) (nested : Bool) :
    IsExpr (if nested then 10 else 0) ls e := by
  cases nested with
  | true => exact derived
  | false => exact derived.weaken (Nat.zero_le 10)

theorem not_mem_joining_of_isLetter {c : UInt8} (letter : Ascii.isLetter c = true) : c ∉ joining := by
  intro joined
  have each : ∀ c ∈ joining, Ascii.isLetter c = false := by decide
  rw [each c joined] at letter
  cases letter

theorem Expr.Shown.operand {e : Expr} (shown : e.Shown true text ls) :
    ∃ ls', SpellsApart (Printer.parenthesized (Printer.isUnary e) text) ls' ∧ IsExpr 10 ls' e ∧
      ∃ c rest, Printer.parenthesized (Printer.isUnary e) text = c :: rest ∧ c ∉ joining := by
  cases unary : Printer.isUnary e with
  | false => exact ⟨ls, shown.spelled, shown.derived, shown.start rfl unary⟩
  | true =>
    have whole : Printer.parenthesized true text = "(" ++ (text ++ ")") := List.append_assoc ..
    have inner : IsExpr 0 ls e := IsExpr.weaken (i := 10) shown.derived (Nat.zero_le 10)
    rw [whole]
    exact ⟨_, shown.spelled.inParens.apart, .counted (.primary (.paren inner)), _, _, rfl, by decide⟩

mutual

theorem Expr.exists_shown : ∀ (e : Expr) (nested : Bool), e.WellFormed → ∃ text ls, e.Shown nested text ls
  | .missing, _, wellFormed => wellFormed.elim
  | .var pos name, nested, wellFormed => by
    obtain ⟨c, word, whole, letter, _⟩ := wellFormed.spelled
    exact ⟨name, _, rfl, spells_name wellFormed.spelled,
      isExpr_of_top (.counted (.primary (.var pos wellFormed.toIsName))) nested,
      fun _ _ => ⟨c, word, whole, not_mem_joining_of_isLetter letter⟩⟩
  | .literal l, nested, _ => by
    obtain ⟨lexeme, spelled, isLiteral, start⟩ := spells_constant l.value
    exact ⟨_, _, rfl, spelled, isExpr_of_top (.counted (.primary (.literal l.pos isLiteral))) nested, fun _ _ => start⟩
  | .call pos name args, nested, wellFormed => by
    obtain ⟨texts, ls, printed, spelled, derived⟩ := Expr.exists_args args 0 wellFormed.2
    obtain ⟨c, word, whole, letter, _⟩ := wellFormed.1.spelled
    refine ⟨name ++ "(" ++ List.intercalate ", " texts ++ ")", _, ?_, ?_,
      isExpr_of_top (.counted (.primary (.call pos wellFormed.1.toIsName derived))) nested, ?_⟩
    · rw [Printer.expr, printed]
      rfl
    · rw [List.append_assoc, List.append_assoc]
      exact (spells_name wellFormed.1.spelled).append (Breaks.append ⟨_, _, rfl, rfl⟩ _) spelled.inParens.apart
    · intro _ _
      rw [whole]
      exact ⟨c, _, rfl, not_mem_joining_of_isLetter letter⟩
  | .unary pos op operand, nested, wellFormed => by
    obtain ⟨known, onVar, inside⟩ := wellFormed
    obtain ⟨text, ls, shown⟩ := operand.exists_shown true inside
    obtain ⟨ls', spelled, derived, c, rest, start, apart⟩ := shown.operand
    obtain ⟨p, mark, sameText⟩ := exists_unary known
    refine ⟨op.text ++ Printer.parenthesized (Printer.isUnary operand) text, .punct p :: ls', ?_, ?_,
      isExpr_of_top (.unary pos mark derived onVar) nested, fun _ never => nomatch never⟩
    · rw [Printer.expr, shown.printed]
      rfl
    · rw [← sameText]
      intro after rs ended lexed
      rw [List.append_assoc]
      refine lexes_mark (.inr ?_) (spelled after rs ended lexed)
      rw [start]
      rintro d ⟨⟩
      exact apart
  | .binary pos op left right, nested, wellFormed => by
    obtain ⟨known, leftWell, rightWell⟩ := wellFormed
    obtain ⟨leftText, ls, leftShown⟩ := left.exists_shown true leftWell
    obtain ⟨rightText, rs, rightShown⟩ := right.exists_shown true rightWell
    obtain ⟨p, level, mark, sameText⟩ := exists_binary known
    have below := level_lt mark
    have derived : IsExpr level (ls ++ .punct p :: rs) (.binary pos op left right) :=
      .binary pos mark (leftShown.derived.weaken (by simp; omega)) (rightShown.derived.weaken (by simp; omega))
    have whole : leftText ++ " " ++ op.text ++ " " ++ rightText =
        leftText ++ ((Ascii.space :: (p.text ++ [Ascii.space])) ++ rightText) := by
      rw [sameText]
      simp only [List.append_assoc, List.cons_append]
      rfl
    have spelled : SpellsApart (leftText ++ " " ++ op.text ++ " " ++ rightText) (ls ++ .punct p :: rs) := by
      rw [whole]
      exact leftShown.spelled.append ⟨_, _, rfl, rfl⟩ ((spells_spaced p).append rightShown.spelled)
    have printed : Printer.expr nested (.binary pos op left right) =
        .ok (Printer.parenthesized nested (leftText ++ " " ++ op.text ++ " " ++ rightText)) := by
      rw [Printer.expr, leftShown.printed, rightShown.printed]
      rfl
    cases nested with
    | false => exact ⟨_, _, printed, spelled, derived.weaken (Nat.zero_le level), fun never => nomatch never⟩
    | true =>
      have inParens : Printer.parenthesized true (leftText ++ " " ++ op.text ++ " " ++ rightText) =
          "(" ++ ((leftText ++ " " ++ op.text ++ " " ++ rightText) ++ ")") := List.append_assoc ..
      rw [inParens] at printed
      exact ⟨_, _, printed, spelled.inParens.apart,
        .counted (.primary (.paren (derived.weaken (Nat.zero_le level)))), fun _ _ => ⟨_, _, rfl, by decide⟩⟩

theorem Expr.exists_args : ∀ (args : List Expr) (index : Nat), Expr.AllWellFormed args →
    ∃ texts ls, Printer.args index args = .ok texts ∧ SpellsApart (List.intercalate ", " texts) ls ∧ IsArgs ls args
  | [], _, _ => ⟨[], [], rfl, spells_nil.apart, .none⟩
  | [e], index, wellFormed => by
    obtain ⟨text, ls, shown⟩ := e.exists_shown false wellFormed.1
    refine ⟨[text], ls, ?_, ?_, .last shown.derived⟩
    · rw [Printer.args, shown.printed]
      rfl
    · rw [List.intercalate_singleton]
      exact shown.spelled
  | e :: e' :: es, index, wellFormed => by
    obtain ⟨text, ls, shown⟩ := e.exists_shown false wellFormed.1
    obtain ⟨texts, rs, printed, spelled, derived⟩ := Expr.exists_args (e' :: es) (index + 1) wellFormed.2
    obtain ⟨text', texts', rfl⟩ : ∃ text' texts', texts = text' :: texts' := by
      rw [Printer.args] at printed
      obtain ⟨text', _, printed⟩ := bind_eq_ok.1 printed
      obtain ⟨texts', _, printed⟩ := bind_eq_ok.1 printed
      cases printed
      exact ⟨text', texts', rfl⟩
    refine ⟨text :: text' :: texts', ls ++ .punct .comma :: rs, ?_, ?_, .more shown.derived derived⟩
    · rw [Printer.args, shown.printed, printed]
      rfl
    · rw [List.intercalate_cons_cons]
      exact shown.spelled.comma spelled

end

theorem spells_line (depth : Nat) (spelled : SpellsApart text ls) : SpellsAlways (Printer.line depth text) ls := by
  have tabs : SpellsAlways (Printer.tabs depth) [] := by
    apply spells_gaps
    intro c member
    rw [List.eq_of_mem_replicate member]
    rfl
  have ended : SpellsAlways (text ++ [Ascii.newline]) (ls ++ []) :=
    spelled.append ⟨_, _, rfl, rfl⟩ (spells_gaps [Ascii.newline] (by decide))
  rw [List.append_nil] at ended
  rw [Printer.line, List.append_assoc]
  exact tabs.append ended

theorem spells_semicolon (depth : Nat) (spelled : SpellsApart text ls) :
    SpellsAlways (Printer.line depth (text ++ ";")) (ls ++ [Lexeme.punct .semicolon]) :=
  spells_line depth (spelled.append ⟨_, _, rfl, rfl⟩ (spells_lone (p := .semicolon) (by decide)).apart)

theorem spells_closeBrace (depth : Nat) : SpellsAlways (Printer.line depth "\x7d") [.punct .closeBrace] :=
  spells_line depth (spells_lone (p := .closeBrace) (by decide)).apart

theorem SpellsApart.blank {text' : Bytes} {rs : List Lexeme} (spelled : SpellsApart text ls)
    (others : SpellsApart text' rs) : SpellsApart (text ++ (" " ++ text')) (ls ++ rs) := by
  have gap : SpellsApart (" " ++ text') ([] ++ rs) := (spells_gaps " " (by decide)).append others
  exact spelled.append (Breaks.append ⟨_, _, rfl, rfl⟩ _) gap

theorem spells_typed {ty : Ty} {name : Name} (known : ty ∈ Ty.all) (spelled : IsSpelled name) :
    SpellsApart (ty.text ++ " " ++ name) [.ident ty.text, .ident name] := by
  rw [List.append_assoc]
  exact (spells_name (isSpelled_text known)).blank (spells_name spelled)

theorem SpellsApart.assign {text text' : Bytes} {ls rs : List Lexeme} (spelled : SpellsApart text ls)
    (others : SpellsApart text' rs) : SpellsApart (text ++ " = " ++ text') (ls ++ .punct .assign :: rs) := by
  rw [List.append_assoc]
  exact spelled.append (Breaks.append ⟨_, _, rfl, rfl⟩ _) ((spells_spaced .assign).append others)

theorem spells_check {keyword check : Bytes} {cs : List Lexeme} (depth : Nat) (spelled : IsSpelled keyword)
    (checked : SpellsApart check cs) :
    SpellsAlways (Printer.line depth (keyword ++ " (" ++ check ++ ") \x7b"))
      (.ident keyword :: (inParens cs ++ [Lexeme.punct .openBrace])) := by
  have whole : keyword ++ " (" ++ check ++ ") \x7b" = keyword ++ (" " ++ (("(" ++ (check ++ ")")) ++ (" " ++ "\x7b"))) := by
    simp only [List.append_assoc]
    rfl
  rw [whole]
  have brace : SpellsApart "\x7b" [.punct .openBrace] := (spells_lone (p := .openBrace) (by decide)).apart
  exact spells_line depth ((spells_name spelled).blank (checked.inParens.apart.blank brace))

mutual

theorem Stmt.exists_shown : ∀ (s : Stmt) (depth : Nat), s.WellFormed →
    ∃ text closed ls, Printer.stmt depth s = .ok text ∧ SpellsAlways text ls ∧ IsStmt closed ls [s]
  | .missing, _, wellFormed => wellFormed.elim
  | .declare pos ty name init, depth, wellFormed => by
    obtain ⟨known, notVoid, isName, ⟨rfl, notString⟩ | inside⟩ := wellFormed
    · exact ⟨_, _, _, rfl, spells_semicolon depth (spells_typed known isName.spelled),
        .declare pos (type?_text known) isName.toIsName notVoid notString⟩
    · obtain ⟨text, ls, shown⟩ := init.exists_shown false inside
      refine ⟨Printer.line depth (ty.text ++ " " ++ name ++ " = " ++ text ++ ";"), _, _, ?_,
        spells_semicolon depth ((spells_typed known isName.spelled).assign shown.spelled),
        .declareWith pos (type?_text known) isName.toIsName notVoid shown.derived⟩
      rw [Printer.stmt, shown.printed]
      · rfl
      · rintro rfl
        exact inside
  | .assign pos target value, depth, wellFormed => by
    obtain ⟨text, ls, shown⟩ := value.exists_shown false wellFormed.2
    refine ⟨Printer.line depth (target ++ " = " ++ text ++ ";"), _, _, ?_,
      spells_semicolon depth ((spells_name wellFormed.1.spelled).assign shown.spelled),
      .assign pos wellFormed.1.toIsName shown.derived⟩
    rw [Printer.stmt, shown.printed]
    rfl
  | .exprStmt pos value, depth, wellFormed => by
    obtain ⟨text, ls, shown⟩ := value.exists_shown false wellFormed
    refine ⟨Printer.line depth (text ++ ";"), _, _, ?_, spells_semicolon depth shown.spelled, .expr pos shown.derived⟩
    rw [Printer.stmt, shown.printed]
    rfl
  | .returnStmt pos value, depth, wellFormed => by
    have keyword : SpellsApart "return" [.ident "return"] := spells_name ⟨_, _, rfl, rfl, by decide⟩
    obtain rfl | inside := wellFormed
    · exact ⟨_, _, _, rfl, spells_semicolon depth keyword, .leave pos⟩
    · obtain ⟨text, ls, shown⟩ := value.exists_shown false inside
      refine ⟨Printer.line depth ("return " ++ text ++ ";"), _, _, ?_,
        spells_semicolon depth (keyword.blank shown.spelled), .leaveWith pos shown.derived⟩
      rw [Printer.stmt, shown.printed]
      · rfl
      · rintro rfl
        exact inside
  | .breakStmt pos, depth, _ =>
    ⟨_, _, _, rfl, spells_semicolon depth (@spells_name "break" ⟨_, _, rfl, rfl, by decide⟩), .breakLoop pos⟩
  | .continueStmt pos, depth, _ =>
    ⟨_, _, _, rfl, spells_semicolon depth (@spells_name "continue" ⟨_, _, rfl, rfl, by decide⟩),
      .continueLoop pos⟩
  | .whileStmt pos check body, depth, wellFormed => by
    obtain ⟨text, cs, shown⟩ := check.exists_shown false wellFormed.1
    obtain ⟨inner, ls, printed, spelled, derived⟩ := Stmt.exists_all body (depth + 1) wellFormed.2
    have keyword : IsSpelled "while" := ⟨_, _, rfl, rfl, by decide⟩
    have head : SpellsAlways _ _ := (spells_check depth keyword shown.spelled).append spelled
    refine ⟨_, true, _, ?_, head.append (spells_closeBrace depth), ?_⟩
    · rw [Printer.stmt, shown.printed, printed]
      rfl
    · have block := IsStmt.loop pos shown.derived (.block derived)
      simpa using block
  | .ifStmt pos check thenBody elseBody, depth, wellFormed => by
    obtain ⟨text, cs, shown⟩ := check.exists_shown false wellFormed.1
    obtain ⟨inner, ls, printed, spelled, derived⟩ := Stmt.exists_all thenBody (depth + 1) wellFormed.2.1
    obtain ⟨other, rs, printed', spelled', derived'⟩ := Stmt.exists_all elseBody (depth + 1) wellFormed.2.2
    have keyword : IsSpelled "if" := ⟨_, _, rfl, rfl, by decide⟩
    have head : SpellsAlways _ _ := (spells_check depth keyword shown.spelled).append spelled
    cases elseBody with
    | nil =>
      refine ⟨_, false, _, ?_, head.append (spells_closeBrace depth), ?_⟩
      · rw [Printer.stmt, shown.printed, printed, printed']
        change Except.ok (_ ++ _ ++ [] ++ _) = _
        rw [List.append_nil]
        rfl
      · have block := IsStmt.ifThen pos shown.derived (.block derived)
        simpa using block
    | cons s ss =>
      have between : SpellsAlways (Printer.line depth "\x7d else \x7b")
          [.punct .closeBrace, .ident "else", .punct .openBrace] := by
        have word : SpellsApart "else" [.ident "else"] := spells_name ⟨_, _, rfl, rfl, by decide⟩
        have close : SpellsApart "\x7d" [.punct .closeBrace] := (spells_lone (p := .closeBrace) (by decide)).apart
        have brace : SpellsApart "\x7b" [.punct .openBrace] := (spells_lone (p := .openBrace) (by decide)).apart
        exact spells_line depth (close.blank (word.blank brace))
      have bodies : SpellsAlways _ _ := head.append (between.append spelled')
      refine ⟨_, true, _, ?_, bodies.append (spells_closeBrace depth), ?_⟩
      · rw [Printer.stmt, shown.printed, printed, printed']
        rfl
      · have block := IsStmt.ifElse pos shown.derived (.block derived) (.block derived')
        simpa using block

theorem Stmt.exists_all : ∀ (ss : List Stmt) (depth : Nat), Stmt.AllWellFormed ss →
    ∃ text ls, Printer.stmts depth ss = .ok text ∧ SpellsAlways text ls ∧ IsStmts ls ss
  | [], _, _ => ⟨[], [], rfl, spells_nil, .nil⟩
  | s :: ss, depth, wellFormed => by
    obtain ⟨text, closed, ls, printed, spelled, derived⟩ := s.exists_shown depth wellFormed.1
    obtain ⟨texts, rs, others, spelled', derived'⟩ := Stmt.exists_all ss depth wellFormed.2
    refine ⟨text ++ texts, ls ++ rs, ?_, spelled.append spelled', .cons derived derived'⟩
    rw [Printer.stmts, printed, others]
    rfl

end

theorem exists_params {ps : List Param} (each : ∀ p ∈ ps, p.ty ∈ Ty.all ∧ IsUserName p.name) :
    ∃ ls, SpellsApart (List.intercalate ", " (ps.map Printer.param)) ls ∧ IsParams ls ps := by
  induction ps with
  | nil => exact ⟨[], spells_nil.apart, .none⟩
  | cons p ps ih =>
    obtain ⟨known, isName⟩ := each p List.mem_cons_self
    obtain ⟨ls, spelled, derived⟩ := ih fun q member => each q (List.mem_cons_of_mem p member)
    have here := spells_typed known isName.spelled
    cases ps with
    | nil =>
      refine ⟨_, ?_, .last (type?_text known) isName.toIsName⟩
      rw [List.map_singleton, List.intercalate_singleton]
      exact here
    | cons q ps =>
      refine ⟨_, ?_, .more (type?_text known) isName.toIsName derived⟩
      rw [List.map_cons, List.map_cons, List.intercalate_cons_cons]
      exact here.comma spelled

theorem Function.exists_shown {f : Function} (wellFormed : f.WellFormed) :
    ∃ text ls, Printer.function f = .ok text ∧ SpellsAlways text ls ∧ IsDecl ls (.function f) := by
  obtain ⟨pos, name, result, params, external, body⟩ := f
  obtain ⟨isName, known, each, noBody, inside⟩ := wellFormed
  obtain ⟨ls, spelled, derived⟩ := exists_params each
  have head : SpellsApart (result.text ++ " " ++ name ++ "(" ++ List.intercalate ", " (params.map Printer.param) ++ ")")
      (.ident result.text :: .ident name :: inParens ls) := by
    rw [List.append_assoc, List.append_assoc]
    exact (spells_typed known isName.spelled).append (Breaks.append ⟨_, _, rfl, rfl⟩ _) spelled.inParens.apart
  cases external with
  | true =>
    obtain rfl := noBody rfl
    exact ⟨_, _, rfl, spells_semicolon 0 head, .external pos (type?_text known) isName.toIsName derived⟩
  | false =>
    obtain ⟨text, rs, printed, spelled', derived'⟩ := Stmt.exists_all body 1 inside
    have brace : SpellsApart "\x7b" [.punct .openBrace] := (spells_lone (p := .openBrace) (by decide)).apart
    have start : SpellsAlways _ _ := (spells_line 0 (head.blank brace)).append spelled'
    refine ⟨_, _, ?_, start.append (spells_closeBrace 0), ?_⟩
    · rw [Printer.function, printed]
      rfl
    · have decl := IsDecl.function pos (type?_text known) isName.toIsName derived derived'
      simpa using decl

theorem Global.exists_shown {g : Global} (wellFormed : g.WellFormed) :
    ∃ ls, SpellsAlways (Printer.global g) ls ∧ IsDecl ls (.global g) := by
  obtain ⟨pos, name, ty, init⟩ := g
  obtain ⟨isName, known, notVoid, notString⟩ := wellFormed
  have typed := spells_typed known isName.spelled
  cases init with
  | none =>
    exact ⟨_, spells_semicolon 0 typed, .global pos (type?_text known) isName.toIsName notVoid (notString rfl)⟩
  | some l =>
    obtain ⟨lexeme, spelled, isLiteral, _⟩ := spells_constant l.value
    exact ⟨_, spells_semicolon 0 (typed.assign spelled),
      .globalWith pos l.pos (type?_text known) isName.toIsName notVoid isLiteral⟩

theorem exists_globals {gs : List Global} (each : ∀ g ∈ gs, g.WellFormed) :
    ∃ ls, SpellsAlways (gs.flatMap Printer.global) ls ∧ IsDecls ls (gs.map .global) := by
  induction gs with
  | nil => exact ⟨[], spells_nil, .nil⟩
  | cons g gs ih =>
    obtain ⟨ls, spelled, derived⟩ := Global.exists_shown (each g List.mem_cons_self)
    obtain ⟨rs, others, derived'⟩ := ih fun h member => each h (List.mem_cons_of_mem g member)
    exact ⟨ls ++ rs, spelled.append others, .cons derived derived'⟩

theorem exists_functions {fs : List Function} (each : ∀ f ∈ fs, f.WellFormed) (first : Bool) :
    ∃ text ls, Printer.functions first fs = .ok text ∧ SpellsAlways text ls ∧ IsDecls ls (fs.map .function) := by
  induction fs generalizing first with
  | nil => exact ⟨[], [], rfl, spells_nil, .nil⟩
  | cons f fs ih =>
    obtain ⟨text, ls, printed, spelled, derived⟩ := Function.exists_shown (each f List.mem_cons_self)
    obtain ⟨texts, rs, others, spelled', derived'⟩ := ih (fun h member => each h (List.mem_cons_of_mem f member)) false
    have gap : SpellsAlways (if first then [] else [Ascii.newline]) [] := by
      apply spells_gaps
      cases first <;> decide
    have start : SpellsAlways _ _ := gap.append spelled
    refine ⟨_, ls ++ rs, ?_, start.append spelled', .cons derived derived'⟩
    rw [Printer.functions, printed, others]
    rfl

theorem IsDecls.append {rs : List Lexeme} {ds es : List Decl} (left : IsDecls ls ds) (right : IsDecls rs es) :
    IsDecls (ls ++ rs) (ds ++ es) := by
  induction left with
  | nil => exact right
  | cons first _ ih =>
    rw [List.append_assoc]
    exact .cons first ih

def Program.decls (p : Program) : List Decl :=
  p.globals.map .global ++ p.functions.map .function

theorem program_decls (p : Program) : program p.decls = p := by
  obtain ⟨globals, functions⟩ := p
  simp only [program, Program.decls, List.filterMap_append, List.filterMap_map]
  simp

theorem Program.exists_format {p : Program} (wellFormed : p.WellFormed) :
    ∃ text ls, p.format = .ok text ∧ Lexes text ls ∧ IsDecls ls p.decls := by
  obtain ⟨ls, spelled, derived⟩ := exists_globals wellFormed.globals
  obtain ⟨text, rs, printed, spelled', derived'⟩ := exists_functions wellFormed.functions p.globals.isEmpty
  have lexed := (spelled.append spelled') [] [] trivial lexes_nil
  rw [List.append_nil, List.append_nil] at lexed
  refine ⟨p.globals.flatMap Printer.global ++ text, ls ++ rs, ?_, lexed, derived.append derived'⟩
  rw [Program.format, printed]
  rfl

end MiniC.Source
