import MiniC.Proofs.Source.Acceptance
import MiniC.Proofs.Source.Printing

namespace MiniC.Source

open MiniC.Source.Parser (Decl program)
open MiniC.Source.Climbing

theorem exists_parse {text : Bytes} {ls : List Lexeme} {ds : List Decl} (lexed : Lexes text ls) (derived : IsDecls ls ds) :
    ∃ p, parse text = .ok p ∧ p.bare = (program ds).bare := by
  obtain ⟨tokens, scanned, rfl⟩ := lexed text.length
  exact exists_parse_of_scan scanned derived

theorem exists_parse_format {x : Program} (wellFormed : x.WellFormed) :
    ∃ formatted, x.format = .ok formatted ∧ ∃ y, parse formatted = .ok y ∧ y.bare = x.bare := by
  obtain ⟨formatted, ls, printed, lexed, derived⟩ := Program.exists_format wellFormed
  obtain ⟨y, again, same⟩ := exists_parse lexed derived
  rw [program_decls] at same
  exact ⟨formatted, printed, y, again, same⟩

theorem parse_format_parse {text : Bytes} {x : Program} (parsed : parse text = .ok x) :
    ∃ formatted, x.format = .ok formatted ∧ ∃ y, parse formatted = .ok y ∧ y.bare = x.bare :=
  exists_parse_format (wellFormed_of_parse parsed)

def nestedIf : Function where
  pos := .nowhere
  name := "f"
  result := .void
  params := [⟨.int, "a"⟩]
  external := false
  body :=
    [.ifStmt .nowhere (.var .nowhere "a")
      [.ifStmt .nowhere
        (.binary .nowhere .sub (.var .nowhere "a") (.unary .nowhere .negate (.literal ⟨.nowhere, .int 1⟩)))
        [.returnStmt .nowhere .missing] [.returnStmt .nowhere .missing]] []]

def nestedIfText : Bytes :=
  "void f(int a)\x7bif(a)if(a- -1)return;else return;\x7d"

def nestedIfLexemes : List Lexeme :=
  [.ident "void", .ident "f", .punct .openParen, .ident "int", .ident "a", .punct .closeParen, .punct .openBrace,
    .ident "if", .punct .openParen, .ident "a", .punct .closeParen,
    .ident "if", .punct .openParen, .ident "a", .punct .minus, .punct .minus, .int "1", .punct .closeParen,
    .ident "return", .punct .semicolon, .ident "else", .ident "return", .punct .semicolon, .punct .closeBrace]

theorem isDecl_nestedIf : IsDecl nestedIfLexemes (.function nestedIf) := by
  have isName : IsName "f" ∧ IsName "a" := ⟨⟨by decide, by decide, by decide⟩, ⟨by decide, by decide, by decide⟩⟩
  have a : ∀ i ≤ 10, IsExpr i [.ident "a"] (.var .nowhere "a") :=
    fun i le => IsExpr.weaken (.counted (.primary (.var .nowhere isName.2))) le
  have one : IsExpr 10 [.int "1"] (.literal ⟨.nowhere, .int 1⟩) :=
    .counted (.primary (.literal .nowhere (.int (n := 1) rfl)))
  have negated : IsExpr 9 [.punct .minus, .int "1"] (.unary .nowhere .negate (.literal ⟨.nowhere, .int 1⟩)) :=
    IsExpr.weaken (.unary .nowhere (p := .minus) rfl one (fun never => nomatch never)) (by decide)
  have check : IsExpr 0 [.ident "a", .punct .minus, .punct .minus, .int "1"]
      (.binary .nowhere .sub (.var .nowhere "a") (.unary .nowhere .negate (.literal ⟨.nowhere, .int 1⟩))) :=
    IsExpr.weaken (.binary .nowhere (p := .minus) rfl (a 8 (by decide)) negated) (by decide)
  have inner := IsStmt.ifElse .nowhere check (.leave .nowhere) (.leave .nowhere)
  have body := IsStmts.cons (.ifThen .nowhere (a 0 (by decide)) inner) .nil
  have params : IsParams [.ident "int", .ident "a"] [⟨.int, "a"⟩] := .last rfl isName.2
  exact .function .nowhere rfl isName.1 params body

theorem parse_format_parse_nestedIf :
    ∃ x, parse nestedIfText = .ok x ∧ x.bare = ⟨[], [nestedIf]⟩ ∧
      ∃ formatted, x.format = .ok formatted ∧ ∃ y, parse formatted = .ok y ∧ y.bare = x.bare := by
  have lexed : lexemesWithin 25 nestedIfText = some (nestedIfLexemes ++ []) := by
    decide +kernel
  obtain ⟨x, parsed, same⟩ := exists_parse (lexes_of_lexemesWithin lexed) (.cons isDecl_nestedIf .nil)
  exact ⟨x, parsed, same, parse_format_parse parsed⟩

end MiniC.Source
