import MiniC.Proofs.Source.Phrases
import MiniC.Proofs.Source.WellFormed

namespace MiniC.Source

open MiniC.Source.Parser (Decl program)
open MiniC.Source.Climbing

variable {ls : List Lexeme}

/-- Declarations one after the other, and the program that they make up. -/
inductive IsProgram : List Lexeme → Program → Prop
  | empty : IsProgram [] ⟨[], []⟩
  | global {ls rs : List Lexeme} {g : Global} {x : Program} (first : IsDecl ls (.global g)) (others : IsProgram rs x) :
    IsProgram (ls ++ rs) ⟨g :: x.globals, x.functions⟩
  | function {ls rs : List Lexeme} {f : Function} {x : Program} (first : IsDecl ls (.function f))
    (others : IsProgram rs x) : IsProgram (ls ++ rs) ⟨x.globals, f :: x.functions⟩

theorem IsDecls.isProgram {ds : List Decl} (derived : IsDecls ls ds) : IsProgram ls (program ds) := by
  induction derived with
  | nil => exact .empty
  | @cons _ _ d _ first _ ih =>
    cases d with
    | global g => exact .global first ih
    | function f => exact .function first ih

theorem IsProgram.exists_isDecls {x : Program} (derived : IsProgram ls x) : ∃ ds, IsDecls ls ds ∧ program ds = x := by
  induction derived with
  | empty => exact ⟨[], .nil, rfl⟩
  | @global _ _ g _ first _ ih =>
    obtain ⟨ds, others, rfl⟩ := ih
    exact ⟨.global g :: ds, .cons first others, rfl⟩
  | @function _ _ f _ first _ ih =>
    obtain ⟨ds, others, rfl⟩ := ih
    exact ⟨.function f :: ds, .cons first others, rfl⟩

theorem Expr.eq_missing_of_bare {e : Expr} (same : e.bare = .missing) : e = .missing := by
  cases e with
  | missing => rfl
  | _ => cases same

theorem Stmt.bareAll_eq_map (ss : List Stmt) : bareAll ss = ss.map bare := by
  induction ss with
  | nil => rfl
  | cons s ss ih => rw [bareAll, ih, List.map_cons]

theorem Stmt.bareAll_eq_nil {ss : List Stmt} (same : bareAll ss = []) : ss = [] := by
  rwa [bareAll_eq_map, List.map_eq_nil_iff] at same

theorem Stmt.bareAll_eq_singleton {ss : List Stmt} {b : Stmt} (same : bareAll ss = [b]) : ∃ s, ss = [s] ∧ s.bare = b := by
  rwa [bareAll_eq_map, List.map_eq_singleton_iff] at same

theorem Stmt.bareAll_eq_append {ss : List Stmt} {bs cs : List Stmt} (same : bareAll ss = bareAll bs ++ bareAll cs) :
    ∃ us vs, ss = us ++ vs ∧ bareAll us = bareAll bs ∧ bareAll vs = bareAll cs := by
  simp only [bareAll_eq_map] at same ⊢
  exact List.map_eq_append_iff.1 same

mutual

theorem IsStmt.of_bare : ∀ {closed ls ss}, IsStmt closed ls ss → ∀ {ss' : List Stmt},
    Stmt.bareAll ss' = Stmt.bareAll ss → IsStmt closed ls ss'
  | _, _, _, .block body, _, same => .block (body.of_bare same)
  | _, _, _, .empty, _, same => by
    rw [Stmt.bareAll_eq_nil same]
    exact .empty
  | _, _, _, .declare _ isType isName notVoid notString, _, same => by
    obtain ⟨s, rfl, bare⟩ := Stmt.bareAll_eq_singleton same
    cases s with
    | declare pos ty name init =>
      simp only [Stmt.bare, Stmt.declare.injEq, true_and] at bare
      obtain ⟨rfl, rfl, none⟩ := bare
      rw [Expr.eq_missing_of_bare none]
      exact .declare pos isType isName notVoid notString
    | _ => cases bare
  | _, _, _, .declareWith _ isType isName notVoid init, _, same => by
    obtain ⟨s, rfl, bare⟩ := Stmt.bareAll_eq_singleton same
    cases s with
    | declare pos ty name init' =>
      simp only [Stmt.bare, Stmt.declare.injEq, true_and] at bare
      obtain ⟨rfl, rfl, sameInit⟩ := bare
      exact .declareWith pos isType isName notVoid (init.of_bare sameInit)
    | _ => cases bare
  | _, _, _, .assign _ isName value, _, same => by
    obtain ⟨s, rfl, bare⟩ := Stmt.bareAll_eq_singleton same
    cases s with
    | assign pos target value' =>
      simp only [Stmt.bare, Stmt.assign.injEq, true_and] at bare
      obtain ⟨rfl, sameValue⟩ := bare
      exact .assign pos isName (value.of_bare sameValue)
    | _ => cases bare
  | _, _, _, .ifThen _ check thenBody, _, same => by
    obtain ⟨s, rfl, bare⟩ := Stmt.bareAll_eq_singleton same
    cases s with
    | ifStmt pos c ss ts =>
      simp only [Stmt.bare, Stmt.ifStmt.injEq, true_and] at bare
      obtain ⟨sameCheck, sameThen, none⟩ := bare
      rw [Stmt.bareAll_eq_nil none]
      exact .ifThen pos (check.of_bare sameCheck) (thenBody.of_bare sameThen)
    | _ => cases bare
  | _, _, _, .ifElse _ check thenBody elseBody, _, same => by
    obtain ⟨s, rfl, bare⟩ := Stmt.bareAll_eq_singleton same
    cases s with
    | ifStmt pos c ss ts =>
      simp only [Stmt.bare, Stmt.ifStmt.injEq, true_and] at bare
      obtain ⟨sameCheck, sameThen, sameElse⟩ := bare
      exact .ifElse pos (check.of_bare sameCheck) (thenBody.of_bare sameThen) (elseBody.of_bare sameElse)
    | _ => cases bare
  | _, _, _, .loop _ check body, _, same => by
    obtain ⟨s, rfl, bare⟩ := Stmt.bareAll_eq_singleton same
    cases s with
    | whileStmt pos c ss =>
      simp only [Stmt.bare, Stmt.whileStmt.injEq, true_and] at bare
      obtain ⟨sameCheck, sameBody⟩ := bare
      exact .loop pos (check.of_bare sameCheck) (body.of_bare sameBody)
    | _ => cases bare
  | _, _, _, .breakLoop _, _, same => by
    obtain ⟨s, rfl, bare⟩ := Stmt.bareAll_eq_singleton same
    cases s with
    | breakStmt pos => exact .breakLoop pos
    | _ => cases bare
  | _, _, _, .continueLoop _, _, same => by
    obtain ⟨s, rfl, bare⟩ := Stmt.bareAll_eq_singleton same
    cases s with
    | continueStmt pos => exact .continueLoop pos
    | _ => cases bare
  | _, _, _, .leave _, _, same => by
    obtain ⟨s, rfl, bare⟩ := Stmt.bareAll_eq_singleton same
    cases s with
    | returnStmt pos value =>
      simp only [Stmt.bare, Stmt.returnStmt.injEq, true_and] at bare
      rw [Expr.eq_missing_of_bare bare]
      exact .leave pos
    | _ => cases bare
  | _, _, _, .leaveWith _ value, _, same => by
    obtain ⟨s, rfl, bare⟩ := Stmt.bareAll_eq_singleton same
    cases s with
    | returnStmt pos value' =>
      simp only [Stmt.bare, Stmt.returnStmt.injEq, true_and] at bare
      exact .leaveWith pos (value.of_bare bare)
    | _ => cases bare
  | _, _, _, .expr _ value, _, same => by
    obtain ⟨s, rfl, bare⟩ := Stmt.bareAll_eq_singleton same
    cases s with
    | exprStmt pos value' =>
      simp only [Stmt.bare, Stmt.exprStmt.injEq, true_and] at bare
      exact .expr pos (value.of_bare bare)
    | _ => cases bare

theorem IsStmts.of_bare : ∀ {ls ss}, IsStmts ls ss → ∀ {ss' : List Stmt},
    Stmt.bareAll ss' = Stmt.bareAll ss → IsStmts ls ss'
  | _, _, .nil, _, same => by
    rw [Stmt.bareAll_eq_nil same]
    exact .nil
  | _, _, .cons first others, _, same => by
    rw [Stmt.bareAll_append] at same
    obtain ⟨us, vs, rfl, sameFirst, sameOthers⟩ := Stmt.bareAll_eq_append same
    exact .cons (first.of_bare sameFirst) (others.of_bare sameOthers)

end

theorem IsDecl.of_bare_global {g g' : Global} (derived : IsDecl ls (.global g)) (same : g'.bare = g.bare) :
    IsDecl ls (.global g') := by
  obtain ⟨pos, name, ty, init⟩ := g'
  simp only [Global.bare, Global.mk.injEq, true_and] at same
  obtain ⟨rfl, rfl, sameInit⟩ := same
  cases derived with
  | global _ isType isName notVoid notString =>
    obtain rfl := Option.map_eq_none_iff.1 sameInit
    exact .global pos isType isName notVoid notString
  | globalWith _ place isType isName notVoid isLiteral =>
    obtain ⟨⟨place', value⟩, rfl, sameValue⟩ := Option.map_eq_some_iff.1 sameInit
    cases sameValue
    exact .globalWith pos place' isType isName notVoid isLiteral

theorem IsDecl.of_bare_function {f f' : Function} (derived : IsDecl ls (.function f))
    (same : f'.bare = f.bare) : IsDecl ls (.function f') := by
  obtain ⟨pos, name, result, params, external, body⟩ := f'
  simp only [Function.bare, Function.mk.injEq, true_and] at same
  obtain ⟨rfl, rfl, rfl, rfl, sameBody⟩ := same
  cases derived with
  | external _ isType isName params =>
    obtain rfl := Stmt.bareAll_eq_nil sameBody
    exact .external pos isType isName params
  | function _ isType isName params body => exact .function pos isType isName params (body.of_bare sameBody)

theorem IsProgram.of_bare {x : Program} (derived : IsProgram ls x) :
    ∀ {y : Program}, y.bare = x.bare → IsProgram ls y := by
  induction derived with
  | empty =>
    rintro ⟨globals, functions⟩ same
    obtain ⟨noGlobals, noFunctions⟩ := Program.mk.inj same
    obtain rfl := List.map_eq_nil_iff.1 noGlobals
    obtain rfl := List.map_eq_nil_iff.1 noFunctions
    exact .empty
  | global first _ ih =>
    rintro ⟨globals, functions⟩ same
    obtain ⟨sameGlobals, sameFunctions⟩ := Program.mk.inj same
    obtain ⟨g', rest, rfl, sameFirst, sameRest⟩ := List.map_eq_cons_iff.1 sameGlobals
    have others := ih (y := ⟨rest, functions⟩) (Program.mk.injEq .. ▸ ⟨sameRest, sameFunctions⟩)
    exact .global (first.of_bare_global sameFirst) others
  | function first _ ih =>
    rintro ⟨globals, functions⟩ same
    obtain ⟨sameGlobals, sameFunctions⟩ := Program.mk.inj same
    obtain ⟨f', rest, rfl, sameFirst, sameRest⟩ := List.map_eq_cons_iff.1 sameFunctions
    have others := ih (y := ⟨globals, rest⟩) (Program.mk.injEq .. ▸ ⟨sameGlobals, sameRest⟩)
    exact .function (first.of_bare_function sameFirst) others

theorem exists_parse_of_scan {text : Bytes} {tokens : List Token} {ds : List Decl} (scanned : Token.scan text = .ok tokens)
    (derived : IsDecls (tokens.map Token.lexeme) ds) : ∃ y, parse text = .ok y ∧ y.bare = (program ds).bare := by
  obtain ⟨ds', same, read⟩ := @IsDecls.decls (.ofOffset text text.length) _ ds derived _ (plain_placed text tokens)
  refine ⟨program ds', parse_eq_ok.2 ⟨tokens, ds', scanned, read, rfl⟩, ?_⟩
  rw [program_bare, program_bare, same]

/-- A text is parsed into a program, up to positions, exactly if it can be cut into lexemes and the program derives
them. -/
theorem parse_iff (text : Bytes) (x : Program) :
    (∃ y, parse text = .ok y ∧ y.bare = x.bare) ↔
      ∃ tokens, Token.scan text = .ok tokens ∧ IsProgram (tokens.map Token.lexeme) x := by
  constructor
  · rintro ⟨y, parsed, same⟩
    obtain ⟨tokens, ds, scanned, read, rfl⟩ := parse_eq_ok.1 parsed
    have derived := (isDecls_of_decls read).isProgram
    rw [plain_placed] at derived
    exact ⟨tokens, scanned, derived.of_bare same.symm⟩
  · rintro ⟨tokens, scanned, derived⟩
    obtain ⟨ds, isDecls, rfl⟩ := derived.exists_isDecls
    exact exists_parse_of_scan scanned isDecls

end MiniC.Source
