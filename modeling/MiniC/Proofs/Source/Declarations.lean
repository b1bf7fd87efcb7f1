import MiniC.Proofs.Source.Statements

namespace MiniC.Source.Climbing

open MiniC.Source.Parser (Decl type?)

variable {ps : List Param}

variable {eof pos : Position} {ts rest : List Placed}

theorem yields_params_close {first : Bool} :
    Yields (params eof first (⟨.punct .closeParen, pos⟩ :: ts)) ps rest ↔ ps = [] ∧ rest = ts := by
  rw [params]
  simp only [accept?_head]
  exact yields_ok

def IsParam (eof : Position) (ts : List Placed) (ps : List Param) (rest : List Placed) : Prop :=
  ∃ spelled first name second mid ty others, ts = ⟨.ident spelled, first⟩ :: ⟨.ident name, second⟩ :: mid ∧
    type? spelled = some ty ∧ IsName name ∧ Yields (params eof false mid) others rest ∧ ps = ⟨ty, name⟩ :: others

theorem yields_param {Q : List Placed → Prop} (bounded : ∀ {a b c : List Placed},
    a.length < ts.length → b.length < a.length → c.length < b.length → Q c) :
    Yields (do
      let (ty, ⟨mid, first⟩) ← type eof ts
      let (name, ⟨mid, second⟩) ← ident eof mid
      let (others, ⟨mid, third⟩) ← params eof false mid
      .ok (⟨ty, name⟩ :: others,
        (⟨mid, bounded first second third⟩ : { rest : List Placed // Q rest }))) ps rest ↔
      IsParam eof ts ps rest := by
  simp only [yields_bind, yields_type, yields_ident, yields_ok]
  constructor
  · rintro ⟨ty, _, ⟨spelled, first, rfl, isType⟩, name, mid, ⟨second, rfl, isName⟩, others, _, read, rfl, rfl⟩
    exact ⟨spelled, first, name, second, mid, ty, others, rfl, isType, isName, read, rfl⟩
  · rintro ⟨spelled, first, name, second, mid, ty, others, rfl, isType, isName, read, rfl⟩
    exact ⟨ty, _, ⟨spelled, first, rfl, isType⟩, name, mid, ⟨second, rfl, isName⟩, others, rest, read, rfl, rfl⟩

theorem yields_params_first (notClosed : NotClosed ts) :
    Yields (params eof true ts) ps rest ↔ IsParam eof ts ps rest := by
  rw [params]
  simp only [accept?_eq_none.2 notClosed, if_true]
  exact yields_param fun first second third => Nat.lt_trans third (Nat.lt_trans second first)

theorem yields_params_next (notClosed : NotClosed ts) : Yields (params eof false ts) ps rest ↔
      ∃ comma inside, ts = ⟨.punct .comma, comma⟩ :: inside ∧ IsParam eof inside ps rest := by
  rw [params]
  simp only [accept?_eq_none.2 notClosed, Bool.false_eq_true, if_false]
  rw [yields_step]
  constructor
  · rintro ⟨_, separated, read⟩
    cases expected : expect eof .comma ts with
    | error e =>
      rw [expected] at separated
      cases separated
    | ok found =>
      rw [expected] at separated
      cases separated
      obtain ⟨comma, same⟩ := expect_eq_ok.1 expected
      have isParam := (yields_param fun first second third =>
        Nat.lt_trans third (Nat.lt_trans second (Nat.lt_trans first found.2))).1 read
      exact ⟨comma, found.1, same, isParam⟩
  · rintro ⟨comma, inside, rfl, isParam⟩
    refine ⟨⟨inside, Nat.le_succ _⟩, by simp only [expect_head, Except.map], ?_⟩
    exact (yields_param fun first second third =>
      Nat.lt_succ_of_lt (Nat.lt_trans third (Nat.lt_trans second first))).2 isParam

theorem yields_globalRest {ty : Ty} {name : Name} {d : Decl} :
    Yields (globalRest eof pos ty name ts) d rest ↔
      ty ≠ .void ∧
        ((∃ mark lexeme place value last, ts = ⟨.punct .assign, mark⟩ :: ⟨lexeme, place⟩ ::
            ⟨.punct .semicolon, last⟩ :: rest ∧ IsLiteral lexeme value ∧
            d = .global ⟨pos, name, ty, some ⟨place, value⟩⟩) ∨
          (ty ≠ .string ∧ ∃ last, ts = ⟨.punct .semicolon, last⟩ :: rest ∧ d = .global ⟨pos, name, ty, none⟩)) := by
  unfold globalRest
  by_cases isVoid : ty = .void
  · simp [isVoid, not_yields_error]
  rcases starts_or (.punct .assign) ts with ⟨mark, after, rfl⟩ | given
  · simp only [isVoid, if_false, accept?_head, yields_bind, yields_literal, yields_expect, yields_ok]
    constructor
    · rintro ⟨l, _, ⟨lexeme, rfl, isLiteral⟩, last, _, rfl, rfl, rfl⟩
      exact ⟨isVoid, .inl ⟨mark, lexeme, l.pos, l.value, last, rfl, isLiteral, rfl⟩⟩
    · rintro ⟨_, ⟨_, lexeme, place, value, last, same, isLiteral, rfl⟩ | ⟨_, _, same, _⟩⟩
      · cases same
        exact ⟨⟨place, value⟩, _, ⟨lexeme, rfl, isLiteral⟩, last, rest, rfl, rfl, rfl⟩
      · cases same
  · by_cases isString : ty = .string
    · simp [isString, accept?_eq_none.2 given, given, not_yields_error]
    · simp [isVoid, isString, accept?_eq_none.2 given, given, yields_expect, yields_ok, and_comm]

theorem yields_block {ss : List Stmt} :
    Yields (block eof ts) ss rest ↔ ∃ first inside, ts = ⟨.punct .openBrace, first⟩ :: inside ∧
      Yields (stmts eof inside) ss rest := by
  simp [block, yields_expect, yields_bind, yields_ok]

theorem yields_functionRest {ty : Ty} {name : Name} {d : Decl} :
    Yields (functionRest eof pos ty name ts) d rest ↔
      ∃ ps mid, Yields (params eof true ts) ps mid ∧
        ((∃ last, mid = ⟨.punct .semicolon, last⟩ :: rest ∧ d = .function ⟨pos, name, ty, ps, true, []⟩) ∨
          ∃ first inside body, mid = ⟨.punct .openBrace, first⟩ :: inside ∧ Yields (stmts eof inside) body rest ∧
            d = .function ⟨pos, name, ty, ps, false, body⟩) := by
  rw [functionRest, yields_bind]
  constructor
  · rintro ⟨ps, mid, read, last⟩
    refine ⟨ps, mid, read, ?_⟩
    dsimp only at last
    split at last
    · rename_i closed
      obtain ⟨place, rfl⟩ := accept?_eq_some.1 closed
      obtain ⟨rfl, rfl⟩ := yields_ok.1 last
      exact .inl ⟨place, rfl, rfl⟩
    · simp only [yields_bind, yields_block, yields_ok] at last
      obtain ⟨body, _, ⟨first, inside, rfl, reads⟩, rfl, rfl⟩ := last
      exact .inr ⟨first, inside, body, rfl, reads, rfl⟩
  · rintro ⟨ps, mid, read, ⟨last, rfl, rfl⟩ | ⟨first, inside, body, rfl, reads, rfl⟩⟩
    · refine ⟨ps, _, read, ?_⟩
      simp only [accept?_head]
      exact yields_ok.2 ⟨rfl, rfl⟩
    · have notClosed : accept? (.punct .semicolon) (⟨.punct .openBrace, first⟩ :: inside) = none :=
        accept?_eq_none.2 (by simp)
      refine ⟨ps, _, read, ?_⟩
      simp only [notClosed, yields_bind, yields_block, yields_ok]
      exact ⟨body, rest, ⟨first, inside, rfl, reads⟩, rfl, rfl⟩

theorem yields_decl {d : Decl} :
    Yields (decl eof ts) d rest ↔
      ∃ spelled first name second mid ty, ts = ⟨.ident spelled, first⟩ :: ⟨.ident name, second⟩ :: mid ∧
        type? spelled = some ty ∧ IsName name ∧
        ((∃ opened inside, mid = ⟨.punct .openParen, opened⟩ :: inside ∧
            Yields (functionRest eof first ty name inside) d rest) ∨
          (NotCall mid ∧ Yields (globalRest eof first ty name mid) d rest)) := by
  unfold decl
  simp only [yields_bind, yields_type, yields_ident]
  constructor
  · rintro ⟨ty, _, ⟨spelled, first, rfl, isType⟩, name, mid, ⟨second, rfl, isName⟩, last⟩
    refine ⟨spelled, first, name, second, mid, ty, rfl, isType, isName, ?_⟩
    split at last
    · rename_i inside _ isCall
      obtain ⟨opened, rfl⟩ := accept?_eq_some.1 isCall
      simp only [yields_bind, yields_ok] at last
      obtain ⟨_, _, read, rfl, rfl⟩ := last
      exact .inl ⟨opened, inside, rfl, read⟩
    · rename_i notCall
      simp only [yields_bind, yields_ok] at last
      obtain ⟨_, _, read, rfl, rfl⟩ := last
      exact .inr ⟨accept?_eq_none.1 notCall, read⟩
  · rintro ⟨spelled, first, name, second, mid, ty, rfl, isType, isName, given⟩
    refine ⟨ty, _, ⟨spelled, first, rfl, isType⟩, name, mid, ⟨second, rfl, isName⟩, ?_⟩
    rcases given with ⟨opened, inside, rfl, read⟩ | ⟨notCall, read⟩
    · simp only [accept?_head, yields_bind, yields_ok]
      exact ⟨d, rest, read, rfl, rfl⟩
    · simp only [accept?_eq_none.2 notCall, yields_bind, yields_ok]
      exact ⟨d, rest, read, rfl, rfl⟩

theorem decls_cons {t : Placed} {ds : List Decl} :
    decls eof (t :: ts) = .ok ds ↔
      ∃ d mid others, Yields (decl eof (t :: ts)) d mid ∧ decls eof mid = .ok others ∧ ds = d :: others := by
  rw [decls]
  constructor
  · intro ok
    obtain ⟨⟨d, mid, bound⟩, read, ok⟩ := bind_eq_ok.1 ok
    obtain ⟨others, read', done⟩ := bind_eq_ok.1 ok
    cases done
    exact ⟨d, mid, others, ⟨bound, read⟩, read', rfl⟩
  · rintro ⟨d, mid, others, ⟨bound, read⟩, read', rfl⟩
    exact bind_eq_ok.2 ⟨_, read, bind_eq_ok.2 ⟨_, read', rfl⟩⟩

end MiniC.Source.Climbing

namespace MiniC.Source

open MiniC.Source.Parser (Decl program type?)
open MiniC.Source.Climbing

def Parser.Decl.bare : Decl → Decl
  | .global g => .global g.bare
  | .function f => .function f.bare

theorem program_bare (ds : List Decl) : (program ds).bare = program (ds.map Decl.bare) := by
  induction ds with
  | nil => rfl
  | cons d ds ih =>
    obtain ⟨globals, functions⟩ := Program.mk.inj ih
    cases d with
    | global g => exact congrArg₂ Program.mk (congrArg (g.bare :: ·) globals) functions
    | function f => exact congrArg₂ Program.mk globals (congrArg (f.bare :: ·) functions)

variable {eof : Position}

def EndsParams (ts : List Placed) (ps : List Param) (rest : List Placed) : Prop :=
  (ps = [] ∧ ∃ close, ts = ⟨.punct .closeParen, close⟩ :: rest) ∨
    ∃ p others, ps = p :: others ∧ ∃ comma read close,
      ts = ⟨.punct .comma, comma⟩ :: (read ++ ⟨.punct .closeParen, close⟩ :: rest) ∧ IsParams (plain read) ps

theorem EndsParams.isParams {spelled name : Bytes} {ty : Ty} {ts rest : List Placed} {ps : List Param}
    (ends : EndsParams ts ps rest) (isType : type? spelled = some ty) (isName : IsName name) (first second : Position) :
    ∃ read close, ⟨.ident spelled, first⟩ :: ⟨.ident name, second⟩ :: ts = read ++ ⟨.punct .closeParen, close⟩ :: rest ∧
      IsParams (plain read) (⟨ty, name⟩ :: ps) := by
  rcases ends with ⟨rfl, close, rfl⟩ | ⟨p, others, rfl, comma, read, close, rfl, derived⟩
  · exact ⟨[⟨.ident spelled, first⟩, ⟨.ident name, second⟩], close, rfl, .last isType isName⟩
  · exact ⟨⟨.ident spelled, first⟩ :: ⟨.ident name, second⟩ :: ⟨.punct .comma, comma⟩ :: read, close, by simp,
      .more isType isName derived⟩

theorem endsParams_of_yields {ts rest : List Placed} {ps : List Param} (yields : Yields (params eof false ts) ps rest) :
    EndsParams ts ps rest := by
  rcases starts_or (.punct .closeParen) ts with ⟨pos, after, rfl⟩ | notClosed
  · obtain ⟨rfl, rfl⟩ := yields_params_close.1 yields
    exact .inl ⟨rfl, pos, rfl⟩
  · obtain ⟨comma, _, rfl, spelled, first, name, second, mid, ty, others, rfl, isType, isName, inner, rfl⟩ :=
      (yields_params_next notClosed).1 yields
    obtain ⟨read, close, same, derived⟩ := (endsParams_of_yields inner).isParams isType isName first second
    exact .inr ⟨_, _, rfl, comma, read, close, by rw [same], derived⟩
termination_by ts.length

theorem isParams_of_yields {ts rest : List Placed} {ps : List Param} (yields : Yields (params eof true ts) ps rest) :
    ∃ read close, ts = read ++ ⟨.punct .closeParen, close⟩ :: rest ∧ IsParams (plain read) ps := by
  rcases starts_or (.punct .closeParen) ts with ⟨pos, after, rfl⟩ | notClosed
  · obtain ⟨rfl, rfl⟩ := yields_params_close.1 yields
    exact ⟨[], pos, rfl, .none⟩
  · obtain ⟨spelled, first, name, second, mid, ty, others, rfl, isType, isName, inner, rfl⟩ :=
      (yields_params_first notClosed).1 yields
    exact (endsParams_of_yields inner).isParams isType isName first second

theorem isDecl_of_yields {ts rest : List Placed} {d : Decl} (yields : Yields (decl eof ts) d rest) :
    ∃ read, ts = read ++ rest ∧ IsDecl (plain read) d := by
  obtain ⟨spelled, first, name, second, mid, ty, rfl, isType, isName, given⟩ := yields_decl.1 yields
  rcases given with ⟨opened, inside, rfl, inner⟩ | ⟨_, inner⟩
  · obtain ⟨ps, mid, reads, ending⟩ := yields_functionRest.1 inner
    obtain ⟨read, close, rfl, derived⟩ := isParams_of_yields reads
    rcases ending with ⟨last, rfl, rfl⟩ | ⟨brace, body, ss, rfl, reads', rfl⟩
    · refine ⟨⟨.ident spelled, first⟩ :: ⟨.ident name, second⟩ :: ⟨.punct .openParen, opened⟩ ::
        (read ++ [⟨.punct .closeParen, close⟩, ⟨.punct .semicolon, last⟩]), by simp, ?_⟩
      simpa [inParens] using IsDecl.external first isType isName derived
    · obtain ⟨more, last, rfl, derived'⟩ := isStmts_of_yields reads'
      refine ⟨⟨.ident spelled, first⟩ :: ⟨.ident name, second⟩ :: ⟨.punct .openParen, opened⟩ ::
        (read ++ ⟨.punct .closeParen, close⟩ :: ⟨.punct .openBrace, brace⟩ :: (more ++ [⟨.punct .closeBrace, last⟩])),
        by simp, ?_⟩
      simpa [inParens] using IsDecl.function first isType isName derived derived'
  · obtain ⟨notVoid, given | ⟨notString, last, rfl, rfl⟩⟩ := yields_globalRest.1 inner
    · obtain ⟨mark, lexeme, place, value, last, rfl, isLiteral, rfl⟩ := given
      exact ⟨[⟨.ident spelled, first⟩, ⟨.ident name, second⟩, ⟨.punct .assign, mark⟩, ⟨lexeme, place⟩,
        ⟨.punct .semicolon, last⟩], rfl, .globalWith first place isType isName notVoid isLiteral⟩
    · exact ⟨[⟨.ident spelled, first⟩, ⟨.ident name, second⟩, ⟨.punct .semicolon, last⟩], rfl,
        .global first isType isName notVoid notString⟩

theorem isDecls_of_decls {ts : List Placed} {ds : List Decl} (ok : decls eof ts = .ok ds) : IsDecls (plain ts) ds := by
  cases ts with
  | nil =>
    rw [decls] at ok
    cases ok
    exact .nil
  | cons t ts =>
    obtain ⟨d, mid, others, first, rest, rfl⟩ := decls_cons.1 ok
    have shorter : mid.length < (t :: ts).length := first.bound
    obtain ⟨read, same, derived⟩ := isDecl_of_yields first
    rw [same, plain_append]
    exact .cons derived (isDecls_of_decls rest)
termination_by ts.length

theorem IsParams.yields {ls : List Lexeme} {ps : List Param} (derived : IsParams ls ps) : ∀ {read : List Placed},
    plain read = ls → ∀ (close : Position) (rest : List Placed),
      Yields (params eof true (read ++ ⟨.punct .closeParen, close⟩ :: rest)) ps rest ∧
        (ps ≠ [] → ∀ comma, Yields (params eof false (⟨.punct .comma, comma⟩ :: (read ++ ⟨.punct .closeParen, close⟩ :: rest)))
          ps rest) := by
  -- a parameter is read at the start and behind a comma alike
  have both : ∀ {ts rest : List Placed} {ps : List Param}, (∃ name pos after, ts = ⟨.ident name, pos⟩ :: after) →
      IsParam eof ts ps rest → Yields (params eof true ts) ps rest ∧
        (ps ≠ [] → ∀ comma, Yields (params eof false (⟨.punct .comma, comma⟩ :: ts)) ps rest) := by
    rintro ts rest ps ⟨name, pos, after, rfl⟩ isParam
    constructor
    · exact (yields_params_first (by rintro place behind ⟨⟩)).2 isParam
    · exact fun _ comma => (yields_params_next (by rintro place behind ⟨⟩)).2 ⟨comma, _, rfl, isParam⟩
  induction derived with
  | none =>
    intro read spelled close rest
    obtain rfl : read = [] := by simpa [plain] using spelled
    exact ⟨yields_params_close.2 ⟨rfl, rfl⟩, fun never => absurd rfl never⟩
  | @last ty spelling name isType isName =>
    intro read spelled close rest
    obtain ⟨first, after, rfl, named⟩ := plain_eq_cons spelled
    obtain ⟨second, rfl⟩ := plain_eq_singleton named
    exact both ⟨_, _, _, rfl⟩ ⟨spelling, first, name, second, _, ty, [], rfl, isType, isName,
      yields_params_close.2 ⟨rfl, rfl⟩, rfl⟩
  | @more ty spelling name rs p ps isType isName others ih =>
    intro read spelled close rest
    obtain ⟨first, after, rfl, named⟩ := plain_eq_cons spelled
    obtain ⟨second, behind, rfl, separated⟩ := plain_eq_cons named
    obtain ⟨comma, inside, rfl, spelledOthers⟩ := plain_eq_cons separated
    have next := (ih spelledOthers close rest).2 (by simp) comma
    exact both ⟨_, _, _, rfl⟩ ⟨spelling, first, name, second, _, ty, p :: ps, rfl, isType, isName, next, rfl⟩

theorem IsParams.yields_inParens {ls : List Lexeme} {ps : List Param} (derived : IsParams ls ps) (eof : Position)
    {read : List Placed} (spelled : plain read = inParens ls) (rest : List Placed) :
    ∃ opened inside, read ++ rest = ⟨.punct .openParen, opened⟩ :: inside ∧ Yields (params eof true inside) ps rest := by
  obtain ⟨opened, inside, rfl, list⟩ := plain_eq_cons spelled
  obtain ⟨inner, behind, rfl, spelledParams, closed⟩ := plain_eq_append list
  obtain ⟨close, rfl⟩ := plain_eq_singleton closed
  refine ⟨opened, _, rfl, ?_⟩
  rw [List.append_eq, List.append_assoc]
  exact (derived.yields spelledParams close rest).1

theorem IsDecl.yields {ls : List Lexeme} {d : Decl} (derived : IsDecl ls d) {read : List Placed} (spelled : plain read = ls)
    (rest : List Placed) : ∃ d', d'.bare = d.bare ∧ Yields (decl eof (read ++ rest)) d' rest := by
  cases derived with
  | @global ty spelling name pos isType isName notVoid notString =>
    obtain ⟨first, after, rfl, named⟩ := plain_eq_cons spelled
    obtain ⟨second, behind, rfl, closed⟩ := plain_eq_cons named
    obtain ⟨last, rfl⟩ := plain_eq_singleton closed
    refine ⟨.global ⟨first, name, ty, none⟩, rfl, yields_decl.2 ⟨spelling, first, name, second, _, ty, rfl, isType, isName,
      .inr ⟨notCall_mark _ _ (by simp), yields_globalRest.2 ⟨notVoid, .inr ⟨notString, last, rfl, rfl⟩⟩⟩⟩⟩
  | @globalWith ty spelling name l c pos place isType isName notVoid isLiteral =>
    obtain ⟨first, after, rfl, named⟩ := plain_eq_cons spelled
    obtain ⟨second, behind, rfl, assigned⟩ := plain_eq_cons named
    obtain ⟨mark, behind, rfl, given⟩ := plain_eq_cons assigned
    obtain ⟨place', behind, rfl, closed⟩ := plain_eq_cons given
    obtain ⟨last, rfl⟩ := plain_eq_singleton closed
    refine ⟨.global ⟨first, name, ty, some ⟨place', c⟩⟩, rfl, yields_decl.2 ⟨spelling, first, name, second, _, ty, rfl, isType,
      isName, .inr ⟨notCall_mark _ _ (by simp), yields_globalRest.2 ⟨notVoid, .inl ?_⟩⟩⟩⟩
    exact ⟨mark, l, place', c, last, rfl, isLiteral, rfl⟩
  | @external ty spelling name ls ps pos isType isName isParams =>
    obtain ⟨first, after, rfl, named⟩ := plain_eq_cons spelled
    obtain ⟨second, behind, rfl, parts⟩ := plain_eq_cons named
    obtain ⟨list, behind, rfl, spelledParams, closed⟩ := plain_eq_append parts
    obtain ⟨last, rfl⟩ := plain_eq_singleton closed
    obtain ⟨opened, inside, same, reads⟩ :=
      isParams.yields_inParens eof spelledParams (⟨.punct .semicolon, last⟩ :: rest)
    refine ⟨.function ⟨first, name, ty, ps, true, []⟩, rfl, yields_decl.2 ⟨spelling, first, name, second, _, ty, rfl, isType,
      isName, .inl ⟨opened, inside, by rw [← same]; simp, ?_⟩⟩⟩
    exact yields_functionRest.2 ⟨ps, _, reads, .inl ⟨last, rfl, rfl⟩⟩
  | @function ty spelling name ls rs ps ss pos isType isName isParams isBody =>
    obtain ⟨first, after, rfl, named⟩ := plain_eq_cons spelled
    obtain ⟨second, behind, rfl, parts⟩ := plain_eq_cons named
    obtain ⟨list, behind, rfl, spelledParams, body⟩ := plain_eq_append parts
    obtain ⟨brace, inBraces, rfl, body'⟩ := plain_eq_cons body
    obtain ⟨more, behind, rfl, spelledBody, closed⟩ := plain_eq_append body'
    obtain ⟨last, rfl⟩ := plain_eq_singleton closed
    obtain ⟨ss', sameBody, readsBody⟩ := isBody.yields spelledBody last rest
    obtain ⟨opened, inside, same, reads⟩ := isParams.yields_inParens eof spelledParams
      (⟨.punct .openBrace, brace⟩ :: (more ++ ⟨.punct .closeBrace, last⟩ :: rest))
    refine ⟨.function ⟨first, name, ty, ps, false, ss'⟩, by simp only [Decl.bare, Function.bare, sameBody],
      yields_decl.2 ⟨spelling, first, name, second, _, ty, rfl, isType, isName,
        .inl ⟨opened, inside, by rw [← same]; simp, ?_⟩⟩⟩
    exact yields_functionRest.2 ⟨ps, _, reads, .inr ⟨brace, _, ss', rfl, readsBody, rfl⟩⟩

theorem IsDecls.decls {ls : List Lexeme} {ds : List Decl} (derived : IsDecls ls ds) {ts : List Placed}
    (spelled : plain ts = ls) : ∃ ds', ds'.map Decl.bare = ds.map Decl.bare ∧ Climbing.decls eof ts = .ok ds' := by
  induction derived generalizing ts with
  | nil =>
    obtain rfl : ts = [] := by simpa [plain] using spelled
    exact ⟨[], rfl, by rw [Climbing.decls]⟩
  | @cons ls rs d ds first others ih =>
    obtain ⟨here, there, rfl, spelledFirst, spelledOthers⟩ := plain_eq_append spelled
    obtain ⟨d', same, reads⟩ := first.yields spelledFirst there
    obtain ⟨ds', same', reads'⟩ := ih spelledOthers
    refine ⟨d' :: ds', by simp only [List.map_cons, same, same'], ?_⟩
    obtain ⟨spelling, pos, name, second, mid, ty, starts, _⟩ := yields_decl.1 reads
    rw [starts] at reads ⊢
    exact decls_cons.2 ⟨d', there, ds', reads, reads', rfl⟩

end MiniC.Source
