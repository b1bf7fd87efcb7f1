import MiniC.Proofs.Faults
import MiniC.Proofs.Source.Climbing
import MiniC.Proofs.Source.Grammar

namespace MiniC.Source.Climbing

open MiniC.Source.Parser (type? unary? binary? counting?)

variable {p : Punct} {pos : Position} {e : Expr}

def Yields {α : Type} {P : List Placed → Prop} (x : Except SyntaxError (α × { rest : List Placed // P rest }))
    (a : α) (rest : List Placed) : Prop :=
  ∃ short, x = .ok (a, ⟨rest, short⟩)

section

variable {α : Type} {P : List Placed → Prop} {x : Except SyntaxError (α × { rest : List Placed // P rest })}

theorem Yields.bound {a : α} {r : List Placed} (yields : Yields x a r) : P r := by
  obtain ⟨short, _⟩ := yields
  exact short

end

section

variable {α β γ : Type} {P Q : List Placed → Prop} {b : β} {rest : List Placed}

theorem yields_ok {c : β} {r : { rest : List Placed // Q rest }} : Yields (.ok (c, r)) b rest ↔ b = c ∧ rest = r.1 := by
  obtain ⟨r, short⟩ := r
  constructor
  · rintro ⟨_, same⟩
    cases same
    exact ⟨rfl, rfl⟩
  · rintro ⟨rfl, rfl⟩
    exact ⟨short, rfl⟩

theorem not_yields_error {e : SyntaxError} :
    ¬ Yields (.error e : Except SyntaxError (β × { rest : List Placed // Q rest })) b rest := by
  rintro ⟨_, ⟨⟩⟩

theorem yields_step {y : Except SyntaxError γ} {f : γ → Except SyntaxError (β × { rest : List Placed // Q rest })} :
    Yields (y >>= f) b rest ↔ ∃ c, y = .ok c ∧ Yields (f c) b rest := by
  constructor
  · rintro ⟨short, ok⟩
    obtain ⟨c, done, ok⟩ := bind_eq_ok.1 ok
    exact ⟨c, done, short, ok⟩
  · rintro ⟨c, done, short, ok⟩
    exact ⟨short, bind_eq_ok.2 ⟨c, done, ok⟩⟩

theorem yields_bind {x : Except SyntaxError (α × { rest : List Placed // P rest })}
    {f : α × { rest : List Placed // P rest } → Except SyntaxError (β × { rest : List Placed // Q rest })} :
    Yields (x >>= f) b rest ↔ ∃ a mid, ∃ first : Yields x a mid, Yields (f (a, ⟨mid, first.bound⟩)) b rest := by
  rw [yields_step]
  constructor
  · rintro ⟨⟨a, mid, bound⟩, done, next⟩
    exact ⟨a, mid, ⟨bound, done⟩, next⟩
  · rintro ⟨a, mid, ⟨bound, done⟩, next⟩
    exact ⟨_, done, next⟩

end

variable {eof : Position} {ts rest : List Placed}

theorem accept?_eq_some {l : Lexeme} {short : rest.length < ts.length} :
    accept? l ts = some ⟨rest, short⟩ ↔ ∃ pos, ts = ⟨l, pos⟩ :: rest := by
  cases ts with
  | nil => simp [accept?]
  | cons t ts =>
    obtain ⟨lexeme, pos⟩ := t
    by_cases same : lexeme = l
    · simp [accept?, same]
    · simp [accept?, same]

theorem accept?_eq_none {l : Lexeme} : accept? l ts = none ↔ ∀ pos rest, ts ≠ ⟨l, pos⟩ :: rest := by
  cases ts with
  | nil => simp [accept?]
  | cons t ts =>
    obtain ⟨lexeme, pos⟩ := t
    by_cases same : lexeme = l
    · simp [accept?, same]
    · simp [accept?, same]

theorem starts_or (l : Lexeme) (ts : List Placed) :
    (∃ pos rest, ts = ⟨l, pos⟩ :: rest) ∨ ∀ pos rest, ts ≠ ⟨l, pos⟩ :: rest := by
  simpa only [not_exists] using em (∃ pos rest, ts = ⟨l, pos⟩ :: rest)

theorem marked_or {β : Type} (f : Punct → Option β) (ts : List Placed) :
    (∃ p pos rest b, ts = ⟨.punct p, pos⟩ :: rest ∧ f p = some b) ∨
      ∀ p pos rest, ts = ⟨.punct p, pos⟩ :: rest → f p = none := by
  by_cases marked : ∃ p pos rest b, ts = ⟨.punct p, pos⟩ :: rest ∧ f p = some b
  · exact .inl marked
  · refine .inr fun p pos rest starts => Option.eq_none_iff_forall_ne_some.2 fun b is => ?_
    exact marked ⟨p, pos, rest, b, starts, is⟩

theorem accept?_head (l : Lexeme) (pos : Position) (ts : List Placed) :
    accept? l (⟨l, pos⟩ :: ts) = some ⟨ts, Nat.lt_succ_self _⟩ := by
  simp [accept?]

theorem expect_eq_ok {short : rest.length < ts.length} :
    expect eof p ts = .ok ⟨rest, short⟩ ↔ ∃ pos, ts = ⟨.punct p, pos⟩ :: rest := by
  unfold expect
  split
  · rename_i found
    rw [Except.ok.injEq, ← accept?_eq_some, found, Option.some.injEq]
  · rename_i none
    constructor
    · rintro ⟨⟩
    · rintro ⟨pos, rfl⟩
      exact absurd rfl (accept?_eq_none.1 none pos rest)

theorem expect_head (p : Punct) (pos : Position) (ts : List Placed) :
    expect eof p (⟨.punct p, pos⟩ :: ts) = .ok ⟨ts, Nat.lt_succ_self _⟩ := by
  simp [expect, accept?_head]

theorem length_lt_of_eq {t : Placed} (same : ts = t :: rest) : rest.length < ts.length := by
  rw [same]
  exact Nat.lt_succ_self _

theorem yields_expect {β : Type} {Q : List Placed → Prop} {b : β}
    {f : Rest ts → Except SyntaxError (β × { rest : List Placed // Q rest })} :
    Yields (expect eof p ts >>= f) b rest ↔
      ∃ pos inside, ∃ same : ts = ⟨.punct p, pos⟩ :: inside, Yields (f ⟨inside, length_lt_of_eq same⟩) b rest := by
  rw [yields_step]
  constructor
  · rintro ⟨⟨inside, bound⟩, found, next⟩
    obtain ⟨pos, same⟩ := expect_eq_ok.1 found
    exact ⟨pos, inside, same, next⟩
  · rintro ⟨pos, inside, same, next⟩
    exact ⟨_, expect_eq_ok.2 ⟨pos, same⟩, next⟩

theorem yields_type {ty : Ty} :
    Yields (type eof ts) ty rest ↔ ∃ name pos, ts = ⟨.ident name, pos⟩ :: rest ∧ type? name = some ty := by
  unfold type
  split
  · rename_i name pos after
    cases known : type? name with
    | none => simp [Yields, known]
    | some found =>
      simp only [Yields, Except.ok.injEq, Prod.mk.injEq, Subtype.mk.injEq, List.cons.injEq, Placed.mk.injEq,
        Lexeme.ident.injEq]
      constructor
      · rintro ⟨_, rfl, rfl⟩
        exact ⟨name, pos, ⟨⟨rfl, rfl⟩, rfl⟩, known⟩
      · rintro ⟨_, _, ⟨⟨rfl, rfl⟩, rfl⟩, same⟩
        rw [known, Option.some.injEq] at same
        exact ⟨Nat.lt_succ_self _, same, rfl⟩
  · rename_i other
    constructor
    · rintro ⟨_, ⟨⟩⟩
    · rintro ⟨name, pos, rfl, _⟩
      exact absurd rfl (other name pos rest)

theorem yields_ident {name : Name} :
    Yields (ident eof ts) name rest ↔ ∃ pos, ts = ⟨.ident name, pos⟩ :: rest ∧ IsName name := by
  unfold ident
  split
  · rename_i found pos after
    split
    · rename_i taken
      constructor
      · rintro ⟨_, ⟨⟩⟩
      · rintro ⟨_, same, isName⟩
        cases same
        have free := isName.notKeyword
        simp [isName.notType, free] at taken
    · rename_i free
      split
      · rename_i generated
        constructor
        · rintro ⟨_, ⟨⟩⟩
        · rintro ⟨_, same, isName⟩
          cases same
          rw [isName.notGenerated] at generated
          cases generated
      · rename_i user
        constructor
        · rintro ⟨_, same⟩
          cases same
          simp only [List.contains_eq_mem, Bool.or_eq_true, decide_eq_true_eq, not_or] at free
          exact ⟨pos, rfl, free.1, by simpa using free.2, by simpa using user⟩
        · rintro ⟨_, same, _⟩
          cases same
          exact ⟨Nat.lt_succ_self _, rfl⟩
  · rename_i other
    constructor
    · rintro ⟨_, ⟨⟩⟩
    · rintro ⟨pos, rfl, _⟩
      exact absurd rfl (other name pos rest)

theorem yields_literal {l : Literal} :
    Yields (literal eof ts) l rest ↔ ∃ lexeme, ts = ⟨lexeme, l.pos⟩ :: rest ∧ IsLiteral lexeme l.value := by
  unfold literal
  split
  · rename_i numeral pos after
    split
    · rename_i n read
      constructor
      · rintro ⟨_, same⟩
        cases same
        exact ⟨_, rfl, .int read⟩
      · obtain ⟨place, value⟩ := l
        rintro ⟨_, same, isLiteral⟩
        cases same
        cases isLiteral with
        | int read' =>
          rw [read] at read'
          cases read'
          exact ⟨Nat.lt_succ_self _, rfl⟩
    · rename_i e read
      constructor
      · rintro ⟨_, ⟨⟩⟩
      · obtain ⟨place, value⟩ := l
        rintro ⟨_, same, isLiteral⟩
        cases same
        cases isLiteral with
        | int read' =>
          rw [read] at read'
          cases read'
  · constructor
    · rintro ⟨_, same⟩
      cases same
      exact ⟨_, rfl, .char _⟩
    · obtain ⟨place, value⟩ := l
      rintro ⟨_, same, isLiteral⟩
      cases same
      cases isLiteral
      exact ⟨Nat.lt_succ_self _, rfl⟩
  · constructor
    · rintro ⟨_, same⟩
      cases same
      exact ⟨_, rfl, .str _⟩
    · obtain ⟨place, value⟩ := l
      rintro ⟨_, same, isLiteral⟩
      cases same
      cases isLiteral
      exact ⟨Nat.lt_succ_self _, rfl⟩
  · rename_i notInt notChar notStr
    constructor
    · rintro ⟨_, ⟨⟩⟩
    · obtain ⟨place, value⟩ := l
      rintro ⟨lexeme, rfl, isLiteral⟩
      cases isLiteral with
      | int => exact absurd rfl (notInt _ _ _)
      | char => exact absurd rfl (notChar _ _ _)
      | str => exact absurd rfl (notStr _ _ _)

theorem applyUnary_eq_ok {op : UnOp} {e' : Expr} :
    applyUnary pos op e = .ok e' ↔ (op.counts = true → e.isVar = true) ∧ e' = .unary pos op e := by
  have applies : ∀ {P : Prop}, P → ((Except.ok (.unary pos op e) : Except SyntaxError Expr) = .ok e' ↔
      P ∧ e' = .unary pos op e) := by
    intro P holds
    rw [Except.ok.injEq]
    exact ⟨fun same => ⟨holds, same.symm⟩, fun both => both.2.symm⟩
  cases op with
  | increment | decrement =>
    cases e with
    | var => exact applies fun _ => rfl
    | _ => simp [applyUnary, UnOp.counts, Expr.isVar]
  | _ => exact applies fun never => nomatch never

def NotCounted (ts : List Placed) : Prop :=
  ∀ p pos rest, ts = ⟨.punct p, pos⟩ :: rest → counting? p = none

theorem yields_postfixes_counting {op : UnOp} {e' : Expr} (mark : counting? p = some op) :
    Yields (postfixes e (⟨.punct p, pos⟩ :: ts)) e' rest ↔
      e.isVar = true ∧ Yields (postfixes (.unary pos op e) ts) e' rest := by
  cases p with
  | increment | decrement =>
    cases mark
    rw [postfixes, yields_step]
    simp only [applyUnary_eq_ok, yields_bind, yields_ok, exists_prop]
    constructor
    · rintro ⟨_, ⟨onVar, rfl⟩, _, _, inner, rfl, rfl⟩
      exact ⟨onVar rfl, inner⟩
    · rintro ⟨onVar, inner⟩
      exact ⟨_, ⟨fun _ => onVar, rfl⟩, _, _, inner, rfl, rfl⟩
  | _ => cases mark

theorem yields_postfixes_other {e' : Expr} (other : NotCounted ts) :
    Yields (postfixes e ts) e' rest ↔ e' = e ∧ rest = ts := by
  unfold postfixes
  split
  · cases other _ _ _ rfl
  · cases other _ _ _ rfl
  · exact yields_ok

theorem yields_expr {least : Nat} : Yields (expr eof least ts) e rest ↔
      ∃ x mid, Yields (unary eof ts) x mid ∧ Yields (operators eof least x mid) e rest := by
  rw [expr]
  simp [yields_bind, yields_ok]

def NotOperator (least : Nat) (ts : List Placed) : Prop :=
  ∀ p pos rest op level, ts = ⟨.punct p, pos⟩ :: rest → binary? p = some (op, level) → level < least

theorem yields_operators_mark {least level : Nat} {op : BinOp} {left : Expr}
    (mark : binary? p = some (op, level)) (tight : least ≤ level) :
    Yields (operators eof least left (⟨.punct p, pos⟩ :: ts)) e rest ↔
      ∃ right mid, Yields (expr eof (level + 1) ts) right mid ∧
        Yields (operators eof least (.binary pos op left right) mid) e rest := by
  rw [operators]
  simp [mark, tight, yields_bind, yields_ok]

theorem yields_operators_other {least : Nat} {left : Expr} (other : NotOperator least ts) :
    Yields (operators eof least left ts) e rest ↔ e = left ∧ rest = ts := by
  unfold operators
  split
  · rename_i p pos after
    split
    · exact yields_ok
    · rename_i op level mark
      have loose := other _ _ _ _ _ rfl mark
      rw [if_neg (by omega)]
      exact yields_ok
  · exact yields_ok

theorem yields_unary_mark {op : UnOp} (mark : unary? p = some op) :
    Yields (unary eof (⟨.punct p, pos⟩ :: ts)) e rest ↔
      ∃ x, Yields (unary eof ts) x rest ∧ (op.counts = true → x.isVar = true) ∧ e = .unary pos op x := by
  rw [unary]
  simp only [mark, yields_bind]
  constructor
  · rintro ⟨x, mid, first, last⟩
    obtain ⟨_, applied, returned⟩ := yields_step.1 last
    obtain ⟨rfl, rfl⟩ := yields_ok.1 returned
    exact ⟨x, first, applyUnary_eq_ok.1 applied⟩
  · rintro ⟨x, first, applied⟩
    exact ⟨x, rest, first, yields_step.2 ⟨e, applyUnary_eq_ok.2 applied, yields_ok.2 ⟨rfl, rfl⟩⟩⟩

def NotUnary (ts : List Placed) : Prop :=
  ∀ p pos rest, ts = ⟨.punct p, pos⟩ :: rest → unary? p = none

theorem yields_unary_other (other : NotUnary ts) : Yields (unary eof ts) e rest ↔
      ∃ x mid, Yields (primary eof ts) x mid ∧ Yields (postfixes x mid) e rest := by
  unfold unary
  split
  · rename_i p pos after
    simp [other _ _ _ rfl, yields_bind, yields_ok]
  · simp [yields_bind, yields_ok]

def NotCall (ts : List Placed) : Prop :=
  ∀ pos rest, ts ≠ ⟨.punct .openParen, pos⟩ :: rest

theorem yields_primary_ident {name : Name} : Yields (primary eof (⟨.ident name, pos⟩ :: ts)) e rest ↔ IsName name ∧
        ((∃ place mid args, ts = ⟨.punct .openParen, place⟩ :: mid ∧ Yields (arguments eof true mid) args rest ∧
            e = .call pos name args) ∨ (NotCall ts ∧ e = .var pos name ∧ rest = ts)) := by
  rw [primary]
  simp only [yields_bind, yields_ident]
  constructor
  · rintro ⟨_, mid, ⟨_, same, isName⟩, last⟩
    cases same
    refine ⟨isName, ?_⟩
    split at last
    · rename_i inside _ opened
      obtain ⟨place, rfl⟩ := accept?_eq_some.1 opened
      obtain ⟨args, after, second, returned⟩ := yields_bind.1 last
      obtain ⟨rfl, rfl⟩ := yields_ok.1 returned
      exact .inl ⟨place, inside, args, rfl, second, rfl⟩
    · rename_i closed
      exact .inr ⟨accept?_eq_none.1 closed, yields_ok.1 last⟩
  · rintro ⟨isName, called | ⟨notCall, returned⟩⟩
    · obtain ⟨place, mid, args, rfl, inner, rfl⟩ := called
      refine ⟨name, _, ⟨pos, rfl, isName⟩, ?_⟩
      simp only [accept?_head]
      exact yields_bind.2 ⟨args, rest, inner, yields_ok.2 ⟨rfl, rfl⟩⟩
    · refine ⟨name, ts, ⟨pos, rfl, isName⟩, ?_⟩
      simp only [accept?_eq_none.2 notCall]
      exact yields_ok.2 returned

theorem yields_primary_paren : Yields (primary eof (⟨.punct .openParen, pos⟩ :: ts)) e rest ↔
      ∃ place, Yields (expr eof 0 ts) e (⟨.punct .closeParen, place⟩ :: rest) := by
  rw [primary]
  simp [yields_bind, yields_expect, yields_ok]

theorem yields_primary_other (notIdent : ∀ name pos after, ts ≠ ⟨.ident name, pos⟩ :: after) (notParen : NotCall ts) :
    Yields (primary eof ts) e rest ↔ ∃ l, Yields (literal eof ts) l rest ∧ e = .literal l := by
  unfold primary
  split
  · exact absurd rfl (notIdent _ _ _)
  · exact absurd rfl (notParen _ _)
  · refine iff_of_false not_yields_error ?_
    rintro ⟨l, read, _⟩
    obtain ⟨lexeme, same, isLiteral⟩ := yields_literal.1 read
    cases same
    cases isLiteral
  · refine iff_of_false not_yields_error ?_
    rintro ⟨l, ⟨_, ⟨⟩⟩, _⟩
  · simp [yields_bind, yields_ok, and_comm]

def NotClosed (ts : List Placed) : Prop :=
  ∀ pos rest, ts ≠ ⟨.punct .closeParen, pos⟩ :: rest

theorem yields_arguments_close {first : Bool} {args : List Expr} :
    Yields (arguments eof first (⟨.punct .closeParen, pos⟩ :: ts)) args rest ↔ args = [] ∧ rest = ts := by
  rw [arguments]
  simp only [accept?_head]
  exact yields_ok

theorem yields_arguments_first {args : List Expr} (notClosed : NotClosed ts) :
    Yields (arguments eof true ts) args rest ↔
      ∃ x mid xs, Yields (expr eof 0 ts) x mid ∧ Yields (arguments eof false mid) xs rest ∧ args = x :: xs := by
  rw [arguments]
  simp [accept?_eq_none.2 notClosed, yields_bind, yields_ok, and_comm]

theorem yields_arguments_next {args : List Expr} (notClosed : NotClosed ts) :
    Yields (arguments eof false ts) args rest ↔
      ∃ pos inside x mid xs, ts = ⟨.punct .comma, pos⟩ :: inside ∧ Yields (expr eof 0 inside) x mid ∧
        Yields (arguments eof false mid) xs rest ∧ args = x :: xs := by
  rw [arguments]
  simp [accept?_eq_none.2 notClosed, yields_bind, yields_expect, yields_ok, and_comm]

end MiniC.Source.Climbing
