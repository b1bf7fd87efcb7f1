import MiniC.Proofs.Source.Expressions

/-!
The parser by recursive descent reads what the climbing one reads. Climbing satisfies the equation of each routine, so
it answers every call as the least fixed point does.
-/

namespace MiniC.Source

open MiniC.Source.Parser

namespace Climbing

variable {α β γ : Type} {P : List Placed → Prop}

def turns (eof : Position) (level : Nat) (left : Expr) (ts : List Placed) : Except SyntaxError (Expr × List Placed) :=
  match ts with
  | ⟨.punct p, pos⟩ :: rest =>
    match binary? p with
    | some (op, own) =>
      if own = level then do
        let (right, ⟨rest, _⟩) ← expr eof (level + 1) rest
        turns eof level (.binary pos op left right) rest
      else .ok (left, ⟨.punct p, pos⟩ :: rest)
    | none => .ok (left, ⟨.punct p, pos⟩ :: rest)
  | ts => .ok (left, ts)
termination_by ts.length

/-- What a parser returns, without the bound on the rest of its list. -/
def bare (x : Except SyntaxError (α × { rest : List Placed // P rest })) : Except SyntaxError (α × List Placed) :=
  x.map fun (a, rest) => (a, rest.1)

/-- The same with what a loop has read before. -/
def behind (before : List α) (x : Except SyntaxError (List α × { rest : List Placed // P rest })) :
    Except SyntaxError (List α × List Placed) :=
  x.map fun (as, rest) => (before ++ as, rest.1)

def answer (eof : Position) : {α : Type} → Routine α → List Placed → Except SyntaxError (α × List Placed)
  | _, .type, ts => bare (type eof ts)
  | _, .ident, ts => bare (ident eof ts)
  | _, .literal, ts => bare (literal eof ts)
  | _, .primary, ts => bare (primary eof ts)
  | _, .arguments before, ts => behind before (arguments eof before.isEmpty ts)
  | _, .postfixed, ts => do
    let (x, rest) ← bare (primary eof ts)
    bare (postfixes x rest)
  | _, .counters operand, ts => bare (postfixes operand ts)
  | _, .unary, ts => bare (unary eof ts)
  | _, .binary level, ts => bare (expr eof level ts)
  | _, .operators level left, ts => turns eof level left ts
  | _, .expr, ts => bare (expr eof 0 ts)
  | _, .condition, ts => bare (condition eof ts)
  | _, .exprStmt, ts => bare (exprStmt eof ts)
  | _, .stmt, ts => bare (stmt eof ts)
  | _, .stmts before, ts => behind before (stmts eof ts)
  | _, .block, ts => bare (block eof ts)
  | _, .params before, ts => behind before (params eof before.isEmpty ts)
  | _, .decl, ts => bare (decl eof ts)
  | _, .decls before, ts => (decls eof ts).map fun ds => (before ++ ds, [])

section

variable {eof : Position} {level : Nat} {left : Expr} {ts : List Placed}

theorem bare_eq_ok {x : Except SyntaxError (α × { rest : List Placed // P rest })} {a : α} {rest : List Placed} :
    bare x = .ok (a, rest) ↔ Yields x a rest := by
  cases x with
  | error e => exact iff_of_false nofun not_yields_error
  | ok found =>
    rw [yields_ok]
    constructor
    · rintro ⟨⟩
      exact ⟨rfl, rfl⟩
    · rintro ⟨rfl, rfl⟩
      rfl

theorem bare_bind {x : Except SyntaxError (α × { rest : List Placed // P rest })} {Q : List Placed → Prop}
    {f : α × { rest : List Placed // P rest } → Except SyntaxError (β × { rest : List Placed // Q rest })}
    {g : α × List Placed → Except SyntaxError (β × List Placed)} (same : ∀ a rest, bare (f (a, rest)) = g (a, rest.1)) :
    bare (x >>= f) = bare x >>= g := by
  cases x with
  | error e => rfl
  | ok found => exact same found.1 found.2

theorem bare_weaken {x : Except SyntaxError (α × { rest : List Placed // P rest })} {Q : List Placed → Prop}
    {f : α × { rest : List Placed // P rest } → Except SyntaxError (α × { rest : List Placed // Q rest })}
    (same : ∀ a rest, bare (f (a, rest)) = .ok (a, rest.1)) : bare (x >>= f) = bare x := by
  cases x with
  | error e => rfl
  | ok found => exact same found.1 found.2

theorem map_bind {x : Except SyntaxError α} {h : α → β} {g : β → Except SyntaxError γ} :
    (x.map h >>= g) = x >>= fun a => g (h a) := by
  cases x with
  | error e => rfl
  | ok a => rfl

theorem behind_bind {before more : List α} {x : Except SyntaxError (List α × { rest : List Placed // P rest })}
    {Q : List Placed → Prop}
    {f : List α × { rest : List Placed // P rest } → Except SyntaxError (List α × { rest : List Placed // Q rest })}
    (same : ∀ as rest, bare (f (as, rest)) = .ok (more ++ as, rest.1)) :
    behind before (x >>= f) = behind (before ++ more) x := by
  have behind_eq : ∀ y : Except SyntaxError (List α × { rest : List Placed // Q rest }),
      behind before y = (bare y).map fun found => (before ++ found.1, found.2) := by
    intro y
    cases y with
    | error e => rfl
    | ok found => rfl
  cases x with
  | error e => rfl
  | ok found =>
    show behind before (f (found.1, found.2)) = .ok (before ++ more ++ found.1, found.2.1)
    rw [behind_eq, same, List.append_assoc]
    rfl

theorem operators_other (other : NotOperator level ts) : bare (operators eof level left ts) = .ok (left, ts) :=
  bare_eq_ok.2 ((yields_operators_other other).2 ⟨rfl, rfl⟩)

theorem operators_mark {p : Punct} {op : BinOp} {own : Nat} {pos : Position} (mark : binary? p = some (op, own))
    (tight : level ≤ own) : bare (operators eof level left (⟨.punct p, pos⟩ :: ts)) =
      bare (expr eof (own + 1) ts) >>= fun found => bare (operators eof level (.binary pos op left found.1) found.2) := by
  rw [operators]
  simp only [mark, if_pos tight]
  exact bare_bind fun right rest => bare_weaken fun x rest => rfl

theorem turns_other (other : ∀ p pos rest op own, ts = ⟨.punct p, pos⟩ :: rest → binary? p = some (op, own) → own ≠ level) :
    turns eof level left ts = .ok (left, ts) := by
  unfold turns
  split
  · rename_i p pos rest
    split
    · rename_i op own mark
      rw [if_neg (other _ _ _ _ _ rfl mark)]
    · rfl
  · rfl

theorem turns_mark {p : Punct} {op : BinOp} {pos : Position} (mark : binary? p = some (op, level)) :
    turns eof level left (⟨.punct p, pos⟩ :: ts) =
      bare (expr eof (level + 1) ts) >>= fun found => turns eof level (.binary pos op left found.1) found.2 := by
  rw [turns]
  simp only [mark, if_pos]
  cases expr eof (level + 1) ts with
  | error e => rfl
  | ok found => rfl

theorem operators_succ {left : Expr} {ts : List Placed} (below : level < 10) : bare (operators eof level left ts) =
    bare (operators eof (level + 1) left ts) >>= fun found => turns eof level found.1 found.2 := by
  by_cases other : NotOperator level ts
  · rw [operators_other other, operators_other (other.mono (Nat.le_succ level))]
    exact (turns_other fun p pos rest op own starts mark => Nat.ne_of_lt (other p pos rest op own starts mark)).symm
  simp only [NotOperator, not_forall, Nat.not_lt] at other
  obtain ⟨p, pos, rest, op, own, rfl, mark, tight⟩ := other
  rw [operators_mark mark tight]
  rcases Nat.eq_or_lt_of_le tight with rfl | tighter
  · have stays : NotOperator (level + 1) (⟨.punct p, pos⟩ :: rest) := by
      rintro _ _ _ _ _ ⟨⟩ mark'
      cases mark.symm.trans mark'
      exact Nat.lt_succ_self level
    rw [operators_other stays]
    refine Eq.trans ?_ (turns_mark mark).symm
    cases read : expr eof (level + 1) rest with
    | error e => rfl
    | ok found =>
      obtain ⟨right, mid, shorter⟩ := found
      -- No operator that binds more tightly stands behind the right operand, which has taken them all.
      obtain ⟨_, _, _, ends⟩ := isExpr_of_yields below ⟨shorter, read⟩
      show bare (operators eof level _ mid) = turns eof level _ mid
      rw [operators_succ below, operators_other ends.notOperator]
      rfl
  · rw [operators_mark mark tighter]
    cases read : expr eof (own + 1) rest with
    | error e => rfl
    | ok found =>
      obtain ⟨right, mid, shorter⟩ := found
      exact operators_succ below
termination_by ts.length
decreasing_by all_goals
  subst_vars
  rw [List.length_cons]
  omega

theorem bare_expr : bare (expr eof level ts) =
    bare (unary eof ts) >>= fun found => bare (operators eof level found.1 found.2) := by
  rw [expr]
  exact bare_bind fun x rest => bare_weaken fun x rest => rfl

theorem expr_succ (below : level < 10) : bare (expr eof level ts) =
    bare (expr eof (level + 1) ts) >>= fun found => turns eof level found.1 found.2 := by
  rw [bare_expr, bare_expr]
  cases bare (unary eof ts) with
  | error e => rfl
  | ok found => exact operators_succ below

theorem expr_ten : bare (expr eof 10 ts) = bare (unary eof ts) := by
  rw [bare_expr]
  cases bare (unary eof ts) with
  | error e => rfl
  | ok found => exact operators_other (notOperator_ten _)

theorem postfixes_mark {p : Punct} {op : UnOp} {pos : Position} {e : Expr} (mark : counting? p = some op) :
    bare (postfixes e (⟨.punct p, pos⟩ :: ts)) = applyUnary pos op e >>= fun x => bare (postfixes x ts) := by
  cases p with
  | increment | decrement =>
    cases mark
    rw [postfixes]
    cases applyUnary pos _ e with
    | error => rfl
    | ok x => exact bare_weaken fun x rest => rfl
  | _ => cases mark

theorem postfixes_other {e : Expr} (other : NotCounted ts) : bare (postfixes e ts) = .ok (e, ts) :=
  bare_eq_ok.2 ((yields_postfixes_other other).2 ⟨rfl, rfl⟩)

theorem unary_mark {p : Punct} {op : UnOp} {pos : Position} (mark : unary? p = some op) :
    bare (unary eof (⟨.punct p, pos⟩ :: ts)) =
      bare (unary eof ts) >>= fun found => (applyUnary pos op found.1).map fun x => (x, found.2) := by
  rw [unary]
  simp only [mark]
  refine bare_bind fun x rest => ?_
  cases applyUnary pos op x with
  | error e => rfl
  | ok x => rfl

theorem unary_other (other : NotUnary ts) : bare (unary eof ts) = answer eof .postfixed ts := by
  unfold unary
  split
  · simp only [other _ _ _ rfl]
    exact bare_bind fun x rest => bare_weaken fun x rest => rfl
  · exact bare_bind fun x rest => bare_weaken fun x rest => rfl

end

end Climbing

open Climbing (bare answer turns)

def Tokens.after (ts : Tokens) (i : Nat) : List Placed :=
  ts.lexemes.toList.drop i

def Parser.Run.Comes (ts : Tokens) {α : Type} (p : Except SyntaxError (α × List Placed)) : Run α → Prop
  | .ends outcome => p = outcome.map fun (a, j) => (a, ts.after j)
  | .calls r i next =>
    match answer ts.eof r (ts.after i) with
    | .error e => p = .error e
    | .ok (b, rest) => ∀ j, ts.after j = rest → (next b j).Comes ts p

namespace Climbing

def Comes {α : Type} (ts : Tokens) (i : Nat) (p : Except SyntaxError (α × List Placed)) (x : Parser α) : Prop :=
  (x ts i).Comes ts p

section

variable {α β γ : Type} {P : List Placed → Prop} {ts : Tokens} {i j : Nat} {rest : List Placed}
  {p : Except SyntaxError (β × List Placed)}

theorem after_succ {t : Placed} (starts : ts.after i = t :: rest) : ts.after (i + 1) = rest := by
  rw [Tokens.after, ← List.drop_drop]
  exact congrArg (List.drop 1) starts

theorem comes_advance {f : Unit → Parser β} (next : Comes ts (i + 1) p (f ())) : Comes ts i p (advance >>= f) :=
  next

theorem comes_call {r : Routine α} {f : α → Parser β} (failed : ∀ e, answer ts.eof r (ts.after i) = .error e → p = .error e)
    (next : ∀ a j, answer ts.eof r (ts.after i) = .ok (a, ts.after j) → Comes ts j p (f a)) :
    Comes ts i p (call r >>= f) := by
  show Run.Comes ts p (.calls r i fun a j => f a ts j)
  unfold Run.Comes
  split
  · rename_i e answered
    exact failed e answered
  · rename_i b rest answered
    rintro j rfl
    exact next b j answered

theorem comes_last {r : Routine β} (answered : p = answer ts.eof r (ts.after i)) : Comes ts i p (call r) := by
  show Run.Comes ts p (.calls r i fun a j => .ends (.ok (a, j)))
  subst answered
  unfold Run.Comes
  split
  · assumption
  · rename_i b rest answered
    rintro j rfl
    exact answered

theorem comes_then {r : Routine α} {f : α → Parser β} {q : Except SyntaxError (α × List Placed)}
    {g : α × List Placed → Except SyntaxError (β × List Placed)} (answered : answer ts.eof r (ts.after i) = q)
    (next : ∀ a j, Comes ts j (g (a, ts.after j)) (f a)) : Comes ts i (q >>= g) (call r >>= f) := by
  refine comes_call (fun e failed => ?_) fun a j returned => ?_
  · rw [← answered, failed]
    rfl
  · rw [← answered, returned]
    exact next a j

theorem comes_step {r : Routine α} {f : α → Parser β} {x : Except SyntaxError (α × { rest : List Placed // P rest })}
    {g : α × { rest : List Placed // P rest } → Except SyntaxError γ} {k : γ → β × List Placed}
    (answered : answer ts.eof r (ts.after i) = bare x)
    (next : ∀ a j inside, Comes ts j ((g (a, ⟨ts.after j, inside⟩)).map k) (f a)) :
    Comes ts i ((x >>= g).map k) (call r >>= f) := by
  refine comes_call (fun e failed => ?_) fun a j returned => ?_
  · rw [answered] at failed
    cases x with
    | error e' =>
      cases failed
      rfl
    | ok => cases failed
  · rw [answered] at returned
    cases x with
    | error => cases returned
    | ok c =>
      obtain ⟨b, rest, inside⟩ := c
      cases returned
      exact next a j inside

def Stops {α : Type} (ts : Tokens) (i : Nat) (x : Parser α) (outcome : Except SyntaxError (α × Nat)) : Prop :=
  x ts i = .ends outcome

theorem stops_bind {x : Parser α} {a : α} {f : α → Parser β} {outcome : Except SyntaxError (β × Nat)}
    (returns : Stops ts i x (.ok (a, j))) (next : Stops ts j (f a) outcome) : Stops ts i (x >>= f) outcome := by
  show (x ts i).bind (fun a j => f a ts j) = _
  rw [returns]
  exact next

theorem comes_stops {x : Parser α} {a : α} {f : α → Parser β} (returns : Stops ts i x (.ok (a, j)))
    (next : Comes ts j p (f a)) : Comes ts i p (x >>= f) := by
  show Run.Comes ts p ((x ts i).bind fun a j => f a ts j)
  rw [returns]
  exact next

theorem comes_error {x : Parser α} {e : SyntaxError} {f : α → Parser β} (fails : Stops ts i x (.error e)) :
    Comes ts i (.error e) (x >>= f) := by
  show Run.Comes ts _ ((x ts i).bind fun a j => f a ts j)
  rw [fails]
  rfl

theorem after_cases (ts : Tokens) (i : Nat) : ts.after i = [] ∨ ∃ t, ts.after i = t :: ts.after (i + 1) := by
  cases starts : ts.after i with
  | nil => exact .inl rfl
  | cons t rest => exact .inr ⟨t, by rw [after_succ starts]⟩

theorem after_nil (none : ts.after i = []) : ts.after (i + 1) = [] := by
  rw [Tokens.after, ← List.drop_drop]
  exact congrArg (List.drop 1) none

theorem starts_cases (l : Lexeme) (ts : Tokens) (i : Nat) :
    (∃ pos, ts.after i = ⟨l, pos⟩ :: ts.after (i + 1)) ∨ ∀ pos rest, ts.after i ≠ ⟨l, pos⟩ :: rest := by
  rcases starts_or l (ts.after i) with ⟨pos, rest, starts⟩ | other
  · exact .inl ⟨pos, by rw [after_succ starts, starts]⟩
  · exact .inr other

theorem stops_peekAt (distance : Nat) : Stops ts i (peekAt distance) (.ok
    (((ts.after (i + distance)).head?.map Placed.lexeme, place ts.eof (ts.after (i + distance))), i)) := by
  unfold Stops peekAt
  rw [← Array.getElem?_toList, ← List.head?_drop]
  show _ = Run.ends (.ok (((ts.lexemes.toList.drop (i + distance)).head?.map _, _), i))
  rw [Tokens.after]
  cases ts.lexemes.toList.drop (i + distance) with
  | nil => rfl
  | cons t rest => rfl

theorem stops_peek_cons {l : Lexeme} {pos : Position} (starts : ts.after i = ⟨l, pos⟩ :: rest) :
    Stops ts i peek (.ok ((some l, pos), i)) := by
  have stops := @stops_peekAt ts i 0
  rw [Nat.add_zero, starts] at stops
  exact stops

theorem stops_peek_nil (none : ts.after i = []) : Stops ts i peek (.ok ((Option.none, ts.eof), i)) := by
  have stops := @stops_peekAt ts i 0
  rw [Nat.add_zero, none] at stops
  exact stops

theorem stops_accept {l : Lexeme} {pos : Position} (starts : ts.after i = ⟨l, pos⟩ :: rest) :
    Stops ts i (accept l) (.ok (true, i + 1)) := by
  refine stops_bind (stops_peek_cons starts) ?_
  dsimp only
  rw [if_pos rfl]
  rfl

theorem stops_accept_other {l : Lexeme} (other : ∀ pos rest, ts.after i ≠ ⟨l, pos⟩ :: rest) :
    Stops ts i (accept l) (.ok (false, i)) := by
  rcases after_cases ts i with none | ⟨⟨m, pos⟩, starts⟩
  · exact stops_bind (stops_peek_nil none) rfl
  · refine stops_bind (stops_peek_cons starts) ?_
    have different : some m ≠ some l := by
      rintro ⟨⟩
      exact other _ _ starts
    dsimp only
    rw [if_neg different]
    rfl

theorem comes_peek {f : Option Lexeme × Position → Parser β} (nil : ts.after i = [] → Comes ts i p (f (none, ts.eof)))
    (cons : ∀ l pos, ts.after i = ⟨l, pos⟩ :: ts.after (i + 1) → Comes ts i p (f (some l, pos))) :
    Comes ts i p (peek >>= f) := by
  rcases after_cases ts i with none | ⟨⟨l, pos⟩, starts⟩
  · exact comes_stops (stops_peek_nil none) (nil none)
  · exact comes_stops (stops_peek_cons starts) (cons l pos starts)

theorem comes_accept {l : Lexeme} {f : Bool → Parser β}
    (yes : ∀ inside, accept? l (ts.after i) = some ⟨ts.after (i + 1), inside⟩ → Comes ts (i + 1) p (f true))
    (no : accept? l (ts.after i) = none → Comes ts i p (f false)) : Comes ts i p (accept l >>= f) := by
  rcases starts_cases l ts i with ⟨pos, starts⟩ | other
  · exact comes_stops (stops_accept starts) (yes (length_lt_of_eq starts) (accept?_eq_some.2 ⟨pos, starts⟩))
  · exact comes_stops (stops_accept_other other) (no (accept?_eq_none.2 other))

theorem stops_unexpected {want : Wanted} :
    Stops ts i (Parser.unexpected want : Parser α) (.error (unexpected ts.eof want (ts.after i))) := by
  rcases after_cases ts i with none | ⟨⟨m, pos⟩, starts⟩
  · rw [none]
    exact stops_bind (stops_peek_nil none) rfl
  · rw [starts]
    exact stops_bind (stops_peek_cons starts) rfl

theorem comes_unexpected {want : Wanted} (same : ts.after i = rest) :
    Comes ts i (.error (unexpected ts.eof want rest)) (Parser.unexpected want : Parser β) := by
  subst same
  unfold Comes
  rw [stops_unexpected]
  rfl

theorem comes_expect {q : Punct} {f : Unit → Parser β} {g : Rest (ts.after i) → Except SyntaxError γ}
    {k : γ → β × List Placed} (next : ∀ inside, Comes ts (i + 1) ((g ⟨ts.after (i + 1), inside⟩).map k) (f ())) :
    Comes ts i ((expect ts.eof q (ts.after i) >>= g).map k) (Parser.expect q >>= f) := by
  rcases starts_cases (.punct q) ts i with ⟨pos, starts⟩ | other
  · have accepts : Stops ts i (Parser.expect q) (.ok ((), i + 1)) := stops_bind (stops_accept starts) rfl
    have found : expect ts.eof q (ts.after i) = .ok ⟨_, length_lt_of_eq starts⟩ := expect_eq_ok.2 ⟨pos, starts⟩
    rw [found]
    exact comes_stops accepts (next _)
  · have fails : Stops ts i (Parser.expect q) (.error (unexpected ts.eof (.punct q) (ts.after i))) :=
      stops_bind (stops_accept_other other) stops_unexpected
    unfold expect
    rw [accept?_eq_none.2 other]
    exact comes_error fails

theorem stops_applyUnary (pos : Position) (op : UnOp) (x : Expr) :
    Stops ts i (Parser.applyUnary pos op x) ((applyUnary pos op x).map fun e => (e, i)) := by
  unfold Parser.applyUnary
  split
  · rfl
  · rfl
  · cases x <;> simp_all <;> rfl
  · cases x <;> simp_all <;> rfl
  · cases op <;> cases x <;> simp_all <;> rfl

theorem comes_applyUnary {pos : Position} {op : UnOp} {x : Expr} {f : Expr → Parser β}
    {g : Expr → Except SyntaxError (β × List Placed)} (next : ∀ e, Comes ts i (g e) (f e)) :
    Comes ts i (applyUnary pos op x >>= g) (Parser.applyUnary pos op x >>= f) := by
  have stops := @stops_applyUnary ts i pos op x
  cases applied : applyUnary pos op x with
  | error e =>
    rw [applied] at stops
    exact comes_error stops
  | ok e =>
    rw [applied] at stops
    exact comes_stops stops (next e)

theorem comes_applied {pos : Position} {op : UnOp} {x : Expr} :
    Comes ts i ((applyUnary pos op x).map fun e => (e, ts.after i)) (Parser.applyUnary pos op x) := by
  unfold Comes
  rw [stops_applyUnary]
  cases applyUnary pos op x with
  | error e => rfl
  | ok e => rfl

theorem comes_type : Comes ts i (bare (type ts.eof (ts.after i))) Routine.typeBody := by
  refine comes_peek (fun none => ?_) fun l pos starts => ?_
  · rw [none]
    exact comes_unexpected none
  · rw [starts]
    cases l with
    | ident name =>
      cases known : type? name with
      | none =>
        simp only [type, known]
        exact comes_unexpected starts
      | some ty =>
        simp only [type, known]
        exact comes_advance rfl
    | _ => exact comes_unexpected starts

theorem comes_ident : Comes ts i (bare (ident ts.eof (ts.after i))) Routine.identBody := by
  refine comes_peek (fun none => ?_) fun l pos starts => ?_
  · rw [none]
    exact comes_unexpected none
  · rw [starts]
    cases l with
    | ident name =>
      unfold ident
      dsimp only
      split
      · exact comes_unexpected starts
      split
      · rfl
      · exact comes_advance rfl
    | _ => exact comes_unexpected starts

theorem comes_literal : Comes ts i (bare (literal ts.eof (ts.after i))) Routine.literalBody := by
  refine comes_peek (fun none => ?_) fun l pos starts => ?_
  · rw [none]
    exact comes_unexpected none
  · rw [starts]
    cases l with
    | int numeral =>
      cases read : Numeral.read 0xffffffffffffffff numeral with
      | error e =>
        simp only [literal, read]
        rfl
      | ok n =>
        simp only [literal, read]
        exact comes_advance rfl
    | char => exact comes_advance rfl
    | str => exact comes_advance rfl
    | _ => exact comes_unexpected starts

theorem comes_primary : Comes ts i (bare (primary ts.eof (ts.after i))) Routine.primaryBody := by
  refine comes_peek (fun none => ?_) fun l pos starts => ?_
  · rw [none, primary]
    exact comes_unexpected none
  · cases l with
    | ident name =>
      rw [starts, primary]
      refine comes_step (by rw [answer, starts]) fun name j inside => ?_
      refine comes_accept (fun _ opened => ?_) fun none => ?_
      · simp only [opened]
        exact comes_step rfl fun args k inside => rfl
      · simp only [none]
        rfl
    | punct q =>
      by_cases opened : q = .openParen
      · subst opened
        refine comes_last ?_
        rw [answer, starts, primary, condition, expect_head]
        rfl
      · have wrong : primary ts.eof (ts.after i) = .error (unexpected ts.eof .expression (ts.after i)) := by
          rw [starts, primary]
          rintro ⟨⟩
          exact opened rfl
        rw [wrong]
        cases q with
        | openParen => exact absurd rfl opened
        | _ => exact comes_unexpected rfl
    | _ =>
      rw [starts, primary]
      · exact comes_step (by rw [answer, starts]) fun l j inside => rfl
      all_goals simp

theorem comes_postfixed : Comes ts i (answer ts.eof .postfixed (ts.after i)) Routine.postfixedBody :=
  comes_then rfl fun _ _ => comes_last rfl

theorem comes_counters (operand : Expr) :
    Comes ts i (bare (postfixes operand (ts.after i))) (Routine.countersBody operand) := by
  rcases marked_or counting? (ts.after i) with ⟨q, pos, rest, op, starts, mark⟩ | other
  · refine comes_stops (stops_peek_cons starts) ?_
    simp only [mark]
    rw [starts, postfixes_mark mark]
    exact comes_applyUnary fun x => comes_advance (comes_last (by rw [answer, after_succ starts]))
  · rw [postfixes_other other]
    refine comes_peek (fun _ => rfl) fun l pos starts => ?_
    cases l with
    | punct q =>
      simp only [other _ _ _ starts]
      rfl
    | _ => rfl

theorem comes_unary : Comes ts i (bare (unary ts.eof (ts.after i))) Routine.unaryBody := by
  rcases marked_or unary? (ts.after i) with ⟨q, pos, rest, op, starts, mark⟩ | other
  · refine comes_stops (stops_peek_cons starts) ?_
    simp only [mark]
    rw [starts, unary_mark mark]
    refine comes_advance (comes_then (by rw [answer, after_succ starts]) fun x j => ?_)
    exact comes_applied
  · rw [unary_other other]
    refine comes_peek (fun _ => comes_last rfl) fun l pos starts => ?_
    cases l with
    | punct q =>
      simp only [other _ _ _ starts]
      exact comes_last rfl
    | _ => exact comes_last rfl

theorem comes_binary (level : Fin 11) :
    Comes ts i (bare (expr ts.eof level (ts.after i))) (Routine.binaryBody level) := by
  unfold Routine.binaryBody
  split
  · rename_i below
    rw [expr_succ below]
    exact comes_then rfl fun x j => comes_last rfl
  · have last : level.val = 10 := by omega
    rw [last, expr_ten]
    exact comes_last rfl

theorem comes_operators (level : Fin 10) (left : Expr) :
    Comes ts i (turns ts.eof level left (ts.after i)) (Routine.operatorsBody level left) := by
  by_cases marked : ∃ q pos rest op, ts.after i = ⟨.punct q, pos⟩ :: rest ∧ binary? q = some (op, level.val)
  · obtain ⟨q, pos, rest, op, starts, mark⟩ := marked
    refine comes_stops (stops_peek_cons starts) ?_
    simp only [mark, if_pos]
    rw [starts, turns_mark mark]
    exact comes_advance (comes_then (by rw [answer, after_succ starts]; rfl) fun right j => comes_last rfl)
  · have other : ∀ q pos rest op own, ts.after i = ⟨.punct q, pos⟩ :: rest → binary? q = some (op, own) → own ≠ level := by
      rintro q pos rest op own starts mark rfl
      exact marked ⟨q, pos, rest, op, starts, mark⟩
    rw [turns_other other]
    refine comes_peek (fun _ => rfl) fun l pos starts => ?_
    cases l with
    | punct q =>
      cases mark : binary? q with
      | none =>
        simp only [mark]
        rfl
      | some found =>
        simp only [mark, if_neg (other _ _ _ _ _ starts mark)]
        rfl
    | _ => rfl

theorem comes_weaken {x : Except SyntaxError (β × { rest : List Placed // P rest })} {Q : List Placed → Prop}
    {f : β × { rest : List Placed // P rest } → Except SyntaxError (β × { rest : List Placed // Q rest })} {y : Parser β}
    (same : ∀ b rest, bare (f (b, rest)) = .ok (b, rest.1)) (comes : Comes ts i (bare x) y) :
    Comes ts i (bare (x >>= f)) y := by
  rw [bare_weaken same]
  exact comes

theorem comes_again {r : Routine (List α)} {before more : List α} {Q : List Placed → Prop}
    {x : Except SyntaxError (List α × { rest : List Placed // P rest })}
    {f : List α × { rest : List Placed // P rest } → Except SyntaxError (List α × { rest : List Placed // Q rest })}
    (answered : answer ts.eof r (ts.after i) = behind (before ++ more) x)
    (same : ∀ as rest, bare (f (as, rest)) = .ok (more ++ as, rest.1)) :
    Comes ts i (behind before (x >>= f)) (call r) :=
  comes_last ((behind_bind same).trans answered.symm)

theorem comes_end {before : List α} : Comes ts i (.ok (before ++ [], ts.after i)) (pure before : Parser (List α)) := by
  rw [List.append_nil]
  rfl

theorem comes_arguments (before : List Expr) :
    Comes ts i (behind before (arguments ts.eof before.isEmpty (ts.after i))) (Routine.argumentsBody before) := by
  unfold arguments
  refine comes_accept (fun _ closed => ?_) fun none => ?_
  · simp only [closed]
    exact comes_end
  · simp only [none]
    have later : ∀ x j, answer ts.eof (.arguments (before ++ [x])) (ts.after j) =
        behind (before ++ [x]) (arguments ts.eof false (ts.after j)) := by
      intro x j
      rw [answer, List.isEmpty_eq_false_iff.2 (by simp)]
    cases before with
    | nil =>
      have first : Stops ts i (separator ([] : List Expr)) (.ok ((), i)) := rfl
      exact comes_stops first (comes_step rfl fun x j _ => comes_again (later x j) fun _ _ => rfl)
    | cons => exact comes_expect fun _ => comes_step rfl fun x j _ => comes_again (later x j) fun _ _ => rfl

theorem comes_condition : Comes ts i (bare (condition ts.eof (ts.after i))) Routine.conditionBody :=
  comes_expect fun _ => comes_step rfl fun _ _ _ => comes_expect fun _ => rfl

theorem comes_exprStmt : Comes ts i (bare (exprStmt ts.eof (ts.after i))) Routine.exprStmtBody :=
  comes_stops (stops_peekAt 0) (comes_step rfl fun _ _ _ => comes_expect fun _ => rfl)

theorem comes_declaration (pos : Position) (ty : Ty) :
    Comes ts i (bare (declaration ts.eof pos ty (ts.after i))) (Routine.declarationBody pos ty) := by
  refine comes_step rfl fun name j inside => ?_
  dsimp only
  split
  · rfl
  refine comes_accept (fun _ given => ?_) fun none => ?_
  · simp only [given]
    exact comes_step rfl fun _ _ _ => comes_expect fun _ => rfl
  · simp only [none]
    split
    · rfl
    · exact comes_expect fun _ => rfl

theorem comes_returned (pos : Position) :
    Comes ts i (bare (returned ts.eof pos (ts.after i))) (Routine.returnBody pos) := by
  unfold returned
  refine comes_accept (fun _ ended => ?_) fun none => ?_
  · simp only [ended]
    rfl
  · simp only [none]
    exact comes_step rfl fun _ _ _ => comes_expect fun _ => rfl

theorem ident_cons (eof : Position) (t : Placed) (rest : List Placed) :
    bare (ident eof (t :: rest)) = (ident eof [t]).map fun found => (found.1, rest) := by
  obtain ⟨l, pos⟩ := t
  cases l with
  | ident name =>
    unfold ident
    dsimp only
    split
    · rfl
    split
    · rfl
    · rfl
  | _ => rfl

theorem comes_named (pos : Position) : Comes ts i (bare (named ts.eof pos (ts.after i))) (Routine.namedBody pos) := by
  refine comes_stops (stops_peekAt 1) ?_
  dsimp only
  rcases starts_cases (.punct .assign) ts (i + 1) with ⟨mark, assigns⟩ | other
  · have found : (ts.after (i + 1)).head?.map Placed.lexeme = some (.punct .assign) := by rw [assigns]; rfl
    rw [if_pos found]
    rcases after_cases ts i with none | ⟨first, starts⟩
    · rw [after_nil none] at assigns
      cases assigns
    · rw [assigns] at starts
      rw [starts, named]
      have answered := ident_cons ts.eof first (⟨.punct .assign, mark⟩ :: ts.after (i + 1 + 1))
      refine comes_call (fun e failed => ?_) fun name j returned => comes_advance ?_
      · rw [answer, starts, answered] at failed
        cases read : ident ts.eof [first] with
        | error e' =>
          rw [read] at failed
          cases failed
          rfl
        | ok found =>
          rw [read] at failed
          cases failed
      · rw [answer, starts, answered] at returned
        cases read : ident ts.eof [first] with
        | error e =>
          rw [read] at returned
          cases returned
        | ok found =>
          rw [read] at returned
          obtain ⟨rfl, same⟩ := Prod.mk.inj (Except.ok.inj returned)
          rw [← after_succ same.symm]
          show Comes ts (j + 1) ((expr ts.eof 0 (ts.after (j + 1)) >>= _).map _) _
          exact comes_step rfl fun _ _ _ => comes_expect fun _ => rfl
  · have missing : (ts.after (i + 1)).head?.map Placed.lexeme ≠ some (.punct .assign) := by
      intro found
      rcases after_cases ts (i + 1) with none | ⟨⟨l, mark⟩, starts⟩
      · rw [none] at found
        cases found
      · rw [starts] at found
        cases found
        exact other _ _ starts
    rw [if_neg missing]
    have plain : named ts.eof pos (ts.after i) = exprStmt ts.eof (ts.after i) := by
      rw [named]
      intro first mark rest starts
      exact other mark rest (after_succ starts)
    rw [plain]
    exact comes_last rfl

theorem comes_stmt : Comes ts i (bare (stmt ts.eof (ts.after i))) Routine.stmtBody := by
  refine comes_peek (fun none => comes_last ?_) fun l pos starts => ?_
  · rw [answer, none, stmt]
    all_goals simp
  · cases l with
    | punct q =>
      by_cases brace : q = .openBrace
      · subst brace
        refine comes_last ?_
        rw [answer, starts, stmt, block, expect_head]
        rfl
      by_cases semicolon : q = .semicolon
      · subst semicolon
        rw [starts, stmt]
        exact comes_advance rfl
      have plain : Comes ts i (bare (stmt ts.eof (ts.after i))) (call .exprStmt) := by
        refine comes_last ?_
        rw [answer, starts, stmt]
        · rintro _ _ ⟨⟩
          exact brace rfl
        · rintro _ _ ⟨⟩
          exact semicolon rfl
        · simp
      cases q with
      | openBrace => exact absurd rfl brace
      | semicolon => exact absurd rfl semicolon
      | _ => exact plain
    | ident name =>
      cases known : type? name with
      | some ty =>
        rw [starts, stmt]
        simp only [known]
        exact comes_advance (comes_weaken (fun _ _ => rfl) (comes_declaration pos ty))
      | none =>
        rw [starts, stmt]
        simp only [known]
        split
        · refine comes_advance (comes_step rfl fun check j _ => comes_step rfl fun body k _ => ?_)
          dsimp only
          refine comes_accept (fun _ found => ?_) fun none => ?_
          · simp only [found]
            exact comes_step rfl fun _ _ _ => rfl
          · simp only [none]
            rfl
        split
        · exact comes_advance (comes_step rfl fun _ _ _ => comes_step rfl fun _ _ _ => rfl)
        split
        · exact comes_advance (comes_expect fun _ => rfl)
        split
        · exact comes_advance (comes_expect fun _ => rfl)
        split
        · exact comes_advance (comes_weaken (fun _ _ => rfl) (comes_returned pos))
        · rw [← starts]
          exact comes_named pos
    | _ =>
      refine comes_last ?_
      rw [answer, starts, stmt]
      all_goals simp

theorem comes_stmts (before : List Stmt) :
    Comes ts i (behind before (stmts ts.eof (ts.after i))) (Routine.stmtsBody before) := by
  unfold stmts
  refine comes_accept (fun _ closed => ?_) fun none => ?_
  · simp only [closed]
    exact comes_end
  · simp only [none]
    refine comes_peek (fun none => ?_) fun l pos starts => ?_
    · rw [if_pos (by rw [none]; rfl)]
      rfl
    · rw [if_neg (by rw [starts]; exact Bool.false_ne_true)]
      exact comes_step rfl fun s j _ => comes_again rfl fun _ _ => rfl

theorem comes_block : Comes ts i (bare (block ts.eof (ts.after i))) Routine.blockBody := by
  refine comes_expect fun _ => comes_last ?_
  exact bare_weaken fun _ _ => rfl

theorem comes_params (before : List Param) :
    Comes ts i (behind before (params ts.eof before.isEmpty (ts.after i))) (Routine.paramsBody before) := by
  unfold params
  refine comes_accept (fun _ closed => ?_) fun none => ?_
  · simp only [closed]
    exact comes_end
  · simp only [none]
    have later : ∀ p j, answer ts.eof (.params (before ++ [p])) (ts.after j) =
        behind (before ++ [p]) (params ts.eof false (ts.after j)) := by
      intro p j
      rw [answer, List.isEmpty_eq_false_iff.2 (by simp)]
    cases before with
    | nil =>
      have first : Stops ts i (separator ([] : List Param)) (.ok ((), i)) := rfl
      refine comes_stops first ?_
      exact comes_step rfl fun ty j _ => comes_step rfl fun name k _ => comes_again (later _ k) fun _ _ => rfl
    | cons =>
      simp only [List.isEmpty_cons, Bool.false_eq_true, if_false, map_bind]
      refine comes_expect fun _ => ?_
      exact comes_step rfl fun ty j _ => comes_step rfl fun name k _ => comes_again (later _ k) fun _ _ => rfl

theorem comes_global (pos : Position) (ty : Ty) (name : Name) :
    Comes ts i (bare (globalRest ts.eof pos ty name (ts.after i))) (Routine.globalBody pos ty name) := by
  unfold globalRest Routine.globalBody
  split
  · rfl
  refine comes_accept (fun _ given => ?_) fun none => ?_
  · simp only [given]
    exact comes_step rfl fun _ _ _ => comes_expect fun _ => rfl
  · simp only [none]
    split
    · rfl
    · exact comes_expect fun _ => rfl

theorem comes_function (pos : Position) (ty : Ty) (name : Name) :
    Comes ts i (bare (functionRest ts.eof pos ty name (ts.after i))) (Routine.functionBody pos ty name) := by
  refine comes_step rfl fun ps j inside => ?_
  dsimp only
  refine comes_accept (fun _ ended => ?_) fun none => ?_
  · simp only [ended]
    rfl
  · simp only [none]
    exact comes_step rfl fun _ _ _ => rfl

theorem comes_decl : Comes ts i (bare (decl ts.eof (ts.after i))) Routine.declBody := by
  refine comes_stops (stops_peekAt 0) ?_
  refine comes_step rfl fun ty j _ => comes_step rfl fun name k _ => ?_
  dsimp only
  refine comes_accept (fun _ opened => ?_) fun none => ?_
  · simp only [opened]
    exact comes_weaken (fun _ _ => rfl) (comes_function _ ty name)
  · simp only [none]
    exact comes_weaken (fun _ _ => rfl) (comes_global _ ty name)

theorem comes_decls (before : List Decl) :
    Comes ts i ((decls ts.eof (ts.after i)).map fun ds => (before ++ ds, [])) (Routine.declsBody before) := by
  refine comes_peek (fun none => ?_) fun l pos starts => ?_
  · rw [none, decls, ← none]
    exact comes_end
  · rw [starts, decls]
    refine comes_step (by rw [answer, starts]) fun d j _ => comes_last ?_
    show (decls ts.eof (ts.after j) >>= fun ds => .ok (d :: ds)).map _ = _
    rw [answer]
    cases decls ts.eof (ts.after j) with
    | error e => rfl
    | ok ds => exact congrArg (fun ds => Except.ok (ds, [])) (List.append_cons before d ds)

theorem comes_body (r : Routine α) : Comes ts i (answer ts.eof r (ts.after i)) r.body := by
  cases r with
  | type => exact comes_type
  | ident => exact comes_ident
  | literal => exact comes_literal
  | primary => exact comes_primary
  | arguments before => exact comes_arguments before
  | postfixed => exact comes_postfixed
  | counters operand => exact comes_counters operand
  | unary => exact comes_unary
  | binary level => exact comes_binary level
  | operators level left => exact comes_operators level left
  | expr => exact comes_last rfl
  | condition => exact comes_condition
  | exprStmt => exact comes_exprStmt
  | stmt => exact comes_stmt
  | stmts before => exact comes_stmts before
  | block => exact comes_block
  | params before => exact comes_params before
  | decl => exact comes_decl
  | decls before => exact comes_decls before

end

end Climbing

open Climbing

section

variable {α : Type} {ts : Tokens}

theorem Parser.Run.Comes.eq_map {x : Run α} {outcome : Except SyntaxError (α × Nat)} (ends : x.outcome ts = some outcome) :
    ∀ {p}, x.Comes ts p → p = outcome.map fun (a, j) => (a, ts.after j) := by
  refine Run.outcome.partial_correctness ts
    (fun x outcome => ∀ {p}, x.Comes ts p → p = outcome.map fun (a, j) => (a, ts.after j)) ?_ x outcome ends
  intro next ih α x outcome ends p comes
  cases x with
  | ends =>
    cases ends
    exact comes
  | calls r i later =>
    obtain ⟨called, calls, ends⟩ := Option.bind_eq_some_iff.1 ends
    have answered := ih _ _ calls (comes_body r)
    unfold Run.Comes at comes
    rw [answered] at comes
    cases called with
    | error e =>
      cases ends
      exact comes
    | ok read => exact ih _ _ ends (comes read.2 rfl)

theorem Parser.Call.outcome_eq (c : Call) : ∃ outcome, c.outcome ts = some outcome ∧
    (∀ a j, outcome = .ok (a, j) → Moves ts c.routine c.index j) ∧
      answer ts.eof c.routine (ts.after c.index) = outcome.map fun (a, j) => (a, ts.after j) := by
  obtain ⟨outcome, ends, moves⟩ := c.ends ts
  exact ⟨outcome, ends, moves, Run.Comes.eq_map ends (comes_body c.routine)⟩

end

theorem parse_eq (text : Bytes) :
    parse text = (do
      let ls ← lexemes text
      let ds ← decls (.ofOffset text text.length) ls
      .ok (program ds)) := by
  have ends : ∀ ls, ∃ outcome, Call.outcome ⟨ls.toArray, .ofOffset text text.length⟩ ⟨.decls [], 0⟩ = some outcome ∧
      outcome.map Prod.fst = decls (.ofOffset text text.length) ls := by
    intro ls
    obtain ⟨outcome, ends, _, same⟩ := @Call.outcome_eq ⟨ls.toArray, .ofOffset text text.length⟩ ⟨.decls [], 0⟩
    refine ⟨outcome, ends, ?_⟩
    have same : (decls (.ofOffset text text.length) ls).map _ = _ := same
    cases read : decls (.ofOffset text text.length) ls with
    | error e =>
      rw [read] at same
      cases outcome with
      | error e' =>
        cases same
        rfl
      | ok => cases same
    | ok ds =>
      rw [read] at same
      cases outcome with
      | error e' => cases same
      | ok found => exact congrArg Except.ok (Prod.mk.inj (Except.ok.inj same)).1.symm
  refine Option.get_of_eq_some _ ?_
  unfold parse? tokens
  cases lexemes text with
  | error e => rfl
  | ok ls =>
    obtain ⟨outcome, comes, same⟩ := ends ls
    show (Call.outcome _ _).map _ = some (decls _ ls >>= fun ds => .ok (program ds))
    rw [comes, ← same]
    cases outcome with
    | error e => rfl
    | ok found => rfl

end MiniC.Source
