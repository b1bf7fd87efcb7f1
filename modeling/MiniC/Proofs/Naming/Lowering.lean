import MiniC.Proofs.Lowering.Outcome
import MiniC.Proofs.Naming.Notes
import MiniC.Proofs.Source.Grammar

namespace MiniC.Code

/-- A computation that may generate names and may fail, and that notes what it does. -/
def Noted (α : Type) : Type :=
  Namer → Option (α × Namer × List Note)

namespace Noted

instance : Monad Noted where
  pure a := fun names => some (a, names, [])
  bind x f := fun names => do
    let (a, names, notes) ← x names
    let (b, names, more) ← f a names
    some (b, names, notes ++ more)

def make (kind : Bytes) : Noted Name :=
  fun names => some ((names.fresh kind).1, (names.fresh kind).2, [.makes (names.fresh kind).1])

def write (s : Stmt) : Noted Unit :=
  fun names => some ((), names, [.writes s])

def give {α : Type} (x : Option α) : Noted α :=
  fun names => x.map fun a => (a, names, [])

def dest (operand : Name) : Noted Name :=
  if Name.isGenerated operand then pure operand else make Name.temporary

def unary (op : UnOp) (arg : Name) : Noted Name := do
  let res ← dest arg
  write (.plain (.unary op res arg))
  pure res

def binary (op : BinOp) (left right : Name) : Noted Name := do
  let res ← dest left
  write (.plain (.binary op res left right))
  pure res

def one : Noted Name := do
  let res ← make Name.temporary
  write (.plain (.store res (some (.int 1))))
  pure res

def count (op : BinOp) (var : Name) : Noted Name := do
  let unit ← one
  write (.plain (.binary op var var unit))
  pure var

def compareNext (op step : BinOp) (left right : Name) : Noted Name := do
  let unit ← one
  let bound ← binary step right unit
  binary op left bound

mutual

def expr : Source.Expr → Noted Name
  | .missing => give none
  | .var _ name => pure name
  | .literal l => do
    let value ← give (OfSource.constant l).toOption
    let res ← make Name.temporary
    write (.plain (.store res (some value)))
    pure res
  | .call _ callee xs => do
    let names ← args xs
    let res ← make Name.temporary
    write (.plain (.call callee names res))
    pure res
  | .unary _ op x => do
    let arg ← expr x
    match op with
    | .not => unary .logNeg arg
    | .invert => unary .bitNeg arg
    | .negate => unary .minus arg
    | .increment => count .add arg
    | .decrement => count .sub arg
    | .unknown _ _ => give none
  | .binary _ .le l r => do
    let left ← expr l
    let right ← expr r
    compareNext .lt .add left right
  | .binary _ .ge l r => do
    let left ← expr l
    let right ← expr r
    compareNext .gt .sub left right
  | .binary _ op l r =>
    match OfSource.binOp? op with
    | none => give none
    | some bop => do
      let left ← expr l
      let right ← expr r
      binary bop left right

def args : List Source.Expr → Noted (List Name)
  | [] => pure []
  | x :: xs => do
    let name ← expr x
    let names ← args xs
    pure (name :: names)

end

def assign (target : Name) (value : Source.Expr) : Noted Unit := do
  let name ← expr value
  write (.plain (.unary .copy target name))

mutual

def stmt (loop : Option OfSource.Loop) : Source.Stmt → Noted Unit
  | .missing => give none
  | .assign _ target value => assign target value
  | .declare _ ty _ .missing => if ty = .string then give none else pure ()
  | .declare _ _ name init => assign name init
  | .returnStmt _ .missing => write (.plain (.ret []))
  | .returnStmt _ value => do
    let res ← make Name.temporary
    assign res value
    write (.plain (.ret res))
  | .breakStmt _ =>
    match loop with
    | some l => write (.plain (.jump l.exit))
    | none => give none
  | .continueStmt _ =>
    match loop with
    | some l => write (.plain (.jump l.check))
    | none => give none
  | .whileStmt _ check body => do
    let start ← make Name.label
    let exit ← make Name.label
    let inner ← make Name.label
    let again ← make Name.label
    let flag ← make Name.temporary
    write (.mark start)
    write (.mark again)
    assign flag check
    write (.plain (.branch .zero flag exit))
    write (.mark inner)
    stmts (some ⟨again, exit⟩) body
    write (.plain (.jump again))
    write (.mark exit)
  | .ifStmt _ check thenBody elseBody => do
    let flag ← make Name.temporary
    let other ← make Name.label
    let exit ← make Name.label
    assign flag check
    write (.plain (.branch .zero flag other))
    stmts loop thenBody
    write (.plain (.jump exit))
    write (.mark other)
    stmts loop elseBody
    write (.mark exit)
  | .exprStmt _ value => do
    let _ ← expr value

def stmts (loop : Option OfSource.Loop) : List Source.Stmt → Noted Unit
  | [] => pure ()
  | s :: ss => do
    stmt loop s
    stmts loop ss

end

def function (f : Source.Function) : Noted Unit :=
  if f.external then pure () else stmts none f.body

def functions : List Source.Function → Noted Unit
  | [] => pure ()
  | f :: fs => do
    function f
    functions fs

section

variable {α β γ δ : Type} {names names' : Namer} {notes : List Note}

theorem bind_some {x : Noted α} {f : α → Noted β} {b : β} :
    (x >>= f) names = some (b, names', notes) ↔ ∃ a mid first second, x names = some (a, mid, first) ∧
      f a mid = some (b, names', second) ∧ notes = first ++ second := by
  change ((x names).bind fun out => (f out.1 out.2.1).bind fun out' =>
    some (out'.1, out'.2.1, out.2.2 ++ out'.2.2)) = some (b, names', notes) ↔ _
  constructor
  · intro done
    obtain ⟨⟨a, mid, first⟩, isFirst, done⟩ := Option.bind_eq_some_iff.1 done
    obtain ⟨⟨b', names'', second⟩, isSecond, done⟩ := Option.bind_eq_some_iff.1 done
    cases done
    exact ⟨a, mid, first, second, isFirst, isSecond, rfl⟩
  · rintro ⟨a, mid, first, second, isFirst, isSecond, rfl⟩
    rw [isFirst, Option.bind_some, isSecond, Option.bind_some]

/-- Whatever `x` gives, `y` gives something to go with it and with the code that it writes. -/
def Follows (y : Noted β) (x : OfSource.Lower α) (R : α → β → List Stmt → Prop) : Prop :=
  ∀ names a names', x names = .ok (a, names') →
    ∃ b notes, y names = some (b, names', notes) ∧ R a b (Note.written notes)

end

namespace Follows

open OfSource (Lower Step Cause Error)

variable {α β γ δ : Type} {x : Lower α} {y : Noted β} {R R' : α → β → List Stmt → Prop}

theorem pure {a : α} {b : β} (holds : R a b []) : Follows (pure b) (pure a) R := by
  intro names a' names' ok
  obtain ⟨rfl, rfl⟩ := OfSource.pure_ok.1 ok
  exact ⟨b, [], rfl, holds⟩

theorem bind {f : α → Lower γ} {g : β → Noted δ} {S : γ → δ → List Stmt → Prop} (first : Follows y x R)
    (next : ∀ a b code, R a b code → Follows (g b) (f a) fun c d more => S c d (code ++ more)) :
    Follows (y >>= g) (x >>= f) S := by
  intro names c names' ok
  obtain ⟨a, mid, isFirst, isSecond⟩ := OfSource.bind_ok.1 ok
  obtain ⟨b, notes, done, holds⟩ := first names a mid isFirst
  obtain ⟨d, more, done', holds'⟩ := next a b _ holds mid c names' isSecond
  refine ⟨d, notes ++ more, bind_some.2 ⟨b, mid, notes, more, done, done', rfl⟩, ?_⟩
  rwa [Note.written_append]

theorem map {f : α → γ} {S : γ → β → List Stmt → Prop} (follows : Follows y x R)
    (holds : ∀ a b code, R a b code → S (f a) b code) : Follows y (x >>= fun a => Pure.pure (f a)) S := by
  intro names c names' ok
  obtain ⟨a, mid, isFirst, isSecond⟩ := OfSource.bind_ok.1 ok
  obtain ⟨rfl, rfl⟩ := OfSource.pure_ok.1 isSecond
  obtain ⟨b, notes, done, holds'⟩ := follows names a mid isFirst
  exact ⟨b, notes, done, holds _ _ _ holds'⟩

theorem write {s : Stmt} {g : Unit → Noted β} (next : Follows (g ()) x fun a b code => R a b (s :: code)) :
    Follows (Noted.write s >>= g) x R := by
  intro names a names' ok
  obtain ⟨b, notes, done, holds⟩ := next names a names' ok
  exact ⟨b, .writes s :: notes, bind_some.2 ⟨(), names, [.writes s], notes, rfl, done, rfl⟩, holds⟩

theorem last {s : Stmt} {a : α} {S : α → Unit → List Stmt → Prop} (holds : S a () [s]) :
    Follows (Noted.write s) (Pure.pure a) S := by
  intro names a' names' ok
  obtain ⟨rfl, rfl⟩ := OfSource.pure_ok.1 ok
  exact ⟨(), [.writes s], rfl, holds⟩

theorem make {kind : Bytes} {f : Name → Lower α} {g : Name → Noted β} (next : ∀ name, Follows (g name) (f name) R) :
    Follows (Noted.make kind >>= g) (OfSource.fresh kind >>= f) R := by
  intro names a names' ok
  obtain ⟨name, mid, made, rest⟩ := OfSource.bind_ok.1 ok
  rw [OfSource.fresh_ok] at made
  obtain ⟨b, notes, done, holds⟩ := next name mid a names' rest
  refine ⟨b, .makes name :: notes, bind_some.2 ⟨name, mid, [.makes name], notes, ?_, done, rfl⟩, holds⟩
  rw [Noted.make, made]

theorem bind_give {e : Except Error γ} {f : γ → Lower α} {g : γ → Noted β} (next : ∀ c, Follows (g c) (f c) R) :
    Follows (Noted.give e.toOption >>= g) ((liftM e : Lower γ) >>= f) R := by
  intro names a names' ok
  obtain ⟨c, mid, lifted, rest⟩ := OfSource.bind_ok.1 ok
  obtain ⟨rfl, rfl⟩ := OfSource.lift_ok.1 lifted
  obtain ⟨b, notes, done, holds⟩ := next c names a names' rest
  exact ⟨b, notes, bind_some.2 ⟨c, names, [], notes, rfl, done, rfl⟩, holds⟩

theorem inside {step : Step} (follows : Follows y x R) : Follows y (OfSource.inside step x) R :=
  fun names a names' ok => follows names a names' (OfSource.inside_ok.1 ok)

theorem refuse {cause : Cause} : Follows y (OfSource.refuse cause) R :=
  fun _ _ _ ok => absurd ok OfSource.refuse_ok

theorem mono (follows : Follows y x R) (weaker : ∀ a b code, R a b code → R' a b code) : Follows y x R' := by
  intro names a names' ok
  obtain ⟨b, notes, done, holds⟩ := follows names a names' ok
  exact ⟨b, notes, done, weaker _ _ _ holds⟩

end Follows

def Extends {β : Type} (before : List Stmt) (out : List Stmt × β) (b : β) (code : List Stmt) : Prop :=
  out = (before ++ code, b)

theorem follows_dest (operand : Name) :
    Follows (dest operand) (OfSource.dest operand) fun a b code => a = b ∧ code = [] := by
  unfold dest OfSource.dest
  split
  · exact .pure ⟨rfl, rfl⟩
  · intro names a names' ok
    rw [OfSource.fresh_ok] at ok
    exact ⟨a, [.makes a], by rw [make, ok], rfl, rfl⟩

theorem follows_unary (before : List Stmt) (op : UnOp) (arg : Name) :
    Follows (unary op arg) (OfSource.unary before op arg) (Extends before) := by
  refine .bind (follows_dest arg) ?_
  rintro res _ _ ⟨rfl, rfl⟩
  exact .write (.pure rfl)

theorem follows_binary (before : List Stmt) (op : BinOp) (left right : Name) :
    Follows (binary op left right) (OfSource.binary before op left right) (Extends before) := by
  refine .bind (follows_dest left) ?_
  rintro res _ _ ⟨rfl, rfl⟩
  exact .write (.pure rfl)

theorem follows_one (before : List Stmt) : Follows one (OfSource.one before) (Extends before) :=
  .make fun _ => .write (.pure rfl)

theorem follows_count (before : List Stmt) (op : BinOp) (var : Name) :
    Follows (count op var) (OfSource.count before op var) (Extends before) := by
  refine .bind (follows_one before) ?_
  rintro _ unit code rfl
  exact .write (.pure (by simp [Extends]))

theorem follows_compareNext (before : List Stmt) (op step : BinOp) (left right : Name) :
    Follows (compareNext op step left right) (OfSource.compareNext before op step left right) (Extends before) := by
  refine .bind (follows_one before) ?_
  rintro _ unit code rfl
  refine .bind (follows_binary _ step right unit) ?_
  rintro _ bound more rfl
  refine (follows_binary _ op left bound).mono ?_
  rintro _ res last rfl
  simp [Extends]

theorem follows_operands {f : List Stmt → Name → Name → OfSource.Lower (List Stmt × Name)}
    {first second : OfSource.Lower (List Stmt × Name)} {g : Name → Name → Noted Name} {first' second' : Noted Name}
    (left : Follows first' first (Extends [])) (right : Follows second' second (Extends []))
    (next : ∀ before x y, Follows (g x y) (f before x y) (Extends before)) :
    Follows (do g (← first') (← second')) (do
      let (before, x) ← first
      let (code, y) ← second
      f (before ++ code) x y) (Extends []) := by
  refine .bind left ?_
  rintro _ x before rfl
  refine .bind right ?_
  rintro _ y code rfl
  refine (next _ x y).mono ?_
  rintro _ res last rfl
  simp [Extends]

mutual

theorem follows_expr : ∀ e : Source.Expr, Follows (expr e) (OfSource.expr e) (Extends [])
  | .missing => .refuse
  | .var _ _ => .pure rfl
  | .literal _ => .bind_give fun _ => .make fun _ => .write (.pure rfl)
  | .call _ callee xs => by
    refine .bind (follows_args callee 0 xs) ?_
    rintro _ names code rfl
    exact .make fun _ => .write (.pure (by simp [Extends]))
  | .unary pos op x => by
    refine .bind (follows_expr x) ?_
    rintro _ arg code rfl
    cases op with
    | unknown => exact .refuse
    | not | invert | negate => exact follows_unary _ _ arg
    | increment | decrement => exact follows_count _ _ arg
  | .binary pos op l r => by
    cases op with
    | le | ge =>
      exact follows_operands (.inside (follows_expr l)) (.inside (.inside (follows_expr r)))
        fun before x y => follows_compareNext before _ _ x y
    | unknown => exact .refuse
    | _ =>
      exact follows_operands (.inside (follows_expr l)) (.inside (follows_expr r))
        fun before x y => follows_binary before _ x y

theorem follows_args (callee : Name) (index : Nat) :
    ∀ xs : List Source.Expr, Follows (args xs) (OfSource.args callee index xs) (Extends [])
  | [] => .pure rfl
  | x :: xs => by
    refine .bind (.inside (follows_expr x)) ?_
    rintro _ name before rfl
    refine .bind (follows_args callee (index + 1) xs) ?_
    rintro _ names code rfl
    exact .pure (by simp [Extends])

end

def Gives (code : List Stmt) (_ : Unit) (written : List Stmt) : Prop :=
  code = written

theorem follows_assign (target : Name) (value : Source.Expr) :
    Follows (assign target value) (OfSource.assign target value) Gives := by
  refine .bind (follows_expr value) ?_
  rintro _ name code rfl
  exact .last rfl

mutual

theorem follows_stmt (loop : Option OfSource.Loop) :
    ∀ s : Source.Stmt, Follows (stmt loop s) (OfSource.stmt loop s) Gives
  | .missing => .refuse
  | .assign _ target value => follows_assign target value
  | .declare pos ty name init => by
    cases init with
    | missing =>
      unfold stmt OfSource.stmt
      split
      · exact .refuse
      · exact .pure rfl
    | _ => exact follows_assign name _
  | .returnStmt pos value => by
    cases value with
    | missing => exact .last rfl
    | _ =>
      refine .make fun res => .bind (.inside (follows_assign res _)) ?_
      rintro _ _ code rfl
      exact .last rfl
  | .breakStmt _ | .continueStmt _ => by
    cases loop with
    | some => exact .last rfl
    | none => exact .refuse
  | .whileStmt _ check body => by
    refine .make fun start => .make fun exit => .make fun inner => .make fun again => .make fun flag => ?_
    refine .write (.write (.bind (.inside (follows_assign flag check)) ?_))
    rintro _ _ test rfl
    refine .write (.write (.bind (follows_stmts (some ⟨again, exit⟩) body) ?_))
    rintro _ _ code rfl
    exact .write (.last (by simp [Gives]))
  | .ifStmt _ check thenBody elseBody => by
    refine .make fun flag => .make fun other => .make fun exit => .bind (.inside (follows_assign flag check)) ?_
    rintro _ _ test rfl
    refine .write (.bind (follows_stmts loop thenBody) ?_)
    rintro _ _ thenCode rfl
    refine .write (.write (.bind (follows_stmts loop elseBody) ?_))
    rintro _ _ elseCode rfl
    exact .last (by simp [Gives])
  | .exprStmt _ value => by
    refine .bind (follows_expr value) ?_
    rintro _ name code rfl
    exact .pure (by simp [Gives])

theorem follows_stmts (loop : Option OfSource.Loop) :
    ∀ ss : List Source.Stmt, Follows (stmts loop ss) (OfSource.stmts loop ss) Gives
  | [] => .pure rfl
  | s :: ss => by
    refine .bind (follows_stmt loop s) ?_
    rintro _ _ before rfl
    refine .map (follows_stmts loop ss) ?_
    rintro _ _ code rfl
    rfl

end

theorem follows_function (f : Source.Function) :
    Follows (function f) (OfSource.function f) fun g _ code =>
      g = ⟨f.name, OfSource.knownTy f.result, f.params.map OfSource.param, f.external, code, none⟩ := by
  unfold function OfSource.function
  split
  · exact .pure rfl
  · refine .map (follows_stmts none f.body) ?_
    rintro _ _ code rfl
    rfl

theorem toOption_constant (l : Source.Literal) :
    (OfSource.constant ⟨.nowhere, l.value⟩).toOption = (OfSource.constant l).toOption := by
  unfold OfSource.constant
  cases l.value with
  | int value =>
    dsimp only
    split <;> rfl
  | char | str => rfl

mutual

theorem expr_bare : ∀ e : Source.Expr, expr e.bare = expr e
  | .missing | .var _ _ => rfl
  | .literal l => by rw [Source.Expr.bare, expr, expr, toOption_constant]
  | .call _ _ xs => by rw [Source.Expr.bare, expr, expr, args_bare xs]
  | .unary _ _ x => by rw [Source.Expr.bare, expr, expr, expr_bare x]
  | .binary _ op l r => by cases op <;> simp only [Source.Expr.bare, expr, expr_bare l, expr_bare r]

theorem args_bare : ∀ xs : List Source.Expr, args (Source.Expr.bareAll xs) = args xs
  | [] => rfl
  | x :: xs => by rw [Source.Expr.bareAll, args, args, expr_bare x, args_bare xs]

end

theorem assign_bare (target : Name) (value : Source.Expr) : assign target value.bare = assign target value := by
  rw [assign, assign, expr_bare]

mutual

theorem stmt_bare : ∀ (loop : Option OfSource.Loop) (s : Source.Stmt), stmt loop s.bare = stmt loop s
  | _, .missing | _, .breakStmt _ | _, .continueStmt _ => rfl
  | _, .assign _ target value => assign_bare target value
  | _, .declare _ ty name init => by
    cases init with
    | missing => rfl
    | _ => exact assign_bare name _
  | _, .returnStmt _ value => by
    cases value with
    | missing => rfl
    | _ => exact congrArg (make Name.temporary >>= ·) (funext fun res => by rw [assign_bare])
  | loop, .whileStmt _ check body => by simp only [Source.Stmt.bare, stmt, assign_bare, stmts_bare _ body]
  | loop, .ifStmt _ check thenBody elseBody => by
    simp only [Source.Stmt.bare, stmt, assign_bare, stmts_bare _ thenBody, stmts_bare _ elseBody]
  | _, .exprStmt _ value => by rw [Source.Stmt.bare, stmt, stmt, expr_bare]

theorem stmts_bare : ∀ (loop : Option OfSource.Loop) (ss : List Source.Stmt),
    stmts loop (Source.Stmt.bareAll ss) = stmts loop ss
  | _, [] => rfl
  | loop, s :: ss => by rw [Source.Stmt.bareAll, stmts, stmts, stmt_bare loop s, stmts_bare loop ss]

end

theorem functions_bare (fs : List Source.Function) : functions (fs.map Source.Function.bare) = functions fs := by
  induction fs with
  | nil => rfl
  | cons f fs ih =>
    rw [List.map_cons, functions, functions, ih]
    unfold function Source.Function.bare
    rw [stmts_bare]

end Noted

end MiniC.Code
