import MiniC.Proofs.Lowering.Expressions
import MiniC.Proofs.Lowering.Positions
import MiniC.Proofs.Source.RoundTrip

namespace MiniC

namespace Source

/-- A number that is too large to have a sign. -/
def Literal.TooLarge (l : Literal) : Prop :=
  ∃ n : UInt64, l.value = .int n ∧ 2 ^ 63 ≤ n.toNat

/-- A constant that is no first value of a global of the type. -/
def Constant.Misfits : Ty → Constant → Prop
  | .int, .str _ | .char, .str _ | .string, .int _ | .string, .char _ => True
  | .char, .int n => 255 < n.toNat
  | _, _ => False

mutual

def Expr.literals : Expr → List Literal
  | .missing | .var _ _ => []
  | .literal l => [l]
  | .call _ _ args => Expr.allLiterals args
  | .unary _ _ operand => operand.literals
  | .binary _ _ left right => left.literals ++ right.literals

def Expr.allLiterals : List Expr → List Literal
  | [] => []
  | e :: es => e.literals ++ Expr.allLiterals es

end

mutual

def Stmt.literals : Stmt → List Literal
  | .missing | .breakStmt _ | .continueStmt _ => []
  | .assign _ _ value | .declare _ _ _ value | .returnStmt _ value | .exprStmt _ value => value.literals
  | .whileStmt _ check body => check.literals ++ Stmt.allLiterals body
  | .ifStmt _ check thenBody elseBody =>
    check.literals ++ (Stmt.allLiterals thenBody ++ Stmt.allLiterals elseBody)

def Stmt.allLiterals : List Stmt → List Literal
  | [] => []
  | s :: ss => s.literals ++ Stmt.allLiterals ss

end

mutual

/-- A statement that is a `break` or `continue`, or has one inside of it that no loop of the statement encloses. -/
def Stmt.Strays : Stmt → Prop
  | .breakStmt _ | .continueStmt _ => True
  | .ifStmt _ _ thenBody elseBody => Stmt.AnyStrays thenBody ∨ Stmt.AnyStrays elseBody
  | .missing | .assign .. | .declare .. | .returnStmt .. | .whileStmt .. | .exprStmt .. => False

def Stmt.AnyStrays : List Stmt → Prop
  | [] => False
  | s :: ss => s.Strays ∨ Stmt.AnyStrays ss

end

def AllSigned (ls : List Literal) : Prop :=
  ∀ l ∈ ls, ¬ l.TooLarge

theorem allSigned_append {ls rs : List Literal} : AllSigned (ls ++ rs) ↔ AllSigned ls ∧ AllSigned rs :=
  List.forall_mem_append

theorem allSigned_nil : AllSigned [] ↔ True := by
  simp [AllSigned]

end Source

namespace Code.OfSource

open Source (Literal AllSigned allSigned_append allSigned_nil)

def Succeeds {α : Type} (x : Lower α) (P : Prop) : Prop :=
  ∀ names, (∃ out, x names = .ok out) ↔ P

namespace Succeeds

variable {α β : Type} {P Q : Prop}

theorem of_iff {x : Lower α} (succeeds : Succeeds x P) (same : P ↔ Q) : Succeeds x Q :=
  fun names => (succeeds names).trans same

theorem pure (a : α) : Succeeds (pure a) True :=
  fun names => iff_true_intro ⟨(a, names), rfl⟩

theorem fresh (kind : Bytes) : Succeeds (fresh kind) True :=
  fun names => iff_true_intro ⟨names.fresh kind, rfl⟩

theorem refuse (cause : Cause) : Succeeds (refuse cause : Lower α) False :=
  fun _ => iff_false_intro fun ⟨_, ok⟩ => refuse_ok ok

theorem inside {step : Step} {x : Lower α} (succeeds : Succeeds x P) : Succeeds (inside step x) P := by
  intro names
  rw [← succeeds names]
  exact exists_congr fun _ => inside_ok

theorem lift (x : Except Error α) : Succeeds (liftM x : Lower α) (∃ a, x = .ok a) := by
  intro names
  constructor
  · rintro ⟨⟨a, names'⟩, ok⟩
    exact ⟨a, (lift_ok.1 ok).1⟩
  · rintro ⟨a, ok⟩
    exact ⟨(a, names), lift_ok.2 ⟨ok, rfl⟩⟩

theorem bind {x : Lower α} {f : α → Lower β} (first : Succeeds x P) (next : ∀ a, Succeeds (f a) Q) :
    Succeeds (x >>= f) (P ∧ Q) := by
  intro names
  constructor
  · rintro ⟨⟨b, names'⟩, ok⟩
    obtain ⟨a, mid, done, rest⟩ := bind_ok.1 ok
    exact ⟨(first names).1 ⟨_, done⟩, (next a mid).1 ⟨_, rest⟩⟩
  · rintro ⟨holds, holds'⟩
    obtain ⟨⟨a, mid⟩, done⟩ := (first names).2 holds
    obtain ⟨⟨b, names'⟩, rest⟩ := (next a mid).2 holds'
    exact ⟨(b, names'), bind_ok.2 ⟨a, mid, done, rest⟩⟩

theorem after {x : Lower α} {f : α → Lower β} (first : Succeeds x True) (next : ∀ a, Succeeds (f a) Q) :
    Succeeds (x >>= f) Q :=
  (first.bind next).of_iff (iff_of_eq (true_and Q))

theorem before {x : Lower α} {f : α → Lower β} (first : Succeeds x P) (next : ∀ a, Succeeds (f a) True) :
    Succeeds (x >>= f) P :=
  (first.bind next).of_iff (iff_of_eq (and_true P))

end Succeeds

theorem succeeds_dest (operand : Name) : Succeeds (dest operand) True := by
  unfold dest
  split
  · exact .pure operand
  · exact .fresh Name.temporary

theorem succeeds_unary (code : List Stmt) (op : UnOp) (arg : Name) : Succeeds (unary code op arg) True :=
  (succeeds_dest arg).after fun _ => .pure _

theorem succeeds_binary (code : List Stmt) (op : BinOp) (left right : Name) : Succeeds (binary code op left right) True :=
  (succeeds_dest left).after fun _ => .pure _

theorem succeeds_one (code : List Stmt) : Succeeds (one code) True :=
  (Succeeds.fresh Name.temporary).after fun _ => .pure _

theorem succeeds_count (code : List Stmt) (op : BinOp) (var : Name) : Succeeds (count code op var) True :=
  (succeeds_one code).after fun _ => .pure _

theorem succeeds_compareNext (code : List Stmt) (op step : BinOp) (left right : Name) :
    Succeeds (compareNext code op step left right) True :=
  (succeeds_one code).after fun _ => (succeeds_binary _ step right _).after fun _ => succeeds_binary _ op left _

theorem exists_constant (l : Literal) : (∃ value, constant l = .ok value) ↔ ¬ l.TooLarge := by
  obtain ⟨pos, value⟩ := l
  unfold constant Literal.TooLarge
  cases value with
  | int n =>
    by_cases small : n.toNat < 0x8000000000000000
    · simp [small]
    · simp [small, fail]
  | char c => simp
  | str value => simp

mutual

theorem succeeds_expr : ∀ e : Source.Expr, e.WellFormed → Succeeds (expr e) (AllSigned e.literals)
  | .var _ name, _ => by
    rw [expr]
    exact (Succeeds.pure _).of_iff allSigned_nil.symm
  | .literal l, _ => by
    rw [expr]
    refine ((Succeeds.lift (constant l)).before fun _ => (Succeeds.fresh _).after fun _ => .pure _).of_iff ?_
    simp [exists_constant, Source.Expr.literals, AllSigned]
  | .call _ callee es, wellFormed => by
    rw [expr]
    exact (succeeds_args callee 0 es wellFormed.2).before fun _ => (Succeeds.fresh _).after fun _ => .pure _
  | .unary pos op e, wellFormed => by
    rw [expr]
    refine (succeeds_expr e wellFormed.2.2).before fun _ => ?_
    cases op with
    | not | invert | negate => exact succeeds_unary _ _ _
    | increment | decrement => exact succeeds_count _ _ _
    | unknown => exact absurd wellFormed.1 (by simp [Source.UnOp.all])
  | .binary pos op l r, wellFormed => by
    have left := succeeds_expr l wellFormed.2.1
    have right := succeeds_expr r wellFormed.2.2
    cases op with
    | le | ge =>
      rw [expr]
      exact (left.inside.bind fun _ => right.inside.inside.before fun _ => succeeds_compareNext _ _ _ _ _).of_iff
        allSigned_append.symm
    | unknown => exact absurd wellFormed.1 (by simp [Source.BinOp.all])
    | _ =>
      rw [Lowers.expr_binary rfl]
      exact (left.inside.bind fun _ => right.inside.before fun _ => succeeds_binary _ _ _ _).of_iff allSigned_append.symm

theorem succeeds_args (callee : Name) : ∀ (index : Nat) (es : List Source.Expr), Source.Expr.AllWellFormed es →
    Succeeds (args callee index es) (AllSigned (Source.Expr.allLiterals es))
  | index, [], _ => by
    rw [args]
    exact (Succeeds.pure _).of_iff allSigned_nil.symm
  | index, e :: es, wellFormed => by
    rw [args]
    exact ((succeeds_expr e wellFormed.1).inside.bind fun _ =>
      (succeeds_args callee (index + 1) es wellFormed.2).before fun _ => .pure _).of_iff allSigned_append.symm

end

theorem succeeds_assign (target : Name) {e : Source.Expr} (wellFormed : e.WellFormed) :
    Succeeds (assign target e) (AllSigned e.literals) :=
  (succeeds_expr e wellFormed).before fun _ => .pure _

theorem ne_missing {e : Source.Expr} (wellFormed : e.WellFormed) : e ≠ .missing := by
  rintro rfl
  exact wellFormed

mutual

theorem succeeds_stmt : ∀ (s : Source.Stmt) (loop : Option Loop), s.WellFormed →
    Succeeds (stmt loop s) (AllSigned s.literals ∧ (loop = none → ¬ s.Strays))
  | .assign _ target value, loop, wellFormed => by
    rw [stmt]
    exact (succeeds_assign target wellFormed.2).of_iff (by simp [Source.Stmt.literals, Source.Stmt.Strays])
  | .declare _ ty name init, loop, wellFormed => by
    rcases wellFormed.2.2.2 with ⟨rfl, notString⟩ | wellFormed
    · rw [stmt, if_neg notString]
      exact (Succeeds.pure _).of_iff (by simp [Source.Stmt.literals, Source.Expr.literals, Source.Stmt.Strays, allSigned_nil])
    · rw [stmt]
      · exact (succeeds_assign name wellFormed).of_iff (by simp [Source.Stmt.literals, Source.Stmt.Strays])
      · exact ne_missing wellFormed
  | .returnStmt _ value, loop, wellFormed => by
    rcases wellFormed with rfl | wellFormed
    · rw [stmt]
      exact (Succeeds.pure _).of_iff (by simp [Source.Stmt.literals, Source.Expr.literals, Source.Stmt.Strays, allSigned_nil])
    · rw [stmt]
      · exact ((Succeeds.fresh _).after fun res => (succeeds_assign res wellFormed).inside.before fun _ => .pure _).of_iff
          (by simp [Source.Stmt.literals, Source.Stmt.Strays])
      · exact ne_missing wellFormed
  | .breakStmt _, loop, _ | .continueStmt _, loop, _ => by
    cases loop with
    | none =>
      rw [stmt]
      exact (Succeeds.refuse _).of_iff (by simp [Source.Stmt.Strays])
    | some l =>
      rw [stmt]
      exact (Succeeds.pure _).of_iff (by simp [Source.Stmt.literals, allSigned_nil])
  | .whileStmt _ check body, loop, wellFormed => by
    rw [stmt]
    have inLoop : ∀ l, Succeeds (stmts (some l) body) (AllSigned (Source.Stmt.allLiterals body)) :=
      fun l => (succeeds_stmts body (some l) wellFormed.2).of_iff (by simp)
    refine ((Succeeds.fresh _).after fun start => (Succeeds.fresh _).after fun exit => (Succeeds.fresh _).after fun inner =>
      (Succeeds.fresh _).after fun again => (Succeeds.fresh _).after fun flag =>
      (succeeds_assign flag wellFormed.1).inside.bind fun _ => (inLoop _).before fun _ => .pure _).of_iff ?_
    simp [Source.Stmt.literals, Source.Stmt.Strays, allSigned_append]
  | .ifStmt _ check thenBody elseBody, loop, wellFormed => by
    rw [stmt]
    refine ((Succeeds.fresh _).after fun flag => (Succeeds.fresh _).after fun other => (Succeeds.fresh _).after fun exit =>
      (succeeds_assign flag wellFormed.1).inside.bind fun _ => (succeeds_stmts thenBody loop wellFormed.2.1).bind fun _ =>
      (succeeds_stmts elseBody loop wellFormed.2.2).before fun _ => .pure _).of_iff ?_
    simp only [Source.Stmt.literals, Source.Stmt.Strays, allSigned_append]
    tauto
  | .exprStmt _ value, loop, wellFormed => by
    rw [stmt]
    exact ((succeeds_expr value wellFormed).before fun _ => .pure _).of_iff
      (by simp [Source.Stmt.literals, Source.Stmt.Strays])

theorem succeeds_stmts : ∀ (ss : List Source.Stmt) (loop : Option Loop), Source.Stmt.AllWellFormed ss →
    Succeeds (stmts loop ss) (AllSigned (Source.Stmt.allLiterals ss) ∧ (loop = none → ¬ Source.Stmt.AnyStrays ss))
  | [], loop, _ => by
    rw [stmts]
    exact (Succeeds.pure _).of_iff (by simp [Source.Stmt.allLiterals, Source.Stmt.AnyStrays, allSigned_nil])
  | s :: ss, loop, wellFormed => by
    rw [stmts]
    refine ((succeeds_stmt s loop wellFormed.1).bind fun _ =>
      (succeeds_stmts ss loop wellFormed.2).before fun _ => .pure _).of_iff ?_
    simp only [Source.Stmt.allLiterals, Source.Stmt.AnyStrays, allSigned_append]
    tauto

end

theorem toInt_toInt64 {n : UInt64} (signed : n.toNat < 2 ^ 63) : n.toInt64.toInt = n.toNat := by
  change n.toBitVec.toInt = n.toNat
  rw [BitVec.toInt_eq_toNat_of_lt (by change 2 * n.toNat < 2 ^ 64; omega)]
  rfl

theorem exists_convert {l : Literal} {value : Value} (known : constant l = .ok value) {ty : Ty} (isTy : ty ∈ Ty.all)
    (notVoid : ty ≠ .void) : (∃ init, convert (knownTy ty) value = .ok init) ↔ ¬ l.value.Misfits ty := by
  obtain ⟨pos, c⟩ := l
  cases c with
  | int n =>
    unfold constant at known
    dsimp only at known
    split at known
    · rename_i signed
      cases known
      cases ty with
      | char =>
        have bounds : 0 ≤ n.toInt64 ∧ n.toInt64 < 256 ↔ ¬ 255 < n.toNat := by
          rw [Int64.le_iff_toInt_le, Int64.lt_iff_toInt_lt, toInt_toInt64 signed]
          change (0 : Int) ≤ n.toNat ∧ (n.toNat : Int) < 256 ↔ _
          omega
        simp only [Source.Constant.Misfits, ← bounds, knownTy, convert]
        split <;> simp_all [fail]
      | void => exact absurd rfl notVoid
      | _ => simp_all [convert, knownTy, Source.Constant.Misfits, Value.ty, fail, Ty.all]
    · cases known
  | char c =>
    cases known
    cases ty with
    | void => exact absurd rfl notVoid
    | _ => simp_all [convert, knownTy, Source.Constant.Misfits, Value.ty, fail, Ty.all]
  | str value =>
    cases known
    cases ty with
    | void => exact absurd rfl notVoid
    | _ => simp_all [convert, knownTy, Source.Constant.Misfits, Value.ty, fail, Ty.all]

theorem exists_global {g : Source.Global} (wellFormed : g.WellFormed) :
    (∃ h, global g = .ok h) ↔ ∀ l, g.init = some l → ¬ l.TooLarge ∧ ¬ l.value.Misfits g.ty := by
  unfold global
  cases init : g.init with
  | none => simp [wellFormed.notString init]
  | some l =>
    simp only [bind_eq_ok, within_eq_ok, Option.some.injEq, forall_eq']
    constructor
    · rintro ⟨h, value, known, init, converted, _⟩
      exact ⟨(exists_constant l).1 ⟨value, known⟩, (exists_convert known wellFormed.ty wellFormed.notVoid).1 ⟨init, converted⟩⟩
    · rintro ⟨signed, fits⟩
      obtain ⟨value, known⟩ := (exists_constant l).2 signed
      obtain ⟨init, converted⟩ := (exists_convert known wellFormed.ty wellFormed.notVoid).2 fits
      exact ⟨_, value, known, init, converted, rfl⟩

theorem succeeds_function {f : Source.Function} (wellFormed : f.WellFormed) :
    Succeeds (function f) (AllSigned (Source.Stmt.allLiterals f.body) ∧ ¬ Source.Stmt.AnyStrays f.body) := by
  unfold function
  split
  · rename_i external
    rw [wellFormed.external external]
    exact ((Succeeds.pure _).after fun _ => .pure _).of_iff
      (by simp [Source.Stmt.allLiterals, Source.Stmt.AnyStrays, allSigned_nil])
  · exact ((succeeds_stmts f.body none wellFormed.body).before fun _ => .pure _).of_iff (by simp)

theorem succeeds_functions {fs : List Source.Function} (wellFormed : ∀ f ∈ fs, f.WellFormed) :
    Succeeds (functions fs)
      (∀ f ∈ fs, AllSigned (Source.Stmt.allLiterals f.body) ∧ ¬ Source.Stmt.AnyStrays f.body) := by
  induction fs with
  | nil =>
    rw [functions]
    exact (Succeeds.pure _).of_iff (by simp)
  | cons f fs ih =>
    rw [functions]
    refine ((succeeds_function (wellFormed f List.mem_cons_self)).inside.bind fun _ =>
      (ih fun g member => wellFormed g (List.mem_cons_of_mem f member)).before fun _ => .pure _).of_iff ?_
    rw [List.forall_mem_cons]

theorem exists_ofSource {x : Source.Program} (wellFormed : x.WellFormed) :
    (∃ p, Program.ofSource x = .ok p) ↔
      (∀ g ∈ x.globals, ∀ l, g.init = some l → ¬ l.TooLarge ∧ ¬ l.value.Misfits g.ty) ∧
        ∀ f ∈ x.functions, AllSigned (Source.Stmt.allLiterals f.body) ∧ ¬ Source.Stmt.AnyStrays f.body := by
  have globals : (∃ gs, x.globals.mapM (fun g => within (.global g.name) (global g)) = .ok gs) ↔
      ∀ g ∈ x.globals, ∀ l, g.init = some l → ¬ l.TooLarge ∧ ¬ l.value.Misfits g.ty := by
    simp only [exists_mapM, within_eq_ok]
    exact forall₂_congr fun g member => exists_global (wellFormed.globals g member)
  rw [← globals, ← succeeds_functions wellFormed.functions ⟨0⟩]
  unfold Program.ofSource
  simp only [bind_eq_ok]
  constructor
  · rintro ⟨p, gs, made, out, lowered, _⟩
    exact ⟨⟨gs, made⟩, out, lowered⟩
  · rintro ⟨⟨gs, made⟩, out, lowered⟩
    exact ⟨_, gs, made, out, lowered, rfl⟩

/-- A parsed program cannot be lowered if and only if an integer literal in a first value or in an expression is too
large, a first value does not fit its global, or a `break` or `continue` stands outside of every loop. -/
theorem ofSource_fails_iff {text : Bytes} {x : Source.Program} (parsed : Source.parse text = .ok x) :
    (∃ e, Program.ofSource x = .error e) ↔
      (∃ g ∈ x.globals, ∃ l, g.init = some l ∧ (l.TooLarge ∨ l.value.Misfits g.ty)) ∨
        ∃ f ∈ x.functions, (∃ l ∈ Source.Stmt.allLiterals f.body, l.TooLarge) ∨ Source.Stmt.AnyStrays f.body := by
  rw [exists_error, exists_ofSource (Source.wellFormed_of_parse parsed)]
  unfold AllSigned
  grind

def straying : Source.Program :=
  let pos := Source.Position.nowhere
  let number (n : UInt64) : Source.Expr := .literal ⟨pos, .int n⟩
  let body : List Source.Stmt :=
    [.whileStmt pos (number 1) [.ifStmt pos (number 2) [.breakStmt pos] []],
      .ifStmt pos (number 3) [.continueStmt pos] [], .returnStmt pos (number 4)]
  ⟨[⟨pos, "top", .char, some ⟨pos, .int 255⟩⟩], [⟨pos, "main", .int, [], false, body⟩]⟩

def strayingText : Bytes :=
  "char top = 255;\n\nint main() \x7b\n\twhile (1) \x7b\n\t\tif (2) \x7b\n\t\t\tbreak;\n\t\t\x7d\n\t\x7d\n\t" ++
    "if (3) \x7b\n\t\tcontinue;\n\t\x7d\n\treturn 4;\n\x7d\n"

theorem ofSource_fails_straying :
    ∃ x, Source.parse strayingText = .ok x ∧ (∃ e, Program.ofSource x = .error e) ∧
      ((∃ g ∈ x.globals, ∃ l, g.init = some l ∧ (l.TooLarge ∨ l.value.Misfits g.ty)) ∨
        ∃ f ∈ x.functions, (∃ l ∈ Source.Stmt.allLiterals f.body, l.TooLarge) ∨ Source.Stmt.AnyStrays f.body) := by
  have printed : straying.format = .ok strayingText := by decide +kernel
  obtain ⟨text, printed', x, parsed, same⟩ := Source.exists_parse_format (x := straying) (by decide)
  cases printed.symm.trans printed'
  have refused : (Program.ofSource straying).toOption = none := by decide +kernel
  have failed : ∃ e, Program.ofSource x = .error e := by
    rw [exists_error]
    rintro ⟨p, lowered⟩
    rw [← Program.ofSource_bare, same, Program.ofSource_bare] at lowered
    rw [lowered] at refused
    cases refused
  exact ⟨x, parsed, failed, (ofSource_fails_iff parsed).1 failed⟩

end Code.OfSource

end MiniC
