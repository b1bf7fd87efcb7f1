import MiniC.Proofs.Faults
import MiniC.Proofs.Lowering.Outcome
import MiniC.Proofs.Source.Grammar

namespace MiniC.Code.OfSource

variable {α β : Type}

def Alike (x y : Lower α) : Prop :=
  ∀ names out, x names = .ok out ↔ y names = .ok out

namespace Alike

theorem refl (x : Lower α) : Alike x x :=
  fun _ _ => Iff.rfl

theorem bind {x y : Lower α} {f g : α → Lower β} (first : Alike x y) (next : ∀ a, Alike (f a) (g a)) :
    Alike (x >>= f) (y >>= g) := by
  rintro names ⟨out, names'⟩
  rw [bind_ok, bind_ok]
  refine exists_congr fun a => exists_congr fun mid => and_congr (first names (a, mid)) (next a mid (out, names'))

theorem inside {x y : Lower α} {step : Step} (alike : Alike x y) : Alike (inside step x) (inside step y) := by
  rintro names ⟨out, names'⟩
  rw [inside_ok, inside_ok]
  exact alike names (out, names')

theorem refuse {cause cause' : Cause} : Alike (refuse cause : Lower α) (refuse cause') :=
  fun _ _ => ⟨fun ok => absurd ok refuse_ok, fun ok => absurd ok refuse_ok⟩

theorem lift {x y : Except Error α} (alike : ∀ a, x = .ok a ↔ y = .ok a) :
    Alike (liftM x : Lower α) (liftM y : Lower α) := by
  rintro names ⟨out, names'⟩
  rw [lift_ok, lift_ok, alike out]

end Alike

theorem constant_alike (l : Source.Literal) (pos : Source.Position) (a : Value) :
    constant ⟨pos, l.value⟩ = .ok a ↔ constant l = .ok a := by
  unfold constant
  cases l.value with
  | int value =>
    dsimp only
    split
    · rfl
    · exact ⟨nofun, nofun⟩
  | char | str => rfl

mutual

theorem alike_expr : ∀ e : Source.Expr, Alike (expr e.bare) (expr e)
  | .missing | .var _ _ => .refl _
  | .literal l => .bind (.lift (constant_alike l _)) fun _ => .refl _
  | .call _ callee xs => .bind (alike_args callee 0 xs) fun _ => .refl _
  | .unary pos op x => by
    refine .bind (alike_expr x) fun a => ?_
    cases op with
    | unknown => exact .refuse
    | _ => exact .refl _
  | .binary pos op l r => by
    cases op with
    | le | ge =>
      exact .bind (.inside (alike_expr l)) fun _ => .bind (.inside (.inside (alike_expr r))) fun _ => .refl _
    | unknown => exact .refuse
    | _ => exact .bind (.inside (alike_expr l)) fun _ => .bind (.inside (alike_expr r)) fun _ => .refl _

theorem alike_args : ∀ (callee : Name) (index : Nat) (es : List Source.Expr),
    Alike (args callee index (Source.Expr.bareAll es)) (args callee index es)
  | _, _, [] => .refl _
  | callee, index, e :: es =>
    .bind (.inside (alike_expr e)) fun _ => .bind (alike_args callee (index + 1) es) fun _ => .refl _

end

theorem alike_assign (target : Name) (e : Source.Expr) : Alike (assign target e.bare) (assign target e) :=
  .bind (alike_expr e) fun _ => .refl _

mutual

theorem alike_stmt (loop : Option Loop) : ∀ s : Source.Stmt, Alike (stmt loop s.bare) (stmt loop s)
  | .missing => .refl _
  | .assign _ target value => alike_assign target value
  | .declare pos ty name init => by
    cases init with
    | missing =>
      change Alike (if ty = .string then _ else _) (if ty = .string then _ else _)
      split
      · exact .refuse
      · exact .refl _
    | _ => exact alike_assign name _
  | .returnStmt _ value => by
    cases value with
    | missing => exact .refl _
    | _ => exact .bind (.refl _) fun res => .bind (.inside (alike_assign res _)) fun _ => .refl _
  | .breakStmt pos | .continueStmt pos => by
    cases loop with
    | none => exact .refuse
    | some l => exact .refl _
  | .whileStmt _ check body =>
    .bind (.refl _) fun _ => .bind (.refl _) fun exit => .bind (.refl _) fun _ => .bind (.refl _) fun again =>
      .bind (.refl _) fun flag => .bind (.inside (alike_assign flag check)) fun _ =>
        .bind (alike_stmts (some ⟨again, exit⟩) body) fun _ => .refl _
  | .ifStmt _ check thenBody elseBody =>
    .bind (.refl _) fun flag => .bind (.refl _) fun _ => .bind (.refl _) fun _ =>
      .bind (.inside (alike_assign flag check)) fun _ => .bind (alike_stmts loop thenBody) fun _ =>
        .bind (alike_stmts loop elseBody) fun _ => .refl _
  | .exprStmt _ value => .bind (alike_expr value) fun _ => .refl _

theorem alike_stmts (loop : Option Loop) : ∀ ss : List Source.Stmt,
    Alike (stmts loop (Source.Stmt.bareAll ss)) (stmts loop ss)
  | [] => .refl _
  | s :: ss => .bind (alike_stmt loop s) fun _ => .bind (alike_stmts loop ss) fun _ => .refl _

end

theorem alike_function (f : Source.Function) : Alike (function f.bare) (function f) := by
  unfold function
  change Alike (if f.external then _ else _) (if f.external then _ else _)
  split
  · exact .refl _
  · exact .bind (alike_stmts none f.body) fun _ => .refl _

theorem alike_functions (fs : List Source.Function) : Alike (functions (fs.map Source.Function.bare)) (functions fs) := by
  induction fs with
  | nil => exact .refl _
  | cons f fs ih => exact .bind (.inside (alike_function f)) fun _ => .bind ih fun _ => .refl _

theorem global_alike (g : Source.Global) (h : Global) : global g.bare = .ok h ↔ global g = .ok h := by
  unfold global Source.Global.bare
  cases g.init with
  | none =>
    dsimp only [Option.map_none]
    split
    · exact ⟨nofun, nofun⟩
    · rfl
  | some l =>
    simp only [Option.map_some, bind_eq_ok, within_eq_ok, constant_alike]

end OfSource

theorem Program.ofSource_bare (x : Source.Program) (p : Program) : ofSource x.bare = .ok p ↔ ofSource x = .ok p := by
  unfold ofSource Source.Program.bare
  have globals : ∀ hs, ((x.globals.map Source.Global.bare).mapM fun g => within (.global g.name) (OfSource.global g)) = .ok hs ↔
      (x.globals.mapM fun g => within (.global g.name) (OfSource.global g)) = .ok hs := by
    intro hs
    rw [mapM_eq_ok, mapM_eq_ok, List.forall₂_map_left_iff]
    simp only [within_eq_ok, OfSource.global_alike]
  simp only [bind_eq_ok, globals, OfSource.alike_functions x.functions ⟨0⟩]

end MiniC.Code
