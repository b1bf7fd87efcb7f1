import MiniC.Proofs.Lowering.Writing

namespace MiniC.Source

open MiniC.Source.Parser (Decl program)

mutual

def Expr.nodes : Expr → Nat
  | .missing => 0
  | .var _ _ | .literal _ => 1
  | .call _ _ args => 1 + Expr.nodesAll args
  | .unary _ _ operand => 1 + operand.nodes
  | .binary _ _ left right => 1 + left.nodes + right.nodes

def Expr.nodesAll : List Expr → Nat
  | [] => 0
  | e :: es => e.nodes + Expr.nodesAll es

end

mutual

def Stmt.nodes : Stmt → Nat
  | .missing => 0
  | .assign _ _ value => 1 + value.nodes
  | .declare _ _ _ init => 1 + init.nodes
  | .returnStmt _ value => 1 + value.nodes
  | .breakStmt _ | .continueStmt _ => 1
  | .whileStmt _ check body => 1 + check.nodes + Stmt.nodesAll body
  | .ifStmt _ check thenBody elseBody => 1 + check.nodes + Stmt.nodesAll thenBody + Stmt.nodesAll elseBody
  | .exprStmt _ value => 1 + value.nodes

def Stmt.nodesAll : List Stmt → Nat
  | [] => 0
  | s :: ss => s.nodes + Stmt.nodesAll ss

end

theorem Stmt.nodesAll_append (ss ts : List Stmt) : nodesAll (ss ++ ts) = nodesAll ss + nodesAll ts := by
  induction ss with
  | nil => rw [List.nil_append, nodesAll, Nat.zero_add]
  | cons s ss ih => rw [List.cons_append, nodesAll, nodesAll, ih, Nat.add_assoc]

def weight (fs : List Function) : Nat :=
  (fs.map fun f => f.params.length + Stmt.nodesAll f.body).sum

mutual

theorem IsExpr.nodes_le : ∀ {i ls e}, IsExpr i ls e → e.nodes ≤ ls.length
  | _, _, _, .tighter _ inner => inner.nodes_le
  | _, _, _, .binary _ _ left right => by
    have := left.nodes_le
    have := right.nodes_le
    rw [Expr.nodes, List.length_append, List.length_cons]
    omega
  | _, _, _, .unary _ _ operand _ => by
    have := operand.nodes_le
    rw [Expr.nodes, List.length_cons]
    omega
  | _, _, _, .counted inner => inner.nodes_le

theorem IsCounted.nodes_le : ∀ {ls e}, IsCounted ls e → e.nodes ≤ ls.length
  | _, _, .primary inner => inner.nodes_le
  | _, _, .behind _ inner _ _ => by
    have := inner.nodes_le
    rw [Expr.nodes, List.length_append, List.length_singleton]
    omega

theorem IsPrimary.nodes_le : ∀ {ls e}, IsPrimary ls e → e.nodes ≤ ls.length
  | _, _, .var _ _ => by rw [Expr.nodes, List.length_singleton]
  | _, _, .literal _ _ => by rw [Expr.nodes, List.length_singleton]
  | _, _, .call _ _ args => by
    have := args.nodes_le
    rw [Expr.nodes, List.length_cons, List.length_cons, List.length_append]
    omega
  | _, _, .paren inner => by
    have := inner.nodes_le
    rw [List.length_cons, List.length_append]
    omega

theorem IsArgs.nodes_le : ∀ {ls es}, IsArgs ls es → Expr.nodesAll es ≤ ls.length
  | _, _, .none => Nat.le_refl 0
  | _, _, .last arg => by
    have := arg.nodes_le
    rw [Expr.nodesAll, Expr.nodesAll]
    omega
  | _, _, .more arg others => by
    have := arg.nodes_le
    have := others.nodes_le
    rw [Expr.nodesAll, List.length_append, List.length_cons]
    omega

end

mutual

theorem IsStmt.nodes_le : ∀ {closed ls ss}, IsStmt closed ls ss → Stmt.nodesAll ss ≤ ls.length
  | _, _, _, .block body => by
    have := body.nodes_le
    rw [List.length_cons, List.length_append]
    omega
  | _, _, _, .empty => Nat.zero_le _
  | _, _, _, .declare .. | _, _, _, .leave _ | _, _, _, .breakLoop _ | _, _, _, .continueLoop _ => by
    simp only [Stmt.nodesAll, Stmt.nodes, Expr.nodes, List.length_cons, List.length_nil]
    omega
  | _, _, _, .declareWith _ _ _ _ value | _, _, _, .assign _ _ value | _, _, _, .leaveWith _ value
  | _, _, _, .expr _ value => by
    have := value.nodes_le
    simp only [Stmt.nodesAll, Stmt.nodes, List.length_cons, List.length_append, List.length_nil]
    omega
  | _, _, _, .ifThen _ check body | _, _, _, .loop _ check body => by
    have := check.nodes_le
    have := body.nodes_le
    simp only [Stmt.nodesAll, Stmt.nodes, inParens, List.length_cons, List.length_append]
    omega
  | _, _, _, .ifElse _ check thenBody elseBody => by
    have := check.nodes_le
    have := thenBody.nodes_le
    have := elseBody.nodes_le
    simp only [Stmt.nodesAll, Stmt.nodes, inParens, List.length_cons, List.length_append]
    omega

theorem IsStmts.nodes_le : ∀ {ls ss}, IsStmts ls ss → Stmt.nodesAll ss ≤ ls.length
  | _, _, .nil => Nat.le_refl 0
  | _, _, .cons first others => by
    have := first.nodes_le
    have := others.nodes_le
    rw [Stmt.nodesAll_append, List.length_append]
    omega

end

theorem IsParams.length_le {ls : List Lexeme} {ps : List Param} (derived : IsParams ls ps) : ps.length ≤ ls.length := by
  induction derived with
  | none => exact Nat.le_refl 0
  | last => exact Nat.le_succ 1
  | more _ _ _ ih =>
    simp only [List.length_cons] at ih ⊢
    omega

theorem weight_function (f : Function) (ds : List Decl) :
    weight (program (.function f :: ds)).functions =
      f.params.length + Stmt.nodesAll f.body + weight (program ds).functions := rfl

theorem IsDecls.weight_le {ls : List Lexeme} {ds : List Decl} (derived : IsDecls ls ds) :
    weight (program ds).functions ≤ ls.length := by
  induction derived with
  | nil => exact Nat.le_refl 0
  | cons first others ih =>
    rw [List.length_append]
    cases first with
    | global | globalWith => exact Nat.le_trans ih (Nat.le_add_left _ _)
    | external _ _ _ params =>
      have := params.length_le
      simp only [weight_function, Stmt.nodesAll, inParens, List.length_cons, List.length_append]
      omega
    | function _ _ _ params body =>
      have := params.length_le
      have := body.nodes_le
      simp only [weight_function, inParens, List.length_cons, List.length_append]
      omega

theorem weight_le_of_parse {text : Bytes} {x : Program} (parsed : parse text = .ok x) : weight x.functions ≤ text.length := by
  obtain ⟨ls, ds, derived, rfl, _, short⟩ := isDecls_of_parse parsed
  exact Nat.le_trans derived.weight_le short

end MiniC.Source

namespace MiniC.Code

def cost (code : List Stmt) : Nat :=
  (code.map fun s => 1 + (s.action.inputs ++ s.action.outputs).length).sum

@[simp] theorem cost_nil : cost [] = 0 := rfl

@[simp] theorem cost_cons (s : Stmt) (code : List Stmt) :
    cost (s :: code) = 1 + s.action.inputs.length + s.action.outputs.length + cost code := by
  simp [cost, Nat.add_assoc]

@[simp] theorem cost_append (first second : List Stmt) : cost (first ++ second) = cost first + cost second := by
  simp [cost]

theorem length_le_cost (code : List Stmt) : code.length ≤ cost code := by
  induction code with
  | nil => exact Nat.le_refl 0
  | cons s code ih =>
    rw [List.length_cons, cost_cons]
    omega

theorem operands_le_cost (code : List Stmt) :
    (code.flatMap fun s => s.action.inputs ++ s.action.outputs).length ≤ cost code := by
  induction code with
  | nil => exact Nat.le_refl 0
  | cons s code ih =>
    rw [List.flatMap_cons, List.length_append, List.length_append, cost_cons]
    omega

namespace OfSource

theorem cost_plain (action : Action) : cost [.plain action] = 1 + action.inputs.length + action.outputs.length :=
  cost_cons _ _

theorem cost_snoc {code : List Stmt} {bound : Nat} (small : cost code ≤ bound) (action : Action) {more : Nat}
    (few : action.inputs.length + action.outputs.length ≤ more) : cost (code ++ [Stmt.plain action]) ≤ bound + 1 + more := by
  rw [cost_append, cost_plain]
  omega

section

variable {code : List Stmt} {bound : Nat} (small : cost code ≤ bound)

include small

theorem cost_unary (op : UnOp) (arg : Name) : Ensures (unary code op arg) fun out => cost out.1 ≤ bound + 3 :=
  .bind (.any _) fun res _ => .pure (cost_snoc small (.unary op res arg) (Nat.le_refl 2))

theorem cost_binary (op : BinOp) (left right : Name) :
    Ensures (binary code op left right) fun out => cost out.1 ≤ bound + 4 :=
  .bind (.any _) fun res _ => .pure (cost_snoc small (.binary op res left right) (Nat.le_refl 3))

theorem cost_one : Ensures (one code) fun out => cost out.1 ≤ bound + 2 :=
  .bind (.any _) fun res _ => .pure (cost_snoc small (.store res (some (.int 1))) (Nat.le_refl 1))

theorem cost_count (op : BinOp) (var : Name) : Ensures (count code op var) fun out => cost out.1 ≤ bound + 6 :=
  .bind (cost_one small) fun out few => .pure (cost_snoc few (.binary op var var out.2) (Nat.le_refl 3))

theorem cost_compareNext (op step : BinOp) (left right : Name) :
    Ensures (compareNext code op step left right) fun out => cost out.1 ≤ bound + 10 :=
  .bind (cost_one small) fun out few => .bind (cost_binary few step right out.2) fun out' few' =>
    cost_binary few' op left out'.2

end

mutual

theorem cost_expr : ∀ (e : Source.Expr), e.WellFormed → Ensures (expr e) fun out => cost out.1 + 1 ≤ 12 * e.nodes
  | .missing, wellFormed => wellFormed.elim
  | .var _ x, _ => by
    rw [expr, Source.Expr.nodes]
    exact .pure (by simp)
  | .literal l, _ => by
    rw [expr, Source.Expr.nodes]
    refine .bind (.any _) fun value _ => .bind (.any _) fun res _ => .pure ?_
    exact (by decide : 1 + 0 + 1 + 1 ≤ 12 * 1)
  | .call _ callee es, wellFormed => by
    rw [expr, Source.Expr.nodes]
    refine .bind (cost_args es wellFormed.2 callee 0) fun out small => .bind (.any _) fun res _ => .pure ?_
    have few : (Action.call callee out.2 res).outputs.length ≤ 1 := by
      rw [Action.outputs]
      split <;> simp
    rw [cost_append, cost_plain, Action.inputs]
    omega
  | .unary pos op e, wellFormed => by
    rw [expr, Source.Expr.nodes]
    refine .bind (cost_expr e wellFormed.2.2) fun out small => ?_
    have before := Nat.le_sub_one_of_lt small
    cases op with
    | not | invert | negate => exact (cost_unary before _ _).mono fun _ few => by omega
    | increment | decrement => exact (cost_count before _ _).mono fun _ few => by omega
    | unknown => exact .refuse
  | .binary pos op l r, wellFormed => by
    have left := cost_expr l wellFormed.2.1
    have right := cost_expr r wellFormed.2.2
    have before : ∀ {first second : List Stmt}, cost first + 1 ≤ 12 * l.nodes → cost second + 1 ≤ 12 * r.nodes →
        cost (first ++ second) ≤ 12 * (l.nodes + r.nodes) - 2 := by
      intro first second small small'
      rw [cost_append]
      omega
    rw [Source.Expr.nodes]
    cases op with
    | le | ge =>
      rw [expr]
      refine .bind (.inside left) fun out small => .bind (.inside (.inside right)) fun out' small' => ?_
      exact (cost_compareNext (before small small') _ _ _ _).mono fun _ few => by omega
    | unknown =>
      simp only [expr, binOp?]
      exact .refuse
    | _ =>
      rw [Lowers.expr_binary rfl]
      refine .bind (.inside left) fun out small => .bind (.inside right) fun out' small' => ?_
      exact (cost_binary (before small small') _ _ _).mono fun _ few => by omega

theorem cost_args : ∀ (es : List Source.Expr), Source.Expr.AllWellFormed es → ∀ (callee : Name) (index : Nat),
    Ensures (args callee index es) fun out => cost out.1 + out.2.length ≤ 12 * Source.Expr.nodesAll es
  | [], _, callee, index => by
    rw [args]
    exact .pure (Nat.le_refl 0)
  | e :: es, wellFormed, callee, index => by
    rw [args, Source.Expr.nodesAll]
    refine .bind (.inside (cost_expr e wellFormed.1)) fun out small => ?_
    refine .bind (cost_args es wellFormed.2 callee (index + 1)) fun out' small' => .pure ?_
    rw [cost_append, List.length_cons]
    omega

end

theorem cost_assign (target : Name) {e : Source.Expr} (wellFormed : e.WellFormed) :
    Ensures (assign target e) fun code => cost code ≤ 12 * e.nodes + 2 :=
  .bind (cost_expr e wellFormed) fun out small => .pure (by
    rw [cost_append, cost_plain]
    change cost out.1 + (1 + 1 + 1) ≤ _
    omega)

mutual

theorem cost_stmt : ∀ (s : Source.Stmt), s.WellFormed → ∀ (loop : Option Loop),
    Ensures (stmt loop s) fun code => cost code ≤ 12 * s.nodes
  | .missing, wellFormed, _ => wellFormed.elim
  | .assign _ target value, wellFormed, loop => by
    rw [stmt, Source.Stmt.nodes]
    exact (cost_assign target wellFormed.2).mono fun _ _ => by omega
  | .declare _ ty name init, wellFormed, loop => by
    obtain ⟨_, _, _, ⟨rfl, _⟩ | inside⟩ := wellFormed
    · rw [stmt]
      split
      · exact .refuse
      · exact .pure (Nat.zero_le _)
    · rw [stmt, Source.Stmt.nodes]
      · exact (cost_assign name inside).mono fun _ _ => by omega
      · rintro rfl
        exact inside
  | .returnStmt _ value, wellFormed, loop => by
    rcases wellFormed with rfl | inside
    · rw [stmt]
      exact .pure (by decide : 1 ≤ 12 * 1)
    · rw [stmt, Source.Stmt.nodes]
      · refine .bind (.any _) fun res _ => .bind (.inside (cost_assign res inside)) fun code small => .pure ?_
        have few : (Action.ret res).inputs.length ≤ 1 := by
          rw [Action.inputs]
          split <;> simp
        have none : (Action.ret res).outputs.length = 0 := rfl
        rw [cost_append, cost_plain]
        omega
      · rintro rfl
        exact inside
  | .breakStmt _, _, loop | .continueStmt _, _, loop => by
    cases loop with
    | none => rw [stmt]; exact .refuse
    | some l => rw [stmt]; exact .pure (by decide : 1 ≤ 12 * 1)
  | .whileStmt _ check body, wellFormed, loop => by
    rw [stmt, Source.Stmt.nodes]
    refine .bind (.any _) fun _ _ => .bind (.any _) fun _ _ => .bind (.any _) fun _ _ => .bind (.any _) fun _ _ =>
      .bind (.any _) fun flag _ => .bind (.inside (cost_assign flag wellFormed.1)) fun test small =>
      .bind (cost_stmts body wellFormed.2 _) fun code small' => .pure ?_
    simp only [cost_append, cost_cons, cost_nil, Stmt.mark, Stmt.plain, Action.inputs, Action.outputs, List.length_cons,
      List.length_nil]
    omega
  | .ifStmt _ check thenBody elseBody, wellFormed, loop => by
    rw [stmt, Source.Stmt.nodes]
    refine .bind (.any _) fun flag _ => .bind (.any _) fun _ _ => .bind (.any _) fun _ _ =>
      .bind (.inside (cost_assign flag wellFormed.1)) fun test small =>
      .bind (cost_stmts thenBody wellFormed.2.1 loop) fun thenCode small' =>
      .bind (cost_stmts elseBody wellFormed.2.2 loop) fun elseCode small'' => .pure ?_
    simp only [cost_append, cost_cons, cost_nil, Stmt.mark, Stmt.plain, Action.inputs, Action.outputs, List.length_cons,
      List.length_nil]
    omega
  | .exprStmt _ value, wellFormed, loop => by
    rw [stmt, Source.Stmt.nodes]
    exact .bind (cost_expr value wellFormed) fun out small => .pure (by omega)

theorem cost_stmts : ∀ (ss : List Source.Stmt), Source.Stmt.AllWellFormed ss → ∀ (loop : Option Loop),
    Ensures (stmts loop ss) fun code => cost code ≤ 12 * Source.Stmt.nodesAll ss
  | [], _, loop => by
    rw [stmts]
    exact .pure (Nat.le_refl 0)
  | s :: ss, wellFormed, loop => by
    rw [stmts, Source.Stmt.nodesAll]
    refine .bind (cost_stmt s wellFormed.1 loop) fun before small =>
      .bind (cost_stmts ss wellFormed.2 loop) fun code small' => .pure ?_
    rw [cost_append]
    omega

end

def weight (gs : List Function) : Nat :=
  (gs.map fun g => g.params.length + cost g.body).sum

theorem cost_function {f : Source.Function} (wellFormed : f.WellFormed) : Ensures (function f) fun g =>
    g.params.length + cost g.body ≤ 12 * (f.params.length + Source.Stmt.nodesAll f.body) := by
  have whole : ∀ code, cost code ≤ 12 * Source.Stmt.nodesAll f.body →
      (f.params.map param).length + cost code ≤ 12 * (f.params.length + Source.Stmt.nodesAll f.body) := by
    intro code small
    rw [List.length_map]
    omega
  unfold function
  split
  · exact .bind (.pure (Nat.zero_le _)) fun code small => .pure (whole code small)
  · exact .bind (cost_stmts f.body wellFormed.body none) fun code small => .pure (whole code small)

theorem weight_functions {fs : List Source.Function} (wellFormed : ∀ f ∈ fs, f.WellFormed) :
    Ensures (functions fs) fun gs => weight gs ≤ 12 * Source.weight fs := by
  induction fs with
  | nil => exact .pure (Nat.le_refl 0)
  | cons f fs ih =>
    refine .bind (.inside (cost_function (wellFormed f List.mem_cons_self))) fun g small => ?_
    refine .bind (ih fun f' member => wellFormed f' (List.mem_cons_of_mem f member)) fun gs small' => .pure ?_
    change g.params.length + cost g.body + weight gs ≤ 12 * (f.params.length + Source.Stmt.nodesAll f.body + Source.weight fs)
    omega

end OfSource

theorem Program.weight_le_of_ofSource {x : Source.Program} {p : Program} (wellFormed : x.WellFormed)
    (lowered : Program.ofSource x = .ok p) : OfSource.weight p.functions ≤ 12 * Source.weight x.functions := by
  obtain ⟨globals, _, lowered⟩ := bind_eq_ok.1 lowered
  obtain ⟨⟨functions, names⟩, isFunctions, done⟩ := bind_eq_ok.1 lowered
  cases done
  exact OfSource.weight_functions wellFormed.functions _ _ _ isFunctions

end MiniC.Code
