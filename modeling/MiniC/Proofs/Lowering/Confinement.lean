import MiniC.Proofs.Lowering.Writing

namespace MiniC.Source

def Expr.var? : Expr → Option Name
  | .var _ name => some name
  | _ => none

mutual

def Expr.variables : Expr → List Name
  | .missing | .literal _ => []
  | .var _ name => [name]
  | .call _ _ args => Expr.allVariables args
  | .unary _ _ operand => operand.variables
  | .binary _ _ left right => left.variables ++ right.variables

def Expr.allVariables : List Expr → List Name
  | [] => []
  | e :: es => e.variables ++ Expr.allVariables es

end

mutual

/-- The variables that an expression counts up or down. -/
def Expr.counted : Expr → List Name
  | .missing | .literal _ | .var _ _ => []
  | .call _ _ args => Expr.allCounted args
  | .unary _ op operand => (if op.counts then operand.var?.toList else []) ++ operand.counted
  | .binary _ _ left right => left.counted ++ right.counted

def Expr.allCounted : List Expr → List Name
  | [] => []
  | e :: es => e.counted ++ Expr.allCounted es

end

theorem Expr.mem_variables_of_var? {e : Expr} {x : Name} (isVar : e.var? = some x) : x ∈ e.variables := by
  cases e with
  | var pos name =>
    cases isVar
    exact List.mem_singleton_self x
  | _ => cases isVar

mutual

theorem Expr.counted_subset : ∀ e : Expr, e.counted ⊆ e.variables
  | .missing | .literal _ | .var _ _ => List.nil_subset _
  | .call _ _ args => Expr.allCounted_subset args
  | .unary _ op operand => by
    intro x member
    rcases List.mem_append.1 member with here | below
    · split at here
      · exact Expr.mem_variables_of_var? (e := operand) (Option.mem_toList.1 here)
      · cases here
    · exact Expr.counted_subset operand below
  | .binary _ _ left right =>
    List.append_subset.2 ⟨List.subset_append_of_subset_left _ (Expr.counted_subset left),
      List.subset_append_of_subset_right _ (Expr.counted_subset right)⟩

theorem Expr.allCounted_subset : ∀ es : List Expr, Expr.allCounted es ⊆ Expr.allVariables es
  | [] => List.nil_subset _
  | e :: es =>
    List.append_subset.2 ⟨List.subset_append_of_subset_left _ (Expr.counted_subset e),
      List.subset_append_of_subset_right _ (Expr.allCounted_subset es)⟩

end

end MiniC.Source

namespace MiniC.Code

variable {x : Name} {e : Expr}

/-- Actions that compute a value and put it into a name. -/
def Action.isComputation : Action → Bool
  | .store .. | .unary .. | .binary .. | .call .. => true
  | _ => false

def written (code : List Stmt) : List Name :=
  code.flatMap fun s => s.action.outputs

@[simp] theorem written_append (first second : List Stmt) : written (first ++ second) = written first ++ written second :=
  List.flatMap_append

@[simp] theorem written_plain (action : Action) : written [.plain action] = action.outputs :=
  List.append_nil _

/-- A generated name is read only after it was written. -/
def WritesFirst (code : List Stmt) : Prop :=
  ∀ before s behind, code = before ++ s :: behind →
    ∀ x ∈ s.action.inputs, Name.isGenerated x = true → x ∈ written before

theorem WritesFirst.nil : WritesFirst [] := by
  intro before s behind split
  simp at split

theorem WritesFirst.append {first second : List Stmt} (left : WritesFirst first) (right : WritesFirst second) :
    WritesFirst (first ++ second) := by
  intro before s behind split x read generated
  rcases List.append_eq_append_iff.1 split with ⟨more, rfl, rest⟩ | ⟨more, rfl, rest⟩
  · rw [written_append]
    exact List.mem_append_right _ (right more s behind rest x read generated)
  · cases more with
    | nil => exact absurd (right [] s behind rest.symm x read generated) List.not_mem_nil
    | cons head more =>
      obtain ⟨rfl, rfl⟩ := List.cons.inj rest
      exact left before s more rfl x read generated

theorem WritesFirst.snoc {code : List Stmt} (before : WritesFirst code) {action : Action}
    (known : ∀ x ∈ action.inputs, Name.isGenerated x = true → x ∈ written code) :
    WritesFirst (code ++ [Stmt.plain action]) := by
  intro first s behind split x read generated
  rcases List.eq_nil_or_concat behind with rfl | ⟨behind, last, rfl⟩
  · obtain ⟨rfl, same⟩ := List.append_inj' split rfl
    cases same
    exact known x read generated
  · rw [List.concat_eq_append, ← List.cons_append, ← List.append_assoc] at split
    exact before first s behind (List.append_inj' split rfl).1 x read generated

namespace OfSource

open Source (Expr)

variable {start : Namer} {counted : List Name} {a b c : Nat} {code : List Stmt}

/-- Code that may be added while the count of names goes from `a` to `b` and some variables are counted. -/
structure Adds (start : Namer) (counted : List Name) (a b : Nat) (code : List Stmt) : Prop where
  lower : a ≤ b
  upper : b ≤ a + code.length
  user : ∀ x ∈ counted, Name.isGenerated x = false
  straight : ∀ s ∈ code, s.label = [] ∧ s.action.isComputation = true
  writes : ∀ x ∈ written code, x ∈ counted ∨ ∃ j, a < j ∧ j ≤ b ∧ x = start.made Name.temporary j
  reads : WritesFirst code

namespace Adds

theorem of_nil (start : Namer) (a : Nat) : Adds start [] a a [] where
  lower := Nat.le_refl a
  upper := Nat.le_refl a
  user := List.forall_mem_nil _
  straight := List.forall_mem_nil _
  writes := List.forall_mem_nil _
  reads := .nil

theorem more {counted' : List Name} (adds : Adds start counted a b code) (subset : counted ⊆ counted')
    (user : ∀ x ∈ counted', Name.isGenerated x = false) : Adds start counted' a b code :=
  { adds with
    user
    writes := fun x member => (adds.writes x member).imp_left fun isCounted => subset isCounted }

theorem append {counted' : List Name} {code' : List Stmt} (left : Adds start counted a b code)
    (right : Adds start counted' b c code') : Adds start (counted ++ counted') a c (code ++ code') := by
  have lower := left.lower
  have lower' := right.lower
  have upper := left.upper
  have upper' := right.upper
  refine ⟨by omega, by rw [List.length_append]; omega, List.forall_mem_append.2 ⟨left.user, right.user⟩,
    List.forall_mem_append.2 ⟨left.straight, right.straight⟩, ?_, left.reads.append right.reads⟩
  rw [written_append]
  refine List.forall_mem_append.2 ⟨fun x member => ?_, fun x member => ?_⟩
  · refine (left.writes x member).imp (List.mem_append_left _) ?_
    rintro ⟨j, above, below, made⟩
    exact ⟨j, above, by omega, made⟩
  · refine (right.writes x member).imp (List.mem_append_right _) ?_
    rintro ⟨j, above, below, made⟩
    exact ⟨j, by omega, below, made⟩

theorem snoc {action : Action} (adds : Adds start counted a b code) (next : b ≤ c) (once : c ≤ b + 1)
    (computes : action.isComputation = true)
    (writes : ∀ x ∈ action.outputs, x ∈ counted ∨ ∃ j, a < j ∧ j ≤ c ∧ x = start.made Name.temporary j)
    (reads : ∀ x ∈ action.inputs, Name.isGenerated x = true → x ∈ written code) :
    Adds start counted a c (code ++ [Stmt.plain action]) := by
  have lower := adds.lower
  have upper := adds.upper
  refine ⟨by omega, by rw [List.length_append, List.length_singleton]; omega, adds.user, ?_, ?_, adds.reads.snoc reads⟩
  · refine List.forall_mem_append.2 ⟨adds.straight, fun s member => ?_⟩
    rw [List.mem_singleton.1 member]
    exact ⟨rfl, computes⟩
  · rw [written_append, written_plain]
    refine List.forall_mem_append.2 ⟨fun x member => ?_, writes⟩
    refine (adds.writes x member).imp_right ?_
    rintro ⟨j, above, below, made⟩
    exact ⟨j, above, by omega, made⟩

theorem exists_made (adds : Adds start counted a b code) (member : x ∈ written code)
    (generated : Name.isGenerated x = true) : ∃ j, a < j ∧ j ≤ b ∧ x = start.made Name.temporary j := by
  refine (adds.writes x member).resolve_left fun isCounted => ?_
  rw [adds.user x isCounted] at generated
  cases generated

end Adds

def Readable (code : List Stmt) (x : Name) : Prop :=
  Name.isGenerated x = true → x ∈ written code

theorem Readable.append (readable : Readable code x) (more : List Stmt) : Readable (code ++ more) x := by
  intro generated
  rw [written_append]
  exact List.mem_append_left _ (readable generated)

theorem Readable.behind {x : Name} (readable : Readable code x) (before : List Stmt) : Readable (before ++ code) x := by
  intro generated
  rw [written_append]
  exact List.mem_append_right _ (readable generated)

/-- Code that gives a value in a new temporary. -/
def Puts (start : Namer) (counted : List Name) (a : Nat) (code : List Stmt) (out : List Stmt × Name) (b : Nat) : Prop :=
  Adds start counted a b out.1 ∧ code <+: out.1 ∧ Name.isGenerated out.2 = true ∧ out.2 ∈ written out.1

theorem Puts.readable {out : List Stmt × Name} (puts : Puts start counted a code out b) : Readable out.1 out.2 :=
  fun _ => puts.2.2.2

theorem Readable.mono {code' : List Stmt} (readable : Readable code x) (grows : code <+: code') :
    Readable code' x := by
  obtain ⟨more, rfl⟩ := grows
  exact readable.append more

section

variable (adds : Adds start counted a b code)

include adds

theorem adds_dest (readable : Readable code x) :
    Counts start (dest x) b fun res c => c ≤ b + 1 ∧ ∃ j, a < j ∧ j ≤ c ∧ res = start.made Name.temporary j := by
  have lower := adds.lower
  unfold dest
  split
  · rename_i generated
    exact .pure ⟨Nat.le_succ b, adds.exists_made (readable generated) generated⟩
  · refine (Counts.fresh _).mono ?_
    rintro _ _ _ ⟨rfl, rfl⟩
    exact ⟨Nat.le_refl _, b + 1, by omega, Nat.le_refl _, rfl⟩

theorem adds_fresh :
    Counts start (fresh Name.temporary) b fun res c => c ≤ b + 1 ∧ ∃ j, a < j ∧ j ≤ c ∧ res = start.made Name.temporary j := by
  have lower := adds.lower
  refine (Counts.fresh _).mono ?_
  rintro _ _ _ ⟨rfl, rfl⟩
  exact ⟨Nat.le_refl _, b + 1, by omega, Nat.le_refl _, rfl⟩

theorem adds_result {pick : Lower Name} {action : Name → Action}
    (picks : Counts start pick b fun res c => c ≤ b + 1 ∧ ∃ j, a < j ∧ j ≤ c ∧ res = start.made Name.temporary j)
    (computes : ∀ res, (action res).isComputation = true)
    (outputs : ∀ res, res ≠ [] → (action res).outputs = [res])
    (reads : ∀ res, ∀ x ∈ (action res).inputs, Readable code x) :
    Counts start (do
      let res ← pick
      pure (code ++ [Stmt.plain (action res)], res)) b (Puts start counted a code) := by
  refine .bind picks ?_
  rintro _ c next ⟨once, j, above, below, rfl⟩
  have isOutput := outputs _ (Name.generated_ne_nil Name.temporary (start.after j).count)
  refine .pure ⟨adds.snoc next once (computes _) ?_ (reads _), List.prefix_append .., Namer.isGenerated_made .., ?_⟩
  · rw [Namer.made, isOutput]
    rintro x member
    exact .inr ⟨j, above, below, List.mem_singleton.1 member⟩
  · rw [written_append, written_plain, Namer.made, isOutput]
    exact List.mem_append_right _ (List.mem_singleton_self _)

theorem adds_unary {op : UnOp} {arg : Name} (readable : Readable code arg) :
    Counts start (unary code op arg) b (Puts start counted a code) := by
  refine adds_result adds (adds_dest adds readable) (fun _ => rfl) (fun _ _ => rfl) ?_
  intro res x member
  rwa [List.mem_singleton.1 member]

theorem adds_binary {op : BinOp} {left right : Name} (isLeft : Readable code left) (isRight : Readable code right) :
    Counts start (binary code op left right) b (Puts start counted a code) := by
  refine adds_result adds (adds_dest adds isLeft) (fun _ => rfl) (fun _ _ => rfl) ?_
  intro res
  exact List.forall_mem_cons.2 ⟨isLeft, List.forall_mem_singleton.2 isRight⟩

theorem adds_one : Counts start (one code) b (Puts start counted a code) :=
  adds_result adds (adds_fresh adds) (fun _ => rfl) (fun _ _ => rfl) fun _ => List.forall_mem_nil _

theorem adds_count {op : BinOp} {var : Name} (readable : Readable code var)
    (isTarget : Name.isGenerated var = false → var ∈ counted) :
    Counts start (count code op var) b fun out c => Adds start counted a c out.1 ∧ code <+: out.1 ∧ out.2 = var := by
  refine .bind (adds_one adds) ?_
  rintro ⟨code', unit⟩ c next ⟨adds', grows, _, isUnit⟩
  refine .pure ⟨adds'.snoc (Nat.le_refl c) (Nat.le_succ c) rfl ?_ ?_, grows.trans (List.prefix_append ..), rfl⟩
  · intro x member
    rw [List.mem_singleton.1 member]
    cases generated : Name.isGenerated var with
    | false => exact .inl (isTarget generated)
    | true => exact .inr (adds'.exists_made (readable.mono grows generated) generated)
  · exact List.forall_mem_cons.2 ⟨readable.mono grows, List.forall_mem_singleton.2 fun _ => isUnit⟩

theorem adds_compareNext {op step : BinOp} {left right : Name} (isLeft : Readable code left)
    (isRight : Readable code right) : Counts start (compareNext code op step left right) b (Puts start counted a code) := by
  refine .bind (adds_one adds) ?_
  rintro ⟨code', unit⟩ c _ isUnit
  have grows : code <+: code' := isUnit.2.1
  refine .bind (adds_binary isUnit.1 (isRight.mono grows) isUnit.readable) ?_
  rintro ⟨code'', bound⟩ d _ isBound
  have grows' : code <+: code'' := grows.trans isBound.2.1
  refine (adds_binary isBound.1 (isLeft.mono grows') isBound.readable).mono ?_
  rintro out e _ ⟨adds', more, result⟩
  exact ⟨adds', grows'.trans more, result⟩

end

/-- The name of the value of an expression behind its code. A variable is the expression itself, or counted by it. -/
def IsResult (e : Expr) (code : List Stmt) (x : Name) : Prop :=
  Name.isGenerated x = true ∧ x ∈ written code ∨
    Name.isGenerated x = false ∧ (e.var? = some x ∨ x ∈ e.counted)

theorem IsResult.readable (result : IsResult e code x) : Readable code x := by
  rcases result with ⟨_, member⟩ | ⟨user, _⟩
  · exact fun _ => member
  · intro generated
    rw [user] at generated
    cases generated

theorem IsResult.mem_counted (result : IsResult e code x) (pos : Source.Position) {op : Source.UnOp}
    (counts : op.counts = true) (user : Name.isGenerated x = false) : x ∈ Expr.counted (.unary pos op e) := by
  rw [Expr.counted, if_pos counts]
  rcases result with ⟨generated, _⟩ | ⟨_, isVar | isCounted⟩
  · rw [user] at generated
    cases generated
  · exact List.mem_append_left _ (Option.mem_toList.2 isVar)
  · exact List.mem_append_right _ isCounted

def Computed (start : Namer) (e : Expr) (a : Nat) (out : List Stmt × Name) (b : Nat) : Prop :=
  Adds start e.counted a b out.1 ∧ IsResult e out.1 out.2

theorem Puts.computed {out : List Stmt × Name} (puts : Puts start e.counted a code out b) :
    Computed start e a out b :=
  ⟨puts.1, .inl puts.2.2⟩

theorem adds_operands {l r : Expr} {β : Type} {R : β → Nat → Prop} {first second : Lower (List Stmt × Name)}
    {f : List Stmt × Name → List Stmt × Name → Lower β} (left : ∀ a, Counts start first a (Computed start l a))
    (right : ∀ a, Counts start second a (Computed start r a))
    (next : ∀ before code x y b, Adds start (l.counted ++ r.counted) a b (before ++ code) → Readable (before ++ code) x →
      Readable (before ++ code) y → Counts start (f (before, x) (code, y)) b R) :
    Counts start (do f (← first) (← second)) a R := by
  refine .bind (left a) ?_
  rintro ⟨before, x⟩ b _ ⟨isBefore, isLeft⟩
  refine .bind (right b) ?_
  rintro ⟨code, y⟩ c _ ⟨isCode, isRight⟩
  exact next before code x y c (isBefore.append isCode) (isLeft.readable.append code) (isRight.readable.behind before)

mutual

theorem adds_expr : ∀ (e : Expr), (∀ x ∈ e.variables, Name.isGenerated x = false) → ∀ a,
    Counts start (expr e) a (Computed start e a)
  | .missing, _, _ => by
    rw [expr_missing]
    exact .refuse
  | .var _ x, user, a => by
    rw [expr]
    exact .pure ⟨.of_nil start a, .inr ⟨user x (List.mem_singleton_self x), .inl rfl⟩⟩
  | .literal l, _, a => by
    rw [expr]
    refine .bind .lift ?_
    rintro value b _ ⟨same, _⟩
    subst b
    have adds := Adds.of_nil start a
    exact (adds_result adds (adds_fresh adds) (fun _ => rfl) (fun _ _ => rfl) fun _ => List.forall_mem_nil _).mono
      fun _ _ _ puts => puts.computed
  | .call _ callee es, user, a => by
    rw [expr]
    refine .bind (adds_args es user callee 0 a) ?_
    rintro ⟨code, names⟩ b _ ⟨adds, readable⟩
    have outputs : ∀ res, res ≠ [] → (Action.call callee names res).outputs = [res] := by
      intro res named
      rw [Action.outputs, if_neg named]
    exact (adds_result adds (adds_fresh adds) (fun _ => rfl) outputs fun _ => readable).mono
      fun _ _ _ puts => puts.computed
  | .unary pos op e, user, a => by
    rw [expr]
    have counts : ∀ x ∈ Expr.counted (.unary pos op e), Name.isGenerated x = false :=
      fun x member => user x (Expr.counted_subset _ member)
    refine .bind (adds_expr e user a) ?_
    rintro ⟨code, x⟩ b _ ⟨adds, result⟩
    have adds' : Adds start (Expr.counted (.unary pos op e)) a b code :=
      adds.more (List.subset_append_right _ _) counts
    cases op with
    | not | invert | negate => exact (adds_unary adds' result.readable).mono fun _ _ _ puts => puts.computed
    | increment | decrement =>
      refine (adds_count adds' result.readable (result.mem_counted pos rfl)).mono ?_
      rintro ⟨code', y⟩ c _ ⟨adds'', grows, rfl⟩
      refine ⟨adds'', ?_⟩
      cases generated : Name.isGenerated y with
      | true => exact .inl ⟨generated, result.readable.mono grows generated⟩
      | false => exact .inr ⟨generated, .inr (result.mem_counted pos rfl generated)⟩
    | unknown => exact .refuse
  | .binary pos op l r, user, a => by
    obtain ⟨userLeft, userRight⟩ := List.forall_mem_append.1 user
    have left := adds_expr l userLeft
    have right := adds_expr r userRight
    cases op with
    | le | ge =>
      rw [expr]
      refine adds_operands (fun a => .inside (left a)) (fun a => .inside (.inside (right a))) ?_
      intro before code x y b adds isLeft isRight
      exact (adds_compareNext adds isLeft isRight).mono fun _ _ _ puts => puts.computed
    | unknown =>
      simp only [expr, binOp?]
      exact .refuse
    | _ =>
      rw [Lowers.expr_binary rfl]
      refine adds_operands (fun a => .inside (left a)) (fun a => .inside (right a)) ?_
      intro before code x y b adds isLeft isRight
      exact (adds_binary adds isLeft isRight).mono fun _ _ _ puts => puts.computed

theorem adds_args : ∀ (es : List Expr), (∀ x ∈ Expr.allVariables es, Name.isGenerated x = false) →
    ∀ (callee : Name) (index a : Nat), Counts start (args callee index es) a fun out b =>
      Adds start (Expr.allCounted es) a b out.1 ∧ ∀ x ∈ out.2, Readable out.1 x
  | [], _, callee, index, a => by
    rw [args]
    exact .pure ⟨.of_nil start a, fun _ never => nomatch never⟩
  | e :: es, user, callee, index, a => by
    obtain ⟨userFirst, userRest⟩ := List.forall_mem_append.1 user
    rw [args]
    refine .bind (.inside (adds_expr e userFirst a)) ?_
    rintro ⟨before, x⟩ b _ ⟨adds, result⟩
    refine .bind (adds_args es userRest callee (index + 1) b) ?_
    rintro ⟨code, xs⟩ c _ ⟨adds', readable⟩
    refine .pure ⟨adds.append adds', List.forall_mem_cons.2 ⟨result.readable.append code, ?_⟩⟩
    exact fun y member => (readable y member).behind before

end

mutual

/-- The code of an expression behind some code, and the name that holds its value then. -/
def exprOnto (code : List Stmt) : Expr → Lower (List Stmt × Name)
  | .missing => refuse .missingExpr
  | .var _ name => pure (code, name)
  | .literal l => do
    let value ← constant l
    let res ← fresh Name.temporary
    pure (code ++ [.plain (.store res (some value))], res)
  | .call _ callee xs => do
    let (code, names) ← argsOnto code callee 0 xs
    let res ← fresh Name.temporary
    pure (code ++ [.plain (.call callee names res)], res)
  | .unary pos op x => do
    let (code, arg) ← exprOnto code x
    match op with
    | .not => unary code .logNeg arg
    | .invert => unary code .bitNeg arg
    | .negate => unary code .minus arg
    | .increment => count code .add arg
    | .decrement => count code .sub arg
    | .unknown _ _ => refuse (.unaryOp pos op)
  | .binary _ .le l r => do
    let (code, left) ← inside (.left .lt) (exprOnto code l)
    let (code, right) ← inside (.right .lt) (inside (.left .add) (exprOnto code r))
    compareNext code .lt .add left right
  | .binary _ .ge l r => do
    let (code, left) ← inside (.left .gt) (exprOnto code l)
    let (code, right) ← inside (.right .gt) (inside (.left .sub) (exprOnto code r))
    compareNext code .gt .sub left right
  | .binary pos op l r =>
    match binOp? op with
    | none => refuse (.binaryOp pos op)
    | some bop => do
      let (code, left) ← inside (.left op) (exprOnto code l)
      let (code, right) ← inside (.right op) (exprOnto code r)
      binary code bop left right

def argsOnto (code : List Stmt) (callee : Name) (index : Nat) : List Expr → Lower (List Stmt × List Name)
  | [] => pure (code, [])
  | x :: xs => do
    let (code, name) ← inside (.arg callee index) (exprOnto code x)
    let (code, names) ← argsOnto code callee (index + 1) xs
    pure (code, name :: names)

end

theorem exprOnto_binary {pos : Source.Position} {op : Source.BinOp} {bop : BinOp} {l r : Expr} (known : binOp? op = some bop)
    (code : List Stmt) : exprOnto code (.binary pos op l r) = (do
      let (code, left) ← inside (.left op) (exprOnto code l)
      let (code, right) ← inside (.right op) (exprOnto code r)
      binary code bop left right) := by
  rw [exprOnto, known]
  · rintro rfl
    cases known
  · rintro rfl
    cases known

def behind {α : Type} (code : List Stmt) (x : Lower (List Stmt × α)) : Lower (List Stmt × α) := do
  let (more, a) ← x
  pure (code ++ more, a)

section

variable {α β : Type} (code new : List Stmt)

theorem behind_bind (x : Lower α) (f : α → Lower (List Stmt × β)) :
    behind code (x >>= f) = x >>= fun a => behind code (f a) :=
  bind_assoc _ _ _

theorem bind_behind (x : Lower (List Stmt × α)) (f : List Stmt × α → Lower (List Stmt × β)) :
    behind code x >>= f = x >>= fun out => f (code ++ out.1, out.2) := by
  rw [behind, bind_assoc]
  rfl

theorem behind_pure (a : α) : behind code (pure (new, a)) = pure (code ++ new, a) :=
  rfl

theorem inside_behind (step : Step) (x : Lower (List Stmt × α)) :
    inside step (behind code x) = behind code (inside step x) := by
  funext names
  simp only [inside, behind]
  change within step (x names >>= _) = within step (x names) >>= _
  cases x names <;> rfl

theorem unary_behind (op : UnOp) (arg : Name) : unary (code ++ new) op arg = behind code (unary new op arg) := by
  rw [unary, unary, behind_bind]
  simp only [behind_pure, List.append_assoc]

theorem binary_behind (op : BinOp) (left right : Name) :
    binary (code ++ new) op left right = behind code (binary new op left right) := by
  rw [binary, binary, behind_bind]
  simp only [behind_pure, List.append_assoc]

theorem one_behind : one (code ++ new) = behind code (one new) := by
  rw [one, one, behind_bind]
  simp only [behind_pure, List.append_assoc]

theorem count_behind (op : BinOp) (var : Name) : count (code ++ new) op var = behind code (count new op var) := by
  rw [count, count, one_behind, behind_bind, bind_behind]
  simp only [behind_pure, List.append_assoc]

theorem compareNext_behind (op step : BinOp) (left right : Name) :
    compareNext (code ++ new) op step left right = behind code (compareNext new op step left right) := by
  rw [compareNext, compareNext, one_behind, behind_bind, bind_behind]
  simp only [binary_behind, behind_bind, bind_behind]

end

mutual

theorem exprOnto_eq : ∀ (code : List Stmt) (e : Expr), exprOnto code e = behind code (expr e)
  | code, .missing => by rw [exprOnto, expr]; rfl
  | code, .var _ x => by rw [exprOnto, expr, behind_pure, List.append_nil]
  | code, .literal l => by
    rw [exprOnto, expr, behind_bind]
    simp only [behind_bind, behind_pure]
  | code, .call _ callee es => by
    rw [exprOnto, expr, argsOnto_eq, behind_bind, bind_behind]
    simp only [behind_bind, behind_pure, List.append_assoc]
  | code, .unary pos op e => by
    rw [exprOnto, expr, exprOnto_eq code e, behind_bind, bind_behind]
    refine bind_congr fun out => ?_
    cases op with
    | not | invert | negate => exact unary_behind ..
    | increment | decrement => exact count_behind ..
    | unknown => rfl
  | code, .binary pos op l r => by
    cases op with
    | le | ge =>
      rw [exprOnto, expr, exprOnto_eq code l, inside_behind, behind_bind, bind_behind]
      refine bind_congr fun out => ?_
      simp only [exprOnto_eq _ r, inside_behind, behind_bind, bind_behind, List.append_assoc, compareNext_behind]
    | unknown =>
      simp only [exprOnto, expr, binOp?]
      rfl
    | _ =>
      rw [exprOnto_binary rfl, Lowers.expr_binary rfl, exprOnto_eq code l, inside_behind, behind_bind, bind_behind]
      refine bind_congr fun out => ?_
      simp only [exprOnto_eq _ r, inside_behind, behind_bind, bind_behind, List.append_assoc, binary_behind]

theorem argsOnto_eq : ∀ (code : List Stmt) (callee : Name) (index : Nat) (es : List Expr),
    argsOnto code callee index es = behind code (args callee index es)
  | code, callee, index, [] => by rw [argsOnto, args, behind_pure, List.append_nil]
  | code, callee, index, e :: es => by
    rw [argsOnto, args, exprOnto_eq code e, inside_behind, behind_bind, bind_behind]
    refine bind_congr fun out => ?_
    simp only [argsOnto_eq, behind_bind, bind_behind, behind_pure, List.append_assoc]

end

/-- What the code of an expression is confined to, when it is lowered at some count of names. The next names are numbered
above that count, as long as it does not come round. -/
structure Confined (e : Expr) (names : Namer) (new : List Stmt) (x : Name) : Prop where
  straight : ∀ s ∈ new, s.label = [] ∧ s.action.isComputation = true
  writes : ∀ y ∈ written new, y ∈ e.counted ∨ ∃ j, 0 < j ∧ j ≤ new.length ∧ y = names.made Name.temporary j
  above : names.count.toInt + new.length < 2 ^ 63 → ∀ y ∈ written new, y ∈ e.counted ∨
    ∃ n, y = Name.generated Name.temporary n ∧ names.count < n
  reads : WritesFirst new
  result : Name.isGenerated x = true ∧ x ∈ written new ∨ x ∈ e.variables
  keeps : ∀ y, Name.isGenerated y = false → y ∉ e.counted → y ∉ written new

theorem confined_of_adds {names : Namer} {new : List Stmt} {b : Nat}
    (adds : Adds names e.counted 0 b new) (result : IsResult e new x) : Confined e names new x := by
  have upper := adds.upper
  constructor
  case straight => exact adds.straight
  case writes =>
    intro y member
    refine (adds.writes y member).imp_right ?_
    rintro ⟨j, above, below, made⟩
    exact ⟨j, above, by omega, made⟩
  case above =>
    intro room y member
    refine (adds.writes y member).imp_right ?_
    rintro ⟨j, above, below, rfl⟩
    refine ⟨_, rfl, Int64.lt_iff_toInt_lt.2 ?_⟩
    rw [Namer.toInt_after (by omega)]
    omega
  case reads => exact adds.reads
  case result =>
    refine result.imp_right ?_
    rintro ⟨_, isVar | isCounted⟩
    · exact Expr.mem_variables_of_var? isVar
    · exact Expr.counted_subset e isCounted
  case keeps =>
    intro y user uncounted member
    rcases adds.writes y member with isCounted | ⟨j, _, _, rfl⟩
    · exact uncounted isCounted
    · rw [Namer.isGenerated_made] at user
      cases user

/-- Lowering an expression keeps the code before it and adds code that is confined. -/
theorem confined_of_exprOnto {code code' : List Stmt} {e : Expr} {names names' : Namer} {x : Name}
    (user : ∀ y ∈ e.variables, Name.isGenerated y = false)
    (lowered : exprOnto code e names = .ok ((code', x), names')) :
    ∃ new, code' = code ++ new ∧ expr e names = .ok ((new, x), names') ∧ Confined e names new x := by
  rw [exprOnto_eq] at lowered
  obtain ⟨⟨new, y⟩, mid, isExpr, done⟩ := bind_ok.1 lowered
  obtain ⟨same, rfl⟩ := pure_ok.1 done
  cases same
  have counts := @adds_expr names e user 0
  rw [Counts, Namer.after_zero] at counts
  obtain ⟨b, _, _, adds, result⟩ := counts _ _ isExpr
  exact ⟨new, rfl, isExpr, confined_of_adds adds result⟩

def mixed : Expr :=
  let pos := Source.Position.nowhere
  let count (op : Source.UnOp) (name : Name) : Expr := .unary pos op (.var pos name)
  .binary pos .sub
    (.call pos "f" [count .increment "x", .binary pos .le (.var pos "a") (count .decrement "y")]) (count .not "a")

def mixedCode : List Stmt :=
  [.mark "__L1", .plain (.store "__t7" (some (.int 1))), .plain (.binary .add "x" "x" "__t7"),
    .plain (.store "__t8" (some (.int 1))), .plain (.binary .sub "y" "y" "__t8"),
    .plain (.store "__t9" (some (.int 1))), .plain (.binary .add "__t10" "y" "__t9"),
    .plain (.binary .lt "__t11" "a" "__t10"), .plain (.call "f" ["x", "__t11"] "__t12"),
    .plain (.unary .logNeg "__t13" "a"), .plain (.binary .sub "__t12" "__t12" "__t13")]

theorem confined_of_exprOnto_mixed : exprOnto [.mark "__L1"] mixed ⟨6⟩ = .ok ((mixedCode, "__t12"), ⟨13⟩) ∧
    ∃ new, mixedCode = [Stmt.mark "__L1"] ++ new ∧ expr mixed ⟨6⟩ = .ok ((new, "__t12"), ⟨13⟩) ∧
      Confined mixed ⟨6⟩ new "__t12" :=
  ⟨by rfl, confined_of_exprOnto (by decide) (by rfl)⟩

/-- At the largest count of names the value of a literal is written to a name with the least number of all. -/
theorem unconfined_overflowing :
    let e : Expr := .literal ⟨.nowhere, .int 5⟩
    let least := Name.generated Name.temporary Int64.minValue
    ∃ new, exprOnto [] e ⟨Int64.maxValue⟩ = .ok ((new, least), ⟨Int64.minValue⟩) ∧
      (∀ y ∈ e.variables, Name.isGenerated y = false) ∧ least ∈ written new ∧ least ∉ e.counted ∧
      ∀ n, least = Name.generated Name.temporary n → n < Int64.maxValue := by
  intro e least
  refine ⟨[.plain (.store least (some (.int 5)))], by rfl, by decide, by decide, by decide, ?_⟩
  intro n same
  rw [← Name.generated_injective same]
  decide

end OfSource

end MiniC.Code
