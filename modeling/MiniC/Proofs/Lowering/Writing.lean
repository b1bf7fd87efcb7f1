import MiniC.Proofs.Lowering.Programs
import MiniC.Proofs.Source.Names
import MiniC.Proofs.Storage.Programs

namespace MiniC.Code

def labels (code : List Stmt) : List Name :=
  (code.map Stmt.label).filter fun label => label ≠ []

@[simp] theorem labels_append (first second : List Stmt) : labels (first ++ second) = labels first ++ labels second := by
  simp [labels]

theorem labels_cons (s : Stmt) (code : List Stmt) : labels (s :: code) = labels [s] ++ labels code :=
  labels_append [s] code

@[simp] theorem labels_nil : labels [] = [] := rfl

@[simp] theorem labels_plain (action : Action) (code : List Stmt) : labels (.plain action :: code) = labels code := by
  simp [labels, Stmt.plain]

theorem labels_mark {label : Name} (named : label ≠ []) (code : List Stmt) :
    labels (.mark label :: code) = label :: labels code := by
  simp [labels, Stmt.mark, named]

theorem labels_eq_nil {code : List Stmt} (plain : ∀ s ∈ code, s.label = []) : labels code = [] := by
  simpa [labels, List.filter_eq_nil_iff] using plain

def Action.target? : Action → Option Name
  | .jump target | .branch _ _ target => some target
  | _ => none

def Action.IsWritten (Operand : Name → Prop) : Action → Prop
  | .nop | .jump _ => True
  | .move .. => False
  | .store dest value => Operand dest ∧ ∃ v, value = some v ∧ ∀ name, v ≠ .symbol name
  | .binary op dest left right => op ∈ BinOp.all ∧ Operand dest ∧ Operand left ∧ Operand right
  | .unary op dest arg => op ∈ UnOp.all ∧ Operand dest ∧ Operand arg
  | .branch check var _ => check = .zero ∧ Operand var
  | .call _ args result => (∀ arg ∈ args, Operand arg) ∧ Operand result
  | .ret var => var = [] ∨ Operand var

theorem Action.IsWritten.mono {P Q : Name → Prop} (weaker : ∀ x, P x → Q x) {a : Action} (written : a.IsWritten P) :
    a.IsWritten Q := by
  cases a with
  | nop | jump => trivial
  | move => exact written
  | store => exact ⟨weaker _ written.1, written.2⟩
  | binary => exact ⟨written.1, weaker _ written.2.1, weaker _ written.2.2.1, weaker _ written.2.2.2⟩
  | unary => exact ⟨written.1, weaker _ written.2.1, weaker _ written.2.2⟩
  | branch => exact ⟨written.1, weaker _ written.2⟩
  | call => exact ⟨fun arg member => weaker _ (written.1 arg member), weaker _ written.2⟩
  | ret => exact written.imp_right (weaker _)

/-- Statements that lowering writes, with jumps to some labels. A statement that does nothing has a label. -/
structure Stmt.IsWritten (Operand : Name → Prop) (targets : List Name) (s : Stmt) : Prop where
  target : ∀ t, s.action.target? = some t → t ∈ targets
  marked : s.action = .nop → s.label ≠ []
  action : s.action.IsWritten Operand

namespace Stmt.IsWritten

variable {P Q : Name → Prop} {targets targets' : List Name} {s : Stmt}

theorem mono (written : s.IsWritten P targets) (weaker : ∀ x, P x → Q x) (more : targets ⊆ targets') :
    s.IsWritten Q targets' :=
  ⟨fun t isTarget => more (written.target t isTarget), written.marked, written.action.mono weaker⟩

theorem plain {action : Action} (straight : action.target? = none) (acts : action ≠ .nop) (written : action.IsWritten P) :
    (Stmt.plain action).IsWritten P targets where
  target t isTarget := by cases straight.symm.trans isTarget
  marked empty := absurd empty acts
  action := written

theorem mark {label : Name} (named : label ≠ []) : (Stmt.mark label).IsWritten P targets :=
  ⟨nofun, fun _ => named, trivial⟩

theorem jump {target : Name} (inside : target ∈ targets) : (Stmt.plain (.jump target)).IsWritten P targets :=
  ⟨fun _ isTarget => Option.some.inj isTarget ▸ inside, nofun, trivial⟩

theorem branch {var target : Name} (inside : target ∈ targets) (operand : P var) :
    (Stmt.plain (.branch .zero var target)).IsWritten P targets :=
  ⟨fun _ isTarget => Option.some.inj isTarget ▸ inside, nofun, rfl, operand⟩

end Stmt.IsWritten

namespace OfSource

/-- A name with a property, or a temporary in a range. -/
def Named (P : Name → Prop) (start : Namer) (a b : Nat) (x : Name) : Prop :=
  P x ∨ ∃ j, a < j ∧ j ≤ b ∧ x = start.made Name.temporary j

/-- A name of the user, or a temporary in a range. -/
def Operand (start : Namer) (a b : Nat) (x : Name) : Prop :=
  (Name.isGenerated x = false ∧ x ≠ []) ∨ ∃ j, a < j ∧ j ≤ b ∧ x = start.made Name.temporary j

variable {P : Name → Prop} {start : Namer} {a b c : Nat}

theorem Named.mono {a' b' : Nat} (le : a' ≤ a) (le' : b ≤ b') {x : Name} (named : Named P start a b x) :
    Named P start a' b' x := by
  rcases named with user | ⟨j, above, below, rfl⟩
  · exact .inl user
  · exact .inr ⟨j, by omega, by omega, rfl⟩

theorem Named.made (start : Namer) {j : Nat} (above : a < j) (below : j ≤ b) :
    Named P start a b (start.made Name.temporary j) :=
  .inr ⟨j, above, below, rfl⟩

def IsStraight (P : Name → Prop) (start : Namer) (a b : Nat) (code : List Stmt) : Prop :=
  ∀ s ∈ code, s.label = [] ∧ s.IsWritten (Named P start a b) []

theorem IsStraight.nil : IsStraight P start a b [] :=
  fun _ never => nomatch never

theorem IsStraight.mono {a' b' : Nat} {code : List Stmt} (straight : IsStraight P start a b code) (le : a' ≤ a)
    (le' : b ≤ b') : IsStraight P start a' b' code :=
  fun s member => (straight s member).imp_right fun written => written.mono (fun _ => .mono le le') (List.Subset.refl [])

theorem IsStraight.append {first second : List Stmt} (left : IsStraight P start a b first)
    (right : IsStraight P start a b second) : IsStraight P start a b (first ++ second) :=
  List.forall_mem_append.2 ⟨left, right⟩

theorem IsStraight.single {action : Action} (straight : action.target? = none) (acts : action ≠ .nop)
    (written : action.IsWritten (Named P start a b)) : IsStraight P start a b [.plain action] :=
  List.forall_mem_singleton.2 ⟨rfl, .plain straight acts written⟩

structure Computes (P : Name → Prop) (start : Namer) (a b : Nat) (code : List Stmt) : Prop where
  lower : a ≤ b
  upper : b ≤ a + code.length
  straight : IsStraight P start a b code

theorem Computes.of_nil (start : Namer) (a : Nat) : Computes P start a a [] :=
  ⟨Nat.le_refl a, Nat.le_refl a, .nil⟩

theorem Computes.append {first second : List Stmt} (left : Computes P start a b first)
    (right : Computes P start b c second) : Computes P start a c (first ++ second) := by
  have lower := left.lower
  have lower' := right.lower
  have upper := left.upper
  have upper' := right.upper
  refine ⟨by omega, by rw [List.length_append]; omega, ?_⟩
  exact (left.straight.mono (Nat.le_refl a) lower').append (right.straight.mono lower (Nat.le_refl c))

theorem Computes.snoc {code : List Stmt} (before : Computes P start a b code) {action : Action} (next : b ≤ c)
    (once : c ≤ b + 1) (straight : action.target? = none) (acts : action ≠ .nop)
    (written : action.IsWritten (Named P start a c)) : Computes P start a c (code ++ [Stmt.plain action]) := by
  have lower := before.lower
  have upper := before.upper
  refine ⟨by omega, by rw [List.length_append, List.length_singleton]; omega, ?_⟩
  exact (before.straight.mono (Nat.le_refl a) next).append (.single straight acts written)

def Counts (start : Namer) {α : Type} (x : Lower α) (a : Nat) (Q : α → Nat → Prop) : Prop :=
  ∀ out names, x (start.after a) = .ok (out, names) → ∃ b, names = start.after b ∧ a ≤ b ∧ Q out b

namespace Counts

variable {α β : Type} {x : Lower α} {Q Q' : α → Nat → Prop} {R : β → Nat → Prop}

theorem bind {f : α → Lower β} (first : Counts start x a Q)
    (next : ∀ out b, a ≤ b → Q out b → Counts start (f out) b R) : Counts start (x >>= f) a R := by
  intro out names ok
  obtain ⟨mid, _, done, rest⟩ := bind_ok.1 ok
  obtain ⟨b, rfl, le, holds⟩ := first _ _ done
  obtain ⟨c, rfl, le', holds'⟩ := next mid b le holds _ _ rest
  exact ⟨c, rfl, Nat.le_trans le le', holds'⟩

theorem pure {out : α} (holds : Q out a) : Counts start (pure out) a Q := by
  intro out' names ok
  obtain ⟨rfl, rfl⟩ := pure_ok.1 ok
  exact ⟨a, rfl, Nat.le_refl a, holds⟩

theorem refuse {cause : Cause} : Counts start (refuse cause) a Q :=
  fun _ _ ok => absurd ok refuse_ok

theorem inside {step : Step} (counts : Counts start x a Q) : Counts start (inside step x) a Q :=
  fun _ _ ok => counts _ _ (inside_ok.1 ok)

theorem fresh (kind : Bytes) : Counts start (fresh kind) a fun name b => b = a + 1 ∧ name = start.made kind b := by
  intro name names ok
  have made := fresh_ok.1 ok
  rw [Namer.fresh_after] at made
  obtain ⟨rfl, rfl⟩ := Prod.mk.inj made
  exact ⟨a + 1, rfl, Nat.le_succ a, rfl, rfl⟩

theorem lift {y : Except Error α} : Counts start (liftM y : Lower α) a fun out b => b = a ∧ y = .ok out := by
  intro out names ok
  obtain ⟨done, rfl⟩ := lift_ok.1 ok
  exact ⟨a, rfl, Nat.le_refl a, rfl, done⟩

theorem mono (counts : Counts start x a Q) (weaker : ∀ out b, a ≤ b → Q out b → Q' out b) : Counts start x a Q' := by
  intro out names ok
  obtain ⟨b, same, le, holds⟩ := counts out names ok
  exact ⟨b, same, le, weaker out b le holds⟩

end Counts

theorem counts_dest {x : Name} (operand : Named P start a b x) (lower : a ≤ b) :
    Counts start (dest x) b fun res c => c ≤ b + 1 ∧ Named P start a c res := by
  unfold dest
  split
  · exact .pure ⟨Nat.le_succ b, operand⟩
  · refine (Counts.fresh _).mono ?_
    rintro _ _ _ ⟨rfl, rfl⟩
    exact ⟨Nat.le_refl _, .made start (by omega) (Nat.le_refl _)⟩

def Gives (P : Name → Prop) (start : Namer) (a : Nat) (out : List Stmt × Name) (b : Nat) : Prop :=
  Computes P start a b out.1 ∧ Named P start a b out.2

section

variable {code : List Stmt} (before : Computes P start a b code)

include before

theorem counts_unary {op : UnOp} {arg : Name} (known : op ∈ UnOp.all) (operand : Named P start a b arg) :
    Counts start (unary code op arg) b (Gives P start a) :=
  .bind (counts_dest operand before.lower) fun _ _ next ⟨once, result⟩ =>
    .pure ⟨before.snoc next once rfl nofun ⟨known, result, operand.mono (Nat.le_refl a) next⟩, result⟩

theorem counts_binary {op : BinOp} {left right : Name} (known : op ∈ BinOp.all) (isLeft : Named P start a b left)
    (isRight : Named P start a b right) : Counts start (binary code op left right) b (Gives P start a) :=
  .bind (counts_dest isLeft before.lower) fun _ _ next ⟨once, result⟩ =>
    .pure ⟨before.snoc next once rfl nofun
      ⟨known, result, isLeft.mono (Nat.le_refl a) next, isRight.mono (Nat.le_refl a) next⟩, result⟩

theorem counts_result {action : Name → Action} (straight : ∀ res, (action res).target? = none)
    (acts : ∀ res, action res ≠ .nop)
    (written : ∀ res, Named P start a (b + 1) res → (action res).IsWritten (Named P start a (b + 1))) :
    Counts start (do
      let res ← fresh Name.temporary
      pure (code ++ [Stmt.plain (action res)], res)) b (Gives P start a) := by
  have lower := before.lower
  refine .bind (.fresh _) ?_
  rintro _ _ next ⟨rfl, rfl⟩
  have result : Named P start a (b + 1) _ := .made start (by omega) (Nat.le_refl (b + 1))
  exact .pure ⟨before.snoc next (Nat.le_refl _) (straight _) (acts _) (written _ result), result⟩

theorem counts_one : Counts start (one code) b (Gives P start a) :=
  counts_result before (fun _ => rfl) nofun fun _ result => ⟨result, _, rfl, nofun⟩

theorem counts_count {op : BinOp} {var : Name} (known : op ∈ BinOp.all) (operand : Named P start a b var) :
    Counts start (count code op var) b (Gives P start a) := by
  refine .bind (counts_one before) ?_
  rintro ⟨code', unit⟩ c next ⟨before', isUnit⟩
  have operand' := operand.mono (Nat.le_refl a) next
  exact .pure ⟨before'.snoc (Nat.le_refl c) (Nat.le_succ c) rfl nofun ⟨known, operand', operand', isUnit⟩, operand'⟩

theorem counts_compareNext {op step : BinOp} {left right : Name} (known : op ∈ BinOp.all) (known' : step ∈ BinOp.all)
    (isLeft : Named P start a b left) (isRight : Named P start a b right) :
    Counts start (compareNext code op step left right) b (Gives P start a) := by
  refine .bind (counts_one before) ?_
  rintro ⟨code', unit⟩ c next ⟨before', isUnit⟩
  refine .bind (counts_binary before' known' (isRight.mono (Nat.le_refl a) next) isUnit) ?_
  rintro ⟨code'', bound⟩ d next' ⟨before'', isBound⟩
  exact counts_binary before'' known (isLeft.mono (Nat.le_refl a) (Nat.le_trans next next')) isBound

end

theorem constant_ne_symbol {l : Source.Literal} {value : Value} (known : constant l = .ok value) (name : Name) :
    value ≠ .symbol name := by
  unfold constant at known
  split at known
  · split at known <;> cases known
    nofun
  · cases known
    nofun
  · cases known
    nofun

theorem counts_operands {β : Type} {R : β → Nat → Prop} {first second : Lower (List Stmt × Name)}
    {f : List Stmt × Name → List Stmt × Name → Lower β} (left : ∀ a, Counts start first a (Gives P start a))
    (right : ∀ a, Counts start second a (Gives P start a))
    (next : ∀ before code x y b, Computes P start a b (before ++ code) → Named P start a b x → Named P start a b y →
      Counts start (f (before, x) (code, y)) b R) :
    Counts start (do f (← first) (← second)) a R := by
  refine .bind (left a) ?_
  rintro ⟨before, x⟩ b le ⟨isBefore, isLeft⟩
  refine .bind (right b) ?_
  rintro ⟨code, y⟩ c le' ⟨isCode, isRight⟩
  exact next before code x y c (isBefore.append isCode) (isLeft.mono (Nat.le_refl a) le') (isRight.mono le (Nat.le_refl c))

mutual

theorem counts_expr : ∀ (e : Source.Expr), (∀ x ∈ e.names, P x) → ∀ a, Counts start (expr e) a (Gives P start a)
  | .missing, _, _ => by
    rw [expr]
    exact .refuse
  | .var _ x, user, a => by
    rw [expr]
    exact .pure ⟨.of_nil start a, .inl (user x (List.mem_singleton_self x))⟩
  | .literal l, _, a => by
    rw [expr]
    refine .bind .lift ?_
    rintro value _ _ ⟨rfl, known⟩
    exact counts_result (.of_nil start _) (fun _ => rfl) nofun fun _ result => ⟨result, value, rfl, constant_ne_symbol known⟩
  | .call _ callee es, user, a => by
    rw [expr]
    refine .bind (counts_args es (List.forall_mem_cons.1 user).2 callee 0 a) ?_
    rintro ⟨code, names⟩ b le ⟨isCode, operands⟩
    exact counts_result isCode (fun _ => rfl) nofun fun _ result =>
      ⟨fun arg member => (operands arg member).mono (Nat.le_refl a) (Nat.le_succ b), result⟩
  | .unary pos op e, user, a => by
    rw [expr]
    refine .bind (counts_expr e user a) ?_
    rintro ⟨code, x⟩ b le ⟨isCode, operand⟩
    cases op with
    | not | invert | negate => exact counts_unary isCode (by decide) operand
    | increment | decrement => exact counts_count isCode (by decide) operand
    | unknown => exact .refuse
  | .binary pos op l r, user, a => by
    obtain ⟨userLeft, userRight⟩ := List.forall_mem_append.1 user
    have left := counts_expr l userLeft
    have right := counts_expr r userRight
    cases op with
    | le | ge =>
      rw [expr]
      refine counts_operands (fun a => .inside (left a)) (fun a => .inside (.inside (right a))) ?_
      intro before code x y b isCode isLeft isRight
      exact counts_compareNext isCode (by decide) (by decide) isLeft isRight
    | unknown =>
      simp only [expr, binOp?]
      exact .refuse
    | _ =>
      rw [Lowers.expr_binary rfl]
      refine counts_operands (fun a => .inside (left a)) (fun a => .inside (right a)) ?_
      intro before code x y b isCode isLeft isRight
      exact counts_binary isCode (by decide) isLeft isRight

theorem counts_args : ∀ (es : List Source.Expr), (∀ x ∈ Source.Expr.allNames es, P x) → ∀ (callee : Name) (index a : Nat),
    Counts start (args callee index es) a fun out b => Computes P start a b out.1 ∧ ∀ x ∈ out.2, Named P start a b x
  | [], _, callee, index, a => by
    rw [args]
    exact .pure ⟨.of_nil start a, fun _ never => nomatch never⟩
  | e :: es, user, callee, index, a => by
    obtain ⟨userFirst, userRest⟩ := List.forall_mem_append.1 user
    rw [args]
    refine .bind (.inside (counts_expr e userFirst a)) ?_
    rintro ⟨before, x⟩ b le ⟨isBefore, operand⟩
    refine .bind (counts_args es userRest callee (index + 1) b) ?_
    rintro ⟨code, xs⟩ c le' ⟨isCode, operands⟩
    refine .pure ⟨isBefore.append isCode, ?_⟩
    intro y member
    rcases List.mem_cons.1 member with rfl | later
    · exact operand.mono (Nat.le_refl a) le'
    · exact (operands y later).mono le (Nat.le_refl c)

end

theorem counts_assign {low : Nat} {target : Name} {e : Source.Expr} (user : ∀ x ∈ e.names, P x) (le : low ≤ a)
    (operand : Named P start low a target) :
    Counts start (assign target e) a fun code b => b + 1 ≤ a + code.length ∧ IsStraight P start low b code := by
  refine .bind (counts_expr e user a) ?_
  rintro ⟨code, x⟩ b next ⟨isCode, isValue⟩
  have upper : b ≤ a + code.length := isCode.upper
  refine .pure ⟨by rw [List.length_append, List.length_singleton]; omega, ?_⟩
  exact (isCode.straight.mono le (Nat.le_refl b)).append
    (.single rfl nofun ⟨by decide, operand.mono (Nat.le_refl low) next, isValue.mono le (Nat.le_refl b)⟩)

def Numbered (start : Namer) (a b : Nat) (names : List Name) : Prop :=
  ∃ numbers : List Nat, numbers.Nodup ∧ (∀ j ∈ numbers, a < j ∧ j ≤ b) ∧ names = numbers.map (start.made Name.label)

theorem Numbered.nil (start : Namer) (a b : Nat) : Numbered start a b [] :=
  ⟨[], List.nodup_nil, fun _ never => (nomatch never), rfl⟩

theorem Numbered.append {names names' : List Name} (left : Numbered start a b names) (right : Numbered start b c names')
    (le : a ≤ b) (le' : b ≤ c) : Numbered start a c (names ++ names') := by
  obtain ⟨numbers, distinct, range, rfl⟩ := left
  obtain ⟨numbers', distinct', range', rfl⟩ := right
  refine ⟨numbers ++ numbers', ?_, ?_, by rw [List.map_append]⟩
  · refine List.nodup_append.2 ⟨distinct, distinct', ?_⟩
    intro i member j member' same
    have := range i member
    have := range' j member'
    omega
  · intro j member
    rcases List.mem_append.1 member with inLeft | inRight
    · have := range j inLeft
      omega
    · have := range' j inRight
      omega

theorem Numbered.nodup {names : List Name} (numbered : Numbered start a b names) (small : b < 2 ^ 64) : names.Nodup := by
  obtain ⟨numbers, distinct, range, rfl⟩ := numbered
  refine List.Nodup.map_on ?_ distinct
  intro i member j member' same
  have := range i member
  have := range j member'
  exact Namer.made_injective (by omega) (by omega) same

def Loop.labels : Option Loop → List Name
  | none => []
  | some loop => [loop.check, loop.exit]

structure WritesOn (P : Name → Prop) (start : Namer) (loop : Option Loop) (a b : Nat) (code : List Stmt) : Prop where
  upper : b ≤ a + code.length
  numbered : Numbered start a b (labels code)
  each : ∀ s ∈ code, s.IsWritten (Named P start a b) (labels code ++ Loop.labels loop)

section

variable {loop : Option Loop} {first second code test thenCode elseCode : List Stmt} {d : Nat}

theorem WritesOn.append (left : WritesOn P start loop a b first) (right : WritesOn P start loop b c second) (le : a ≤ b)
    (le' : b ≤ c) : WritesOn P start loop a c (first ++ second) := by
  have upper := left.upper
  have upper' := right.upper
  refine ⟨by rw [List.length_append]; omega, ?_, ?_⟩
  · rw [labels_append]
    exact left.numbered.append right.numbered le le'
  · intro s member
    rw [labels_append]
    rcases List.mem_append.1 member with inFirst | inSecond
    · exact (left.each s inFirst).mono (fun _ => .mono (Nat.le_refl a) le') (by simp)
    · exact (right.each s inSecond).mono (fun _ => .mono le (Nat.le_refl c)) (by simp)

theorem WritesOn.straight (upper : b ≤ a + code.length) (straight : IsStraight P start a b code) :
    WritesOn P start loop a b code := by
  refine ⟨upper, ?_, ?_⟩
  · rw [labels_eq_nil fun s member => (straight s member).1]
    exact .nil start a b
  · exact fun s member => (straight s member).2.mono (fun _ operand => operand) (List.nil_subset _)

theorem WritesOn.jump {target : Name} (inside : target ∈ Loop.labels loop) (a : Nat) :
    WritesOn P start loop a a [.plain (.jump target)] := by
  refine ⟨Nat.le_succ a, ?_, ?_⟩
  · rw [labels_plain]
    exact .nil start a a
  · intro s member
    rw [List.mem_singleton.1 member]
    exact .jump (List.mem_append_right _ inside)

end

section

variable (start : Namer) (a : Nat) (test code thenCode elseCode : List Stmt)

def loopCode : List Stmt :=
  [Stmt.mark (start.made Name.label (a + 1)), .mark (start.made Name.label (a + 4))] ++ test ++
    [Stmt.plain (.branch .zero (start.made Name.temporary (a + 5)) (start.made Name.label (a + 2))),
      .mark (start.made Name.label (a + 3))] ++ code ++
    [Stmt.plain (.jump (start.made Name.label (a + 4))), .mark (start.made Name.label (a + 2))]

def choiceCode : List Stmt :=
  test ++ [Stmt.plain (.branch .zero (start.made Name.temporary (a + 1)) (start.made Name.label (a + 2)))] ++
    thenCode ++ [Stmt.plain (.jump (start.made Name.label (a + 3))), .mark (start.made Name.label (a + 2))] ++
    elseCode ++ [Stmt.mark (start.made Name.label (a + 3))]

variable {test} (plain : ∀ s ∈ test, s.label = [])

include plain

theorem labels_loopCode : labels (loopCode start a test code) =
    ([a + 1, a + 4, a + 3].map (start.made Name.label)) ++ labels code ++ [start.made Name.label (a + 2)] := by
  simp [loopCode, labels_mark, made_ne_nil, labels_eq_nil plain]

theorem labels_choiceCode : labels (choiceCode start a test thenCode elseCode) =
    labels thenCode ++ start.made Name.label (a + 2) :: (labels elseCode ++ [start.made Name.label (a + 3)]) := by
  simp [choiceCode, labels_mark, made_ne_nil, labels_eq_nil plain]

end

section

variable {loop : Option Loop} {test code thenCode elseCode : List Stmt} {d : Nat}

theorem IsStraight.noLabels (straight : IsStraight P start a b test) : ∀ s ∈ test, s.label = [] :=
  fun s member => (straight s member).1

theorem Numbered.loopCode (numbered : Numbered start b c (labels code)) (plain : ∀ s ∈ test, s.label = []) (next : a + 5 ≤ b)
    (next' : b ≤ c) : Numbered start a c (labels (OfSource.loopCode start a test code)) := by
  obtain ⟨numbers, distinct, range, same⟩ := numbered
  have new : ∀ i ≤ a + 5, i ∉ numbers := by
    intro i le member
    have := range i member
    omega
  refine ⟨[a + 1, a + 4, a + 3] ++ numbers ++ [a + 2], ?_, ?_, by simp [labels_loopCode start a code plain, same]⟩
  · have last : ∀ j ∈ numbers, j ≠ a + 2 := fun j member same => new j (by omega) member
    simpa [List.nodup_append, distinct, new] using last
  · intro j member
    simp only [List.mem_append, List.mem_cons, List.not_mem_nil, or_false] at member
    rcases member with ((rfl | rfl | rfl) | inside) | rfl
    case inl.inr =>
      have := range j inside
      omega
    all_goals omega

theorem Numbered.choiceCode (numbered : Numbered start b c (labels thenCode)) (numbered' : Numbered start c d (labels elseCode))
    (plain : ∀ s ∈ test, s.label = []) (next : a + 3 ≤ b) (next' : b ≤ c) (next'' : c ≤ d) :
    Numbered start a d (labels (OfSource.choiceCode start a test thenCode elseCode)) := by
  have marks := labels_choiceCode start a thenCode elseCode plain
  obtain ⟨numbers, distinct, range, same⟩ := numbered
  obtain ⟨numbers', distinct', range', same'⟩ := numbered'
  refine ⟨numbers ++ [a + 2] ++ numbers' ++ [a + 3], ?_, ?_, by simp [marks, same, same']⟩
  · refine List.nodup_append.2 ⟨List.nodup_append.2 ⟨List.nodup_append.2 ⟨distinct, List.nodup_singleton _, ?_⟩, distinct', ?_⟩,
      List.nodup_singleton _, ?_⟩
    all_goals
      intro i member j member' equal
      simp only [List.mem_append, List.mem_singleton] at member member'
      grind
  · intro j member
    simp only [List.mem_append, List.mem_cons, List.not_mem_nil, or_false] at member
    grind

theorem writes_loop (next : a + 5 ≤ b) (next' : b ≤ c) (upper : b + 1 ≤ a + 5 + test.length)
    (isTest : IsStraight P start a b test)
    (body : WritesOn P start (some ⟨start.made Name.label (a + 4), start.made Name.label (a + 2)⟩) b c code) :
    WritesOn P start loop a c (loopCode start a test code) := by
  have length := body.upper
  have marks := labels_loopCode start a code isTest.noLabels
  refine ⟨by simp [loopCode]; omega, body.numbered.loopCode isTest.noLabels next next', ?_⟩
  · intro s member
    rw [marks]
    simp only [loopCode, List.mem_append, List.mem_cons, List.not_mem_nil, or_false] at member
    rcases member with ((((rfl | rfl) | inTest) | rfl | rfl) | inBody) | rfl | rfl
    · exact .mark (made_ne_nil _ _)
    · exact .mark (made_ne_nil _ _)
    · exact (isTest s inTest).2.mono (fun _ => .mono (Nat.le_refl a) next') (List.nil_subset _)
    · exact .branch (by simp) (.made start (by omega) (by omega))
    · exact .mark (made_ne_nil _ _)
    · refine (body.each s inBody).mono (fun _ => .mono (by omega) (Nat.le_refl c)) fun t inside => ?_
      simp only [Loop.labels, List.mem_append, List.mem_cons, List.not_mem_nil, or_false] at inside
      rcases inside with own | rfl | rfl
      · simp [own]
      · simp
      · simp
    · exact .jump (by simp)
    · exact .mark (made_ne_nil _ _)

theorem writes_choice (next : a + 3 ≤ b) (next' : b ≤ c) (next'' : c ≤ d) (upper : b + 1 ≤ a + 3 + test.length)
    (isTest : IsStraight P start a b test) (thenBody : WritesOn P start loop b c thenCode)
    (elseBody : WritesOn P start loop c d elseCode) : WritesOn P start loop a d (choiceCode start a test thenCode elseCode) := by
  have length := thenBody.upper
  have length' := elseBody.upper
  have marks := labels_choiceCode start a thenCode elseCode isTest.noLabels
  refine ⟨by simp [choiceCode]; omega,
    thenBody.numbered.choiceCode elseBody.numbered isTest.noLabels next next' next'', ?_⟩
  · intro s member
    rw [marks]
    simp only [choiceCode, List.mem_append, List.mem_cons, List.not_mem_nil, or_false] at member
    rcases member with ((((inTest | rfl) | inThen) | rfl | rfl) | inElse) | rfl
    · exact (isTest s inTest).2.mono (fun _ => .mono (Nat.le_refl a) (by omega)) (List.nil_subset _)
    · exact .branch (by simp) (.made start (by omega) (by omega))
    · refine (thenBody.each s inThen).mono (fun _ => .mono (by omega) (by omega)) fun t inside => ?_
      rcases List.mem_append.1 inside with own | outer
      · simp [own]
      · simp [outer]
    · exact .jump (by simp)
    · exact .mark (made_ne_nil _ _)
    · refine (elseBody.each s inElse).mono (fun _ => .mono (by omega) (by omega)) fun t inside => ?_
      rcases List.mem_append.1 inside with own | outer
      · simp [own]
      · simp [outer]
    · exact .mark (made_ne_nil _ _)

end

theorem counts_assign_user {target : Name} {e : Source.Expr} (user : ∀ x ∈ target :: e.names, P x)
    (loop : Option Loop) (a : Nat) : Counts start (assign target e) a fun code b => WritesOn P start loop a b code := by
  obtain ⟨isTarget, inside⟩ := List.forall_mem_cons.1 user
  exact (counts_assign inside (Nat.le_refl a) (.inl isTarget)).mono fun _ _ _ ⟨upper, straight⟩ =>
    .straight (Nat.le_of_succ_le upper) straight

mutual

theorem counts_stmt : ∀ (s : Source.Stmt), (∀ x ∈ s.names, P x) → ∀ (loop : Option Loop) (a : Nat),
    Counts start (stmt loop s) a fun code b => WritesOn P start loop a b code
  | .missing, _, _, _ => by
    rw [stmt]
    exact .refuse
  | .assign _ target value, user, loop, a => by
    rw [stmt]
    exact counts_assign_user user loop a
  | .declare _ ty name init, user, loop, a => by
    by_cases missing : init = .missing
    · subst missing
      rw [stmt]
      split
      · exact .refuse
      · exact .pure (.straight (Nat.le_refl a) .nil)
    · rw [stmt]
      · exact counts_assign_user user loop a
      · exact missing
  | .returnStmt _ value, user, loop, a => by
    by_cases missing : value = .missing
    · subst missing
      rw [stmt]
      exact .pure (.straight (Nat.le_succ a) (.single rfl nofun (.inl rfl)))
    · rw [stmt]
      · refine .bind (.fresh _) ?_
        rintro _ _ _ ⟨rfl, rfl⟩
        have result : Named P start a (a + 1) _ := .made start (Nat.lt_succ_self a) (Nat.le_refl (a + 1))
        refine .bind (.inside (counts_assign user (Nat.le_succ a) result)) ?_
        rintro code b next ⟨upper, straight⟩
        refine .pure (.straight (by rw [List.length_append, List.length_singleton]; omega) ?_)
        exact straight.append (.single rfl nofun (.inr (result.mono (Nat.le_refl a) next)))
      · exact missing
  | .breakStmt _, _, loop, a | .continueStmt _, _, loop, a => by
    cases loop with
    | none => rw [stmt]; exact .refuse
    | some l => rw [stmt]; exact .pure (.jump (by simp [Loop.labels]) a)
  | .whileStmt _ check body, user, loop, a => by
    obtain ⟨userCheck, userBody⟩ := List.forall_mem_append.1 user
    rw [stmt]
    refine .bind (.fresh _) ?_
    rintro _ _ _ ⟨rfl, rfl⟩
    refine .bind (.fresh _) ?_
    rintro _ _ _ ⟨rfl, rfl⟩
    refine .bind (.fresh _) ?_
    rintro _ _ _ ⟨rfl, rfl⟩
    refine .bind (.fresh _) ?_
    rintro _ _ _ ⟨rfl, rfl⟩
    refine .bind (.fresh _) ?_
    rintro _ _ _ ⟨rfl, rfl⟩
    have flag : Named P start a (a + 5) _ := .made start (by omega) (Nat.le_refl (a + 5))
    refine .bind (.inside (counts_assign userCheck (by omega) flag)) ?_
    rintro test b next ⟨upper, isTest⟩
    refine .bind (counts_stmts body userBody _ b) ?_
    intro code c next' isBody
    exact .pure (writes_loop next next' upper isTest isBody)
  | .ifStmt _ check thenBody elseBody, user, loop, a => by
    obtain ⟨userBefore, userElse⟩ := List.forall_mem_append.1 user
    obtain ⟨userCheck, userThen⟩ := List.forall_mem_append.1 userBefore
    rw [stmt]
    refine .bind (.fresh _) ?_
    rintro _ _ _ ⟨rfl, rfl⟩
    refine .bind (.fresh _) ?_
    rintro _ _ _ ⟨rfl, rfl⟩
    refine .bind (.fresh _) ?_
    rintro _ _ _ ⟨rfl, rfl⟩
    have flag : Named P start a (a + 3) (start.made Name.temporary (a + 1)) := .made start (by omega) (by omega)
    refine .bind (.inside (counts_assign userCheck (by omega) flag)) ?_
    rintro test b next ⟨upper, isTest⟩
    refine .bind (counts_stmts thenBody userThen loop b) ?_
    intro thenCode c next' isThen
    refine .bind (counts_stmts elseBody userElse loop c) ?_
    intro elseCode d next'' isElse
    exact .pure (writes_choice next next' next'' upper isTest isThen isElse)
  | .exprStmt _ value, user, loop, a => by
    rw [stmt]
    refine .bind (counts_expr value user a) ?_
    rintro ⟨code, x⟩ b _ ⟨isCode, _⟩
    exact .pure (.straight isCode.upper isCode.straight)

theorem counts_stmts : ∀ (ss : List Source.Stmt), (∀ x ∈ Source.Stmt.allNames ss, P x) → ∀ (loop : Option Loop) (a : Nat),
    Counts start (stmts loop ss) a fun code b => WritesOn P start loop a b code
  | [], _, loop, a => by
    rw [stmts]
    exact .pure (.straight (Nat.le_refl a) .nil)
  | s :: ss, user, loop, a => by
    obtain ⟨userFirst, userRest⟩ := List.forall_mem_append.1 user
    rw [stmts]
    refine .bind (counts_stmt s userFirst loop a) ?_
    intro before b next isBefore
    refine .bind (counts_stmts ss userRest loop b) ?_
    intro code c next' isCode
    exact .pure (isBefore.append isCode next next')

end

theorem name_of_global {g : Source.Global} {h : Global} (lowered : global g = .ok h) : h.name = g.name := by
  unfold global at lowered
  split at lowered
  · split at lowered <;> cases lowered
    rfl
  · obtain ⟨_, _, lowered⟩ := bind_eq_ok.1 lowered
    obtain ⟨_, _, done⟩ := bind_eq_ok.1 lowered
    cases done
    rfl

structure LowersOn (P : Name → Prop) (start : Namer) (f : Source.Function) (g : Function) : Prop where
  name : g.name = f.name
  params : g.params = f.params.map param
  external : g.external = f.external
  empty : g.external = true → g.body = []
  body : ∃ a b, WritesOn P start none a b g.body

theorem counts_function {f : Source.Function} (user : ∀ x ∈ Source.Stmt.allNames f.body, P x) (a : Nat) :
    Counts start (function f) a fun g b => LowersOn P start f g ∧ WritesOn P start none a b g.body := by
  unfold function
  split
  · have nothing : Counts start (Pure.pure []) a fun (code : List Stmt) b => code = [] ∧ WritesOn P start none a b code :=
      .pure ⟨rfl, .straight (Nat.le_refl a) .nil⟩
    exact .bind nothing fun _ b _ ⟨noCode, writes⟩ => .pure ⟨⟨rfl, rfl, rfl, fun _ => noCode, a, b, writes⟩, writes⟩
  · rename_i hasBody
    exact .bind (counts_stmts f.body user none a) fun _ b _ writes =>
      .pure ⟨⟨rfl, rfl, rfl, fun external => absurd external hasBody, a, b, writes⟩, writes⟩

theorem counts_functions {fs : List Source.Function} (user : ∀ f ∈ fs, ∀ x ∈ Source.Stmt.allNames f.body, P x) (a : Nat) :
    Counts start (functions fs) a fun gs b => List.Forall₂ (LowersOn P start) fs gs ∧ b ≤ a + Storage.lines gs ∧
      Numbered start a b (gs.flatMap fun g => labels g.body) := by
  induction fs generalizing a with
  | nil => exact .pure ⟨.nil, Nat.le_refl a, .nil start a a⟩
  | cons f fs ih =>
    refine .bind (.inside (counts_function (user f List.mem_cons_self) a)) ?_
    rintro g b next ⟨lowersOn, writes⟩
    refine .bind (ih (fun f' member => user f' (List.mem_cons_of_mem f member)) b) ?_
    rintro gs c next' ⟨others, upper, numbered⟩
    have upper' := writes.upper
    refine .pure ⟨.cons lowersOn others, ?_, ?_⟩
    · simp only [Storage.lines, List.map_cons, List.sum_cons] at upper ⊢
      omega
    · rw [List.flatMap_cons]
      exact writes.numbered.append numbered next next'

theorem counts_any (fs : List Source.Function) (a : Nat) :
    Counts start (functions fs) a fun gs b => List.Forall₂ (LowersOn (fun _ => True) start) fs gs ∧ b ≤ a + Storage.lines gs ∧
      Numbered start a b (gs.flatMap fun g => labels g.body) :=
  counts_functions (fun _ _ _ _ => trivial) a

structure Writes (start : Namer) (loop : Option Loop) (a b : Nat) (code : List Stmt) : Prop where
  upper : b ≤ a + code.length
  numbered : Numbered start a b (labels code)
  each : ∀ s ∈ code, s.IsWritten (Operand start a b) (labels code ++ Loop.labels loop)

structure LowersTo (start : Namer) (f : Source.Function) (g : Function) : Prop where
  name : g.name = f.name
  params : g.params = f.params.map param
  external : g.external = f.external
  empty : g.external = true → g.body = []
  body : ∃ a b, Writes start none a b g.body

theorem Named.operand {x : Name} (named : Named Source.IsUserName start a b x) : Operand start a b x := by
  refine named.imp_left fun user => ⟨user.notGenerated, ?_⟩
  rintro rfl
  obtain ⟨_, _, never, _⟩ := user.spelled
  cases never

theorem LowersOn.lowersTo {f : Source.Function} {g : Function} (lowers : LowersOn Source.IsUserName start f g) :
    LowersTo start f g := by
  obtain ⟨name, params, external, empty, a, b, upper, numbered, each⟩ := lowers
  refine ⟨name, params, external, empty, a, b, upper, numbered, ?_⟩
  exact fun s member => (each s member).mono (fun _ => Named.operand) (List.Subset.refl _)

end OfSource

structure Program.LowersTo (x : Source.Program) (p : Program) : Prop where
  globals : List.Forall₂ (fun g h => OfSource.global g = .ok h) x.globals p.globals
  functions : List.Forall₂ (OfSource.LowersTo ⟨0⟩) x.functions p.functions
  numbered : ∃ made, p.names = Namer.after ⟨0⟩ made ∧ made ≤ Storage.lines p.functions ∧
    OfSource.Numbered ⟨0⟩ 0 made (p.functions.flatMap fun g => labels g.body)

theorem Program.lowersTo_of_ofSource {x : Source.Program} {p : Program} (wellFormed : x.WellFormed)
    (lowered : Program.ofSource x = .ok p) : Program.LowersTo x p := by
  unfold Program.ofSource at lowered
  obtain ⟨globals, isGlobals, lowered⟩ := bind_eq_ok.1 lowered
  obtain ⟨⟨functions, names⟩, isFunctions, done⟩ := bind_eq_ok.1 lowered
  cases done
  obtain ⟨made, rfl, _, each, upper, numbered⟩ :=
    OfSource.counts_functions (fun f member => Source.Stmt.isUserName_of_allNames (wellFormed.functions f member).body) 0
      functions names (by rw [Namer.after_zero]; exact isFunctions)
  refine ⟨?_, each.imp fun _ _ => OfSource.LowersOn.lowersTo, made, rfl, by simpa using upper, numbered⟩
  exact (mapM_eq_ok.1 isGlobals).imp fun _ _ ok => within_eq_ok.1 ok

end MiniC.Code
