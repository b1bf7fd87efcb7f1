import MiniC.Proofs.Naming.Lowering
import MiniC.Proofs.Source.WellFormed

namespace MiniC.Code

namespace Noted

def Tidy {β : Type} (start : Namer) (own : Nat → Prop) (y : Noted β) (a : Nat) (Q : β → Nat → Prop) : Prop :=
  (∀ j, a < j → own j) → ∀ out names notes, y (start.after a) = some (out, names, notes) →
    ∃ b, names = start.after b ∧ Orderly start own a notes b ∧ Q out b

variable {start : Namer} {own : Nat → Prop} {a : Nat}

namespace Tidy

variable {β γ : Type} {y : Noted β} {Q Q' : β → Nat → Prop} {R : γ → Nat → Prop}

theorem pure {out : β} (holds : Q out a) : Tidy start own (pure out) a Q := by
  rintro _ _ _ _ ⟨⟩
  exact ⟨a, rfl, .nil, holds⟩

theorem bind {g : β → Noted γ} (first : Tidy start own y a Q)
    (next : ∀ out b, a ≤ b → Q out b → Tidy start own (g out) b R) : Tidy start own (y >>= g) a R := by
  intro mine out names notes done
  obtain ⟨mid, names', before, behind, isFirst, isSecond, rfl⟩ := bind_some.1 done
  obtain ⟨b, rfl, orderly, holds⟩ := first mine mid names' before isFirst
  have le := orderly.le
  obtain ⟨c, rfl, orderly', holds'⟩ := next mid b le holds (fun j above => mine j (by omega)) out names behind isSecond
  exact ⟨c, rfl, orderly.append orderly', holds'⟩

theorem mono (tidy : Tidy start own y a Q) (weaker : ∀ out b, a ≤ b → Q out b → Q' out b) : Tidy start own y a Q' := by
  intro mine out names notes done
  obtain ⟨b, rfl, orderly, holds⟩ := tidy mine out names notes done
  exact ⟨b, rfl, orderly, weaker out b orderly.le holds⟩

theorem andThen {z : Noted Unit} {g : Unit → Noted γ} (first : Tidy start own z a fun _ b => b = a)
    (next : Tidy start own (g ()) a R) : Tidy start own (z >>= g) a R := by
  refine .bind first ?_
  rintro _ _ _ rfl
  exact next

theorem make {kind : Bytes} (isKind : kind ∈ Name.kinds) :
    Tidy start own (make kind) a (Known start own) := by
  intro mine out names notes done
  rw [Noted.make, Namer.fresh_after] at done
  cases done
  have owned : kind = Name.string ∨ own (a + 1) := .inr (mine (a + 1) (Nat.lt_succ_self a))
  exact ⟨a + 1, rfl, .makes isKind owned .nil, .inr ⟨kind, isKind, a + 1, Nat.le_refl _, owned, rfl⟩⟩

theorem write {s : Stmt} (known : ∀ x ∈ s.names, Known start own x a) :
    Tidy start own (write s) a fun _ b => b = a := by
  rintro _ _ _ _ ⟨⟩
  exact ⟨a, rfl, .writes known .nil, rfl⟩

theorem of_give {x : Option β} : Tidy start own (give x) a fun out b => x = some out ∧ b = a := by
  intro _ out names notes done
  cases x with
  | none => cases done
  | some c =>
    cases done
    exact ⟨a, rfl, .nil, rfl, rfl⟩

end Tidy

theorem known_plain {action : Action}
    (known : ∀ x ∈ action.inputs ++ action.outputs ++ action.refers, Known start own x a) :
    ∀ x ∈ (Stmt.plain action).names, Known start own x a :=
  known_stmt .nil known

theorem refers_constant {l : Source.Literal} {value : Value} (isValue : (OfSource.constant l).toOption = some value)
    (res : Name) : (Action.store res (some value)).refers = [] := by
  unfold OfSource.constant at isValue
  split at isValue
  · split at isValue <;> cases isValue
    rfl
  · cases isValue
    rfl
  · cases isValue
    rfl

theorem tidy_dest {operand : Name} (known : Known start own operand a) :
    Tidy start own (dest operand) a (Known start own) := by
  unfold dest
  split
  · exact .pure known
  · exact .make (by decide)

theorem tidy_unary (op : UnOp) {arg : Name} (known : Known start own arg a) :
    Tidy start own (unary op arg) a (Known start own) := by
  refine .bind (tidy_dest known) fun res b le isRes => ?_
  have known' := known.mono le
  exact .andThen (.write (known_plain (by simp [Action.inputs, Action.outputs, Action.refers, *]))) (.pure isRes)

theorem tidy_binary (op : BinOp) {left right : Name} (known : Known start own left a)
    (known' : Known start own right a) : Tidy start own (binary op left right) a (Known start own) := by
  refine .bind (tidy_dest known) fun res b le isRes => ?_
  have isLeft := known.mono le
  have isRight := known'.mono le
  exact .andThen (.write (known_plain (by simp [Action.inputs, Action.outputs, Action.refers, *]))) (.pure isRes)

theorem tidy_one : Tidy start own one a (Known start own) := by
  refine .bind (.make (by decide)) fun res b le isRes => ?_
  exact .andThen (.write (known_plain (by simp [Action.inputs, Action.outputs, Action.refers, *]))) (.pure isRes)

theorem tidy_count (op : BinOp) {var : Name} (known : Known start own var a) :
    Tidy start own (count op var) a (Known start own) := by
  refine .bind tidy_one fun unit b le isUnit => ?_
  have known' := known.mono le
  exact .andThen (.write (known_plain (by simp [Action.inputs, Action.outputs, Action.refers, *]))) (.pure known')

theorem tidy_compareNext (op step : BinOp) {left right : Name} (known : Known start own left a)
    (known' : Known start own right a) : Tidy start own (compareNext op step left right) a (Known start own) := by
  refine .bind tidy_one fun unit b le isUnit => ?_
  refine .bind (tidy_binary step (known'.mono le) isUnit) fun bound c le' isBound => ?_
  exact tidy_binary op (known.mono (Nat.le_trans le le')) isBound

theorem tidy_operands {first second : Noted Name} {g : Name → Name → Noted Name}
    (left : Tidy start own first a (Known start own))
    (right : ∀ b, Tidy start own second b (Known start own))
    (next : ∀ c x y, Known start own x c → Known start own y c → Tidy start own (g x y) c (Known start own)) :
    Tidy start own (do g (← first) (← second)) a (Known start own) :=
  .bind left fun x b _ isLeft => .bind (right b) fun y c le isRight => next c x y (isLeft.mono le) isRight

mutual

theorem tidy_expr : ∀ (e : Source.Expr), e.WellFormed → ∀ a, Tidy start own (expr e) a (Known start own)
  | .missing, wellFormed, _ => wellFormed.elim
  | .var _ _, wellFormed, _ => .pure (.inl wellFormed.notGenerated)
  | .literal l, _, _ => by
    refine .bind .of_give ?_
    rintro value _ _ ⟨isValue, rfl⟩
    refine .bind (.make (by decide)) fun res b le isRes => ?_
    have noName : (Action.store res (some value)).refers = [] := refers_constant isValue res
    exact .andThen (.write (known_plain (by simp [Action.inputs, Action.outputs, *]))) (.pure isRes)
  | .call _ callee xs, wellFormed, a => by
    refine .bind (tidy_args xs wellFormed.2 a) fun names b le areNames => ?_
    refine .bind (.make (by decide)) fun res c le' isRes => ?_
    have isCallee : Known start own callee c := .inl wellFormed.1.notGenerated
    refine .andThen (.write (known_plain fun x member => ?_)) (.pure isRes)
    simp only [Action.inputs, Action.outputs, Action.refers, List.mem_append, List.mem_singleton] at member
    rcases member with (isArg | isResult) | rfl
    · exact (areNames x isArg).mono le'
    · split at isResult
      · cases isResult
      · rwa [List.mem_singleton.1 isResult]
    · exact isCallee
  | .unary pos op x, wellFormed, a => by
    refine .bind (tidy_expr x wellFormed.2.2 a) fun arg b le isArg => ?_
    cases op with
    | unknown => exact .mono .of_give fun _ _ _ ⟨never, _⟩ => nomatch never
    | not | invert | negate => exact tidy_unary _ isArg
    | increment | decrement => exact tidy_count _ isArg
  | .binary pos op l r, wellFormed, a => by
    have left := tidy_expr l wellFormed.2.1 a
    have right := tidy_expr r wellFormed.2.2
    cases op with
    | le | ge => exact tidy_operands left right fun _ _ _ isLeft isRight => tidy_compareNext _ _ isLeft isRight
    | unknown => exact .mono .of_give fun _ _ _ ⟨never, _⟩ => nomatch never
    | _ => exact tidy_operands left right fun _ _ _ isLeft isRight => tidy_binary _ isLeft isRight

theorem tidy_args : ∀ (xs : List Source.Expr), Source.Expr.AllWellFormed xs → ∀ a,
    Tidy start own (args xs) a fun names b => ∀ x ∈ names, Known start own x b
  | [], _, _ => .pure fun _ never => nomatch never
  | x :: xs, wellFormed, a => by
    refine .bind (tidy_expr x wellFormed.1 a) fun name b le isName => ?_
    refine .bind (tidy_args xs wellFormed.2 b) fun names c le' areNames => ?_
    exact .pure (List.forall_mem_cons.2 ⟨isName.mono le', areNames⟩)

end

theorem tidy_assign {target : Name} {value : Source.Expr} (wellFormed : value.WellFormed)
    (known : Known start own target a) : Tidy start own (assign target value) a fun _ _ => True := by
  refine .bind (tidy_expr value wellFormed a) fun name b le isName => ?_
  have known' := known.mono le
  exact .mono (.write (known_plain (by simp [Action.inputs, Action.outputs, Action.refers, *]))) fun _ _ _ _ => trivial

theorem tidy_mark {label : Name} (known : Known start own label a) :
    Tidy start own (write (.mark label)) a fun _ b => b = a :=
  .write (known_stmt known nofun)

theorem tidy_jump {label : Name} (known : Known start own label a) :
    Tidy start own (write (.plain (.jump label))) a fun _ b => b = a :=
  .write (known_plain (by simp [Action.inputs, Action.outputs, Action.refers, *]))

theorem tidy_branch {flag label : Name} (known : Known start own flag a) (known' : Known start own label a) :
    Tidy start own (write (.plain (.branch .zero flag label))) a fun _ b => b = a :=
  .write (known_plain (by simp [Action.inputs, Action.outputs, Action.refers, *]))

theorem tidy_ret {var : Name} (known : Known start own var a) :
    Tidy start own (write (.plain (.ret var))) a fun _ b => b = a := by
  refine .write (known_plain fun x member => ?_)
  by_cases empty : var = []
  · simp [Action.inputs, Action.outputs, Action.refers, empty] at member
  · obtain rfl : x = var := by simpa [Action.inputs, Action.outputs, Action.refers, empty] using member
    exact known

def Around (start : Namer) (own : Nat → Prop) (loop : Option OfSource.Loop) (a : Nat) : Prop :=
  ∀ l ∈ loop, Known start own l.check a ∧ Known start own l.exit a

theorem Around.mono {b : Nat} {loop : Option OfSource.Loop} (le : a ≤ b) (around : Around start own loop a) :
    Around start own loop b :=
  fun l isLoop => ⟨(around l isLoop).1.mono le, (around l isLoop).2.mono le⟩

mutual

theorem tidy_stmt : ∀ (s : Source.Stmt), s.WellFormed → ∀ loop a, Around start own loop a →
    Tidy start own (stmt loop s) a fun _ _ => True
  | .missing, wellFormed, _, _, _ => wellFormed.elim
  | .assign _ _ _, wellFormed, _, _, _ => tidy_assign wellFormed.2 (.inl wellFormed.1.notGenerated)
  | .declare _ ty name init, wellFormed, loop, a, _ => by
    obtain ⟨_, _, isName, init⟩ := wellFormed
    rcases init with ⟨rfl, notString⟩ | init
    · rw [stmt, if_neg notString]
      exact .pure trivial
    · rw [stmt]
      · exact tidy_assign init (.inl isName.notGenerated)
      · rintro rfl
        exact init
  | .returnStmt _ value, wellFormed, _, _, _ => by
    rcases wellFormed with rfl | wellFormed
    · exact .mono (tidy_ret .nil) fun _ _ _ _ => trivial
    · rw [stmt]
      · refine .bind (.make (by decide)) fun res b _ isRes => .bind (tidy_assign wellFormed isRes) fun _ c le _ => ?_
        exact .mono (tidy_ret (isRes.mono le)) fun _ _ _ _ => trivial
      · rintro rfl
        exact wellFormed
  | .breakStmt _, _, loop, a, around => by
    cases loop with
    | none => exact .mono .of_give fun _ _ _ ⟨never, _⟩ => nomatch never
    | some l => exact .mono (tidy_jump (around l rfl).2) fun _ _ _ _ => trivial
  | .continueStmt _, _, loop, a, around => by
    cases loop with
    | none => exact .mono .of_give fun _ _ _ ⟨never, _⟩ => nomatch never
    | some l => exact .mono (tidy_jump (around l rfl).1) fun _ _ _ _ => trivial
  | .whileStmt _ check body, wellFormed, loop, a, around => by
    refine .bind (.make (by decide)) fun top b _ isTop => .bind (.make (by decide)) fun exit c le isExit => ?_
    refine .bind (.make (by decide)) fun inner d le' isInner => .bind (.make (by decide)) fun again e le'' isAgain => ?_
    refine .bind (.make (by decide)) fun flag m le₃ isFlag => ?_
    have isTop := isTop.mono (show b ≤ m by omega)
    have isExit := isExit.mono (show c ≤ m by omega)
    have isInner := isInner.mono (show d ≤ m by omega)
    have isAgain := isAgain.mono le₃
    refine .andThen (tidy_mark isTop) (.andThen (tidy_mark isAgain) ?_)
    refine .bind (tidy_assign wellFormed.1 isFlag) fun _ n le _ => ?_
    have isExit := isExit.mono le
    have isAgain := isAgain.mono le
    have inside : Around start own (some ⟨again, exit⟩) n := by
      rintro _ ⟨⟩
      exact ⟨isAgain, isExit⟩
    refine .andThen (tidy_branch (isFlag.mono le) isExit) (.andThen (tidy_mark (isInner.mono le)) ?_)
    refine .bind (tidy_stmts body wellFormed.2 _ n inside) fun _ o le _ => ?_
    exact .andThen (tidy_jump (isAgain.mono le)) (.mono (tidy_mark (isExit.mono le)) fun _ _ _ _ => trivial)
  | .ifStmt _ check thenBody elseBody, wellFormed, loop, a, around => by
    refine .bind (.make (by decide)) fun flag b le isFlag => .bind (.make (by decide)) fun other c le' isOther => ?_
    refine .bind (.make (by decide)) fun exit d le'' isExit => ?_
    have isFlag := isFlag.mono (show b ≤ d by omega)
    have isOther := isOther.mono le''
    refine .bind (tidy_assign wellFormed.1 isFlag) fun _ e le₃ _ => ?_
    have isOther := isOther.mono le₃
    have isExit := isExit.mono le₃
    refine .andThen (tidy_branch (isFlag.mono le₃) isOther) ?_
    refine .bind (tidy_stmts thenBody wellFormed.2.1 loop e (around.mono (by omega))) fun _ m le₄ _ => ?_
    have isExit := isExit.mono le₄
    refine .andThen (tidy_jump isExit) (.andThen (tidy_mark (isOther.mono le₄)) ?_)
    refine .bind (tidy_stmts elseBody wellFormed.2.2 loop m (around.mono (by omega))) fun _ n le₅ _ => ?_
    exact .mono (tidy_mark (isExit.mono le₅)) fun _ _ _ _ => trivial
  | .exprStmt _ value, wellFormed, _, a, _ => .bind (tidy_expr value wellFormed a) fun _ _ _ _ => .pure trivial

theorem tidy_stmts : ∀ (ss : List Source.Stmt), Source.Stmt.AllWellFormed ss → ∀ loop a, Around start own loop a →
    Tidy start own (stmts loop ss) a fun _ _ => True
  | [], _, _, _, _ => .pure trivial
  | s :: ss, wellFormed, loop, a, around =>
    .bind (tidy_stmt s wellFormed.1 loop a around) fun _ b le _ => tidy_stmts ss wellFormed.2 loop b (around.mono le)

end

theorem tidy_function {f : Source.Function} (wellFormed : f.WellFormed) (a : Nat) :
    Tidy start own (function f) a fun _ _ => True := by
  unfold function
  split
  · exact .pure trivial
  · exact tidy_stmts f.body wellFormed.body none a nofun

theorem noted_function {f : Source.Function} (wellFormed : f.WellFormed) {g : Function} {names : Namer}
    (lowered : OfSource.function f (start.after a) = .ok (g, names)) :
    ∃ b notes, names = start.after b ∧ function f (start.after a) = some ((), names, notes) ∧
      Note.written notes = g.body ∧ Orderly start (a < ·) a notes b ∧ ∀ x ∈ g.names, Known start (a < ·) x b := by
  obtain ⟨_, notes, done, rfl⟩ := follows_function f _ _ _ lowered
  obtain ⟨b, rfl, orderly, _⟩ := tidy_function wellFormed a (fun _ above => above) _ _ _ done
  refine ⟨b, notes, rfl, done, rfl, orderly, Function.forall_names.2 ⟨?_, ?_, ?_, nofun⟩⟩
  · exact .inl wellFormed.name.notGenerated
  · intro _ member
    obtain ⟨p, isParam, rfl⟩ := List.mem_map.1 member
    exact .inl (wellFormed.params p isParam).2.notGenerated
  · intro s isWritten x inStmt
    exact orderly.known x (List.mem_flatMap.2 ⟨.writes s, Note.mem_written.1 isWritten, inStmt⟩)

theorem noted_functions {fs : List Source.Function} (wellFormed : ∀ f ∈ fs, f.WellFormed)
    {gs : List Function} {names : Namer} (lowered : OfSource.functions fs (start.after a) = .ok (gs, names)) :
    ∃ b notes spans, names = start.after b ∧ functions fs (start.after a) = some ((), names, notes) ∧
      Note.written notes = gs.flatMap (·.body) ∧ Orderly start (fun _ => True) a notes b ∧
      Shares start (fun _ _ => False) a b gs spans := by
  induction fs generalizing a gs names with
  | nil =>
    obtain ⟨rfl, rfl⟩ := OfSource.pure_ok.1 lowered
    exact ⟨a, [], _, rfl, rfl, rfl, .nil, .nil start _ a⟩
  | cons f fs ih =>
    obtain ⟨g, _, isFirst, lowered⟩ := OfSource.bind_ok.1 lowered
    obtain ⟨gs, _, isRest, isList⟩ := OfSource.bind_ok.1 lowered
    obtain ⟨rfl, rfl⟩ := OfSource.pure_ok.1 isList
    obtain ⟨b, first, rfl, done, written, orderly, known⟩ :=
      noted_function (wellFormed f List.mem_cons_self) (OfSource.inside_ok.1 isFirst)
    obtain ⟨c, rest, spans, rfl, done', written', orderly', shares⟩ :=
      ih (fun f' member => wellFormed f' (List.mem_cons_of_mem f member)) isRest
    have known (x : Name) (member : x ∈ g.names) := (known x member).imp fun _ _ => Or.inr (a := False)
    refine ⟨c, first ++ rest, _, rfl, bind_some.2 ⟨(), _, first, rest, done, done', rfl⟩, ?_, ?_,
      .cons known orderly.le orderly'.le shares⟩
    · rw [Note.written_append, written, written', List.flatMap_cons]
    · exact (orderly.imp fun _ _ _ => trivial).append orderly'

end Noted

end MiniC.Code
