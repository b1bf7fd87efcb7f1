import MiniC.Proofs.Lowering.Operands
import MiniC.Proofs.Source.Proper

namespace MiniC.Code.OfSource

open Source (Expr Operand)

variable {pos : Source.Position} {l r : Expr} {op : Source.BinOp} {bop : BinOp}

variable {w : World} {start : Namer} {a b c : Nat} {x y : Name} {σ τ : Valuation}

namespace Lowers

theorem missing : Lowers w start .missing := by
  intro a code x names ok
  rw [expr_missing] at ok
  exact absurd ok refuse_ok

theorem unknownUnary {code : Int64} {outside : ¬(0 ≤ code ∧ code < 5)} {e : Expr} :
    Lowers w start (.unary pos (.unknown code outside) e) := by
  intro a whole x names ok
  rw [expr, bind_ok] at ok
  obtain ⟨_, _, _, refused⟩ := ok
  exact absurd refused refuse_ok

theorem unknownBinary {code : Int64} {outside : ¬(0 ≤ code ∧ code < 18)}
 : Lowers w start (.binary pos (.unknown code outside) l r) := by
  intro a whole x names ok
  simp only [expr, binOp?] at ok
  exact absurd ok refuse_ok

theorem var {pos : Source.Position} (written : Name.isGenerated x = false) :
    Lowers w start (.var pos x) := by
  intro a code y names ok
  rw [expr, pure_ok] at ok
  obtain ⟨found, rfl⟩ := ok
  obtain ⟨rfl, rfl⟩ := Prod.mk.inj found
  refine ⟨a, rfl, le_refl _, by simp, by simp, ?_⟩
  intro _ i σ τ same
  rw [Expr.results, Language.flows]
  exact .singleton ⟨same, .inl ⟨rfl, written⟩, Keeps.refl _ _ _⟩

theorem words_constant {l : Source.Literal} {value : Value} (ok : constant l = .ok value) :
    value.words w = l.value.words w := by
  unfold constant at ok
  split at ok
  · rename_i n given
    split at ok
    · cases ok
      rw [given]
      rfl
    · cases ok
  · rename_i given
    cases ok
    rw [given]
    rfl
  · rename_i given
    cases ok
    rw [given]
    rfl

theorem literal (l : Source.Literal) : Lowers w start (.literal l) := by
  intro a code x names ok
  rw [expr, bind_ok] at ok
  obtain ⟨value, mid, lifted, ok⟩ := ok
  obtain ⟨known, rfl⟩ := lift_ok.1 lifted
  rw [bind_ok] at ok
  obtain ⟨res, mid, new, ok⟩ := ok
  rw [fresh_ok, Namer.fresh_after] at new
  obtain ⟨rfl, rfl⟩ := Prod.mk.inj new
  obtain ⟨found, rfl⟩ := pure_ok.1 ok
  obtain ⟨rfl, rfl⟩ := Prod.mk.inj found
  refine ⟨a + 1, rfl, by omega, by simp, by simpa using Stmt.isStraight_plain rfl, ?_⟩
  intro bound i σ τ same
  rw [Expr.results, Language.flows_singleton, World.nexts_store, words_constant known]
  exact .images fun c _ => Agrees.set same (Keeps.refl _ _ _) (by omega) (le_refl _) bound c rfl

theorem expr_binary
    (known : binOp? op = some bop) :
    expr (.binary pos op l r) = (do
      let (before, left) ← inside (.left op) (expr l)
      let (code, right) ← inside (.right op) (expr r)
      OfSource.binary (before ++ code) bop left right) := by
  cases op with
  | le | ge | unknown => cases known
  | _ =>
    cases known
    simp only [expr, binOp?]

theorem eval?_binOp? (known : binOp? op = some bop) (a b : Word) : bop.eval? a b = op.eval? a b := by
  cases op <;> cases known <;> rfl

theorem binary {pos : Source.Position} {op : Source.BinOp} {bop : BinOp} {l r : Expr}
    (known : binOp? op = some bop) (left : Lowers w start l) (right : Lowers w start r) :
    Lowers w start (.binary pos op l r) := by
  intro a code res names ok
  rw [expr_binary known, bind_ok] at ok
  obtain ⟨⟨before, x⟩, mid, first, ok⟩ := ok
  obtain ⟨b, rfl, leftCode⟩ := left a before x mid (inside_ok.1 first)
  rw [bind_ok] at ok
  obtain ⟨⟨after, y⟩, mid, second, ok⟩ := ok
  obtain ⟨c, rfl, rightCode⟩ := right b after y mid (inside_ok.1 second)
  dsimp only at ok
  rw [OfSource.binary, bind_ok] at ok
  obtain ⟨dst, mid, chosen, ok⟩ := ok
  obtain ⟨d, rfl, more, one, made⟩ := dest_ok chosen
  obtain ⟨found, rfl⟩ := pure_ok.1 ok
  obtain ⟨rfl, rfl⟩ := Prod.mk.inj found
  have lowerLeft := leftCode.lower
  have upperLeft := leftCode.upper
  have lowerRight := rightCode.lower
  have upperRight := rightCode.upper
  refine ⟨d, rfl, by omega, ?_, ?_, ?_⟩
  · simp only [List.length_append, List.length_singleton]
    omega
  · intro stmt member
    simp only [List.mem_append, List.mem_singleton] at member
    rcases member with (member | member) | rfl
    · exact leftCode.straight stmt member
    · exact rightCode.straight stmt member
    · exact Stmt.isStraight_plain rfl
  · intro bound i σ τ same
    rw [Expr.results, List.append_assoc, Language.flows_append]
    refine .andThen (leftCode.runs (by omega) i σ τ same) ?_
    rintro ⟨v, σ₁⟩ τ₁ agreesLeft
    rw [Language.flows_append]
    refine .andThen (rightCode.runs (by omega) _ σ₁ τ₁ agreesLeft.user) ?_
    rintro ⟨u, σ₂⟩ τ₂ agreesRight
    have heldLeft := agreesLeft.holds.mono lowerRight agreesRight.keeps
    have keeps := agreesLeft.keeps.trans agreesRight.keeps lowerLeft
    obtain ⟨j, new, last, rfl⟩ := made (by omega) heldLeft
    rw [Language.flows_singleton, World.nexts_binary, eval?_binOp? known,
      ← heldLeft.read agreesRight.user, ← agreesRight.holds.read agreesRight.user]
    exact .images fun value _ => Agrees.set agreesRight.user keeps new last bound value rfl

theorem unary {pos : Source.Position} {op : Source.UnOp} {uop : UnOp} {e : Expr}
    (code : expr (.unary pos op e) = (do
      let (code, arg) ← expr e
      OfSource.unary code uop arg))
    (meaning : ∀ v σ, op.results v σ = {out | ∃ c, uop.eval? (v.read σ) = some c ∧ out = (.value c, σ)})
    (operand : Lowers w start e) : Lowers w start (.unary pos op e) := by
  intro a whole res names ok
  rw [code, bind_ok] at ok
  obtain ⟨⟨before, x⟩, mid, first, ok⟩ := ok
  obtain ⟨b, rfl, before⟩ := operand a before x mid first
  dsimp only at ok
  rw [OfSource.unary, bind_ok] at ok
  obtain ⟨dst, mid, chosen, ok⟩ := ok
  obtain ⟨c, rfl, more, one, made⟩ := dest_ok chosen
  obtain ⟨found, rfl⟩ := pure_ok.1 ok
  obtain ⟨rfl, rfl⟩ := Prod.mk.inj found
  have lower := before.lower
  have upper := before.upper
  refine ⟨c, rfl, by omega, ?_, ?_, ?_⟩
  · simp only [List.length_append, List.length_singleton]
    omega
  · intro stmt member
    simp only [List.mem_append, List.mem_singleton] at member
    rcases member with member | rfl
    · exact before.straight stmt member
    · exact Stmt.isStraight_plain rfl
  · intro bound i σ τ same
    rw [Expr.results, Language.flows_append]
    refine .andThen (before.runs (by omega) i σ τ same) ?_
    rintro ⟨v, σ₁⟩ τ₁ agrees
    obtain ⟨j, new, last, rfl⟩ := made lower agrees.holds
    dsimp only
    rw [meaning, Language.flows_singleton, World.nexts_unary, ← agrees.holds.read agrees.user]
    exact .images fun value _ => Agrees.set agrees.user agrees.keeps new last bound value rfl

theorem flows_count {step : Word → Word} {one : Name} (other : x ≠ one)
    (value : ∀ c, bop.eval? c 1 = some (step c)) (i : Nat) (τ : Valuation) :
    w.setting.language.flows i [.plain (.store one (some (.int 1))), .plain (.binary bop x x one)] τ =
      {(τ.set one 1).set x (step (τ x))} := by
  have again : ∀ τ' : Valuation, τ' ∈ w.setting.language.flows (i + 1) [.plain (.binary bop x x one)] (τ.set one 1) ↔
      τ' = (τ.set one 1).set x (step (τ x)) := by
    intro τ'
    rw [Language.flows_singleton, World.nexts_binary, Valuation.set_same, Valuation.set_other other,
      value]
    simp
  rw [Language.flows, World.nexts_store]
  ext τ'
  constructor
  · rintro ⟨τ₁, ⟨_, rfl, rfl⟩, final⟩
    exact (again τ').1 final
  · intro final
    exact ⟨_, ⟨1, rfl, rfl⟩, (again τ').2 final⟩

theorem count {at_ : Source.Position} {op : Source.UnOp} (bop : BinOp) (step : Word → Word)
    (code : expr (.unary pos op (.var at_ x)) = (do
      let (code, arg) ← expr (.var at_ x)
      OfSource.count code bop arg))
    (meaning : ∀ σ, op.results (.variable x) σ = {(.variable x, σ.set x (step (σ x)))})
    (value : ∀ c, bop.eval? c 1 = some (step c)) (written : Name.isGenerated x = false) :
    Lowers w start (.unary pos op (.var at_ x)) := by
  intro a whole res names ok
  rw [code, expr, bind_ok] at ok
  obtain ⟨_, mid, first, ok⟩ := ok
  obtain ⟨rfl, rfl⟩ := pure_ok.1 first
  dsimp only at ok
  rw [OfSource.count, OfSource.one, bind_ok] at ok
  obtain ⟨_, mid, unit, ok⟩ := ok
  rw [bind_ok] at unit
  obtain ⟨_, mid, new, unit⟩ := unit
  rw [fresh_ok, Namer.fresh_after] at new
  obtain ⟨rfl, rfl⟩ := Prod.mk.inj new
  obtain ⟨rfl, rfl⟩ := pure_ok.1 unit
  obtain ⟨found, rfl⟩ := pure_ok.1 ok
  obtain ⟨rfl, rfl⟩ := Prod.mk.inj found
  refine ⟨a + 1, rfl, by omega, by simp, ?_, ?_⟩
  · intro stmt member
    simp only [List.nil_append, List.cons_append, List.mem_cons, List.not_mem_nil, or_false] at member
    rcases member with rfl | rfl <;> exact Stmt.isStraight_plain rfl
  · intro bound i σ τ same
    have other : x ≠ start.made Name.temporary (a + 1) := Name.ne_generated written _ _
    rw [Expr.results, Expr.results, andThen_singleton]
    dsimp only
    rw [meaning, List.nil_append, List.singleton_append, flows_count other value]
    have agree : τ x = σ x := Valuation.apply_of_user same written
    refine .singleton ⟨?_, .inl ⟨rfl, written⟩, ?_⟩
    · have unit := Valuation.user_set_generated (Namer.isGenerated_made start Name.temporary (a + 1)) τ 1
      have moved := Valuation.user_set (unit.trans same) x (step (τ x))
      rw [agree] at moved
      rw [agree]
      exact moved
    · exact ((Keeps.refl start a τ).set (by omega) bound 1).set_user written _

end Lowers

section

variable (w : World) (start : Namer)

structure ArgsCode (a : Nat) (es : List Expr) (code : List Stmt) (xs : List Name) (b : Nat) : Prop where
  lower : a ≤ b
  upper : b ≤ a + code.length
  straight : ∀ stmt ∈ code, stmt.IsStraight
  runs : b < 2 ^ 64 → ∀ i σ τ, τ.user = σ.user →
    Matches
      (fun (out : List Operand × Valuation) τ' =>
        τ'.user = out.2.user ∧ List.Forall₂ (Holds start a b τ') xs out.1 ∧ Keeps start a τ τ')
      (Expr.listResults w es σ) (w.setting.language.flows i code τ)

def LowersAll (es : List Expr) : Prop :=
  ∀ a callee index code xs names, args callee index es (start.after a) = .ok ((code, xs), names) →
    ∃ b, names = start.after b ∧ ArgsCode w start a es code xs b

end

namespace LowersAll

theorem nil : LowersAll w start [] := by
  intro a callee index code xs names ok
  rw [args] at ok
  obtain ⟨found, rfl⟩ := pure_ok.1 ok
  obtain ⟨rfl, rfl⟩ := Prod.mk.inj found
  refine ⟨a, rfl, le_refl _, by simp, by simp, ?_⟩
  intro _ i σ τ same
  rw [Expr.listResults, Language.flows]
  exact .singleton ⟨same, .nil, Keeps.refl _ _ _⟩

theorem cons {e : Expr} {es : List Expr} (head : Lowers w start e) (tail : LowersAll w start es) :
    LowersAll w start (e :: es) := by
  intro a callee index code xs names ok
  rw [args, bind_ok] at ok
  obtain ⟨⟨before, x⟩, mid, first, ok⟩ := ok
  obtain ⟨b, rfl, headCode⟩ := head a before x mid (inside_ok.1 first)
  rw [bind_ok] at ok
  obtain ⟨⟨after, xs⟩, mid, second, ok⟩ := ok
  obtain ⟨c, rfl, tailCode⟩ := tail b callee (index + 1) after xs mid second
  obtain ⟨found, rfl⟩ := pure_ok.1 ok
  obtain ⟨rfl, rfl⟩ := Prod.mk.inj found
  have lowerHead := headCode.lower
  have upperHead := headCode.upper
  have lowerTail := tailCode.lower
  have upperTail := tailCode.upper
  refine ⟨c, rfl, by omega, ?_, ?_, ?_⟩
  · rw [List.length_append]
    omega
  · intro stmt member
    rcases List.mem_append.1 member with member | member
    · exact headCode.straight stmt member
    · exact tailCode.straight stmt member
  · intro bound i σ τ same
    rw [Expr.listResults, Language.flows_append]
    refine .andThen (headCode.runs (by omega) i σ τ same) ?_
    rintro ⟨v, σ₁⟩ τ₁ agrees
    have rest := tailCode.runs bound (i + before.length) σ₁ τ₁ agrees.user
    have stop : w.setting.language.flows (i + before.length) after τ₁ =
        andThen (w.setting.language.flows (i + before.length) after τ₁) fun τ₂ => {τ₂} := by
      ext τ₂
      simp [andThen]
    rw [stop]
    refine .andThen rest ?_
    rintro ⟨vs, σ₂⟩ τ₂ ⟨user, held, keeps⟩
    refine .singleton ⟨user, .cons ?_ ?_, agrees.keeps.trans keeps lowerHead⟩
    · exact agrees.holds.mono lowerTail keeps
    · exact held.imp fun _ _ holds => holds.below lowerHead

end LowersAll

theorem Lowers.call {pos : Source.Position} {callee : Name} {es : List Expr} (all : LowersAll w start es) :
    Lowers w start (.call pos callee es) := by
  intro a code res names ok
  rw [expr, bind_ok] at ok
  obtain ⟨⟨before, xs⟩, mid, first, ok⟩ := ok
  obtain ⟨b, rfl, argsCode⟩ := all a callee 0 before xs mid first
  rw [bind_ok] at ok
  obtain ⟨_, mid, new, ok⟩ := ok
  rw [fresh_ok, Namer.fresh_after] at new
  obtain ⟨rfl, rfl⟩ := Prod.mk.inj new
  obtain ⟨found, rfl⟩ := pure_ok.1 ok
  obtain ⟨rfl, rfl⟩ := Prod.mk.inj found
  have lower := argsCode.lower
  have upper := argsCode.upper
  refine ⟨b + 1, rfl, by omega, ?_, ?_, ?_⟩
  · simp only [List.length_append, List.length_singleton]
    omega
  · intro stmt member
    simp only [List.mem_append, List.mem_singleton] at member
    rcases member with member | rfl
    · exact argsCode.straight stmt member
    · exact Stmt.isStraight_plain rfl
  · intro bound i σ τ same
    rw [Expr.results, Language.flows_append]
    refine .andThen (argsCode.runs (by omega) i σ τ same) ?_
    rintro ⟨vs, σ₁⟩ τ₁ ⟨user, held, keeps⟩
    have values : vs.map (Operand.read σ₁) = xs.map τ₁ := Holds.read_all held user
    dsimp only at user ⊢
    have kept : start.made Name.temporary (b + 1) ≠ [] := Name.generated_ne_nil _ _
    rw [Language.flows_singleton, World.nexts_call _ _ _ _ _ kept, values, user]
    refine .images fun returned _ => Agrees.set ?_ ?_ (by omega) (le_refl _) bound returned.1 rfl
    · rw [Valuation.user_withUser, Valuation.user_withUser]
    · intro j below
      rw [Valuation.withUser_generated (Namer.isGenerated_made _ _ _)]
      exact keeps j below

namespace Lowers

abbrev unit (pos : Source.Position) : Expr :=
  .literal ⟨pos, .int 1⟩

theorem compareNext {step : Source.BinOp} {sop : BinOp}
    {first second third : Step} {names names' : Namer} {out : List Stmt × Name}
    (known : binOp? op = some bop) (moved : binOp? step = some sop)
    (ok : (do
      let (before, left) ← inside first (expr l)
      let (code, right) ← inside second (inside third (expr r))
      OfSource.compareNext (before ++ code) bop sop left right : Lower _) names = .ok (out, names')) :
    expr (.binary pos op l (.binary pos step r (unit pos))) names = .ok (out, names') := by
  rw [bind_ok] at ok
  obtain ⟨⟨before, x⟩, afterLeft, left, ok⟩ := ok
  rw [bind_ok] at ok
  obtain ⟨⟨code, y⟩, afterRight, right, ok⟩ := ok
  dsimp only at ok
  rw [OfSource.compareNext, OfSource.one, bind_ok] at ok
  obtain ⟨_, afterUnit, made, ok⟩ := ok
  rw [bind_ok] at made
  obtain ⟨one, afterUnit, new, made⟩ := made
  obtain ⟨rfl, rfl⟩ := pure_ok.1 made
  rw [bind_ok] at ok
  obtain ⟨_, afterBound, bound, ok⟩ := ok
  rw [OfSource.binary, bind_ok] at bound
  obtain ⟨z, afterBound, chosen, bound⟩ := bound
  obtain ⟨rfl, rfl⟩ := pure_ok.1 bound
  have literal : expr (unit pos) afterRight = .ok (([.plain (.store one (some (.int 1)))], one), afterUnit) := by
    rw [expr, bind_ok]
    exact ⟨_, _, lift_ok.2 ⟨rfl, rfl⟩, bind_ok.2 ⟨_, _, new, rfl⟩⟩
  have inner : expr (.binary pos step r (unit pos)) afterLeft =
      .ok ((code ++ [Stmt.plain (.store one (some (.int 1)))] ++ [Stmt.plain (.binary sop z y one)], z), afterBound) := by
    rw [expr_binary moved, bind_ok]
    refine ⟨_, _, inside_ok.2 (inside_ok.1 (inside_ok.1 right)), bind_ok.2 ⟨_, _, inside_ok.2 literal, ?_⟩⟩
    exact bind_ok.2 ⟨_, _, chosen, rfl⟩
  rw [expr_binary known, bind_ok]
  refine ⟨_, _, inside_ok.2 (inside_ok.1 left), bind_ok.2 ⟨_, _, inside_ok.2 inner, ?_⟩⟩
  simpa only [List.append_assoc] using ok

theorem results_compareNext {weak step : Source.BinOp} (l r : Expr)
    {move : Word → Word} (moved : ∀ b, step.eval? b 1 = some (move b))
    (weaker : ∀ a b, weak.eval? a b = op.eval? a (move b)) :
    (Expr.binary pos weak l r).results w = (Expr.binary pos op l (.binary pos step r (unit pos))).results w := by
  funext σ
  simp only [Expr.results, andThen_assoc]
  congr 1
  funext ⟨v, σ₁⟩
  congr 1
  funext ⟨u, σ₂⟩
  have one : {out | ∃ c ∈ (Source.Constant.int 1).words w, out = (Operand.value c, σ₂)} =
      {(Operand.value 1, σ₂)} := by
    ext out
    simp [Source.Constant.words]
  have bound : {out | ∃ c, step.eval? (u.read σ₂) 1 = some c ∧ out = (Operand.value c, σ₂)} =
      {(Operand.value (move (u.read σ₂)), σ₂)} := by
    rw [moved]
    ext out
    simp
  dsimp only
  rw [one, andThen_singleton]
  simp only [Operand.read_value]
  rw [bound, andThen_singleton, weaker]
  rfl

theorem slt_succ (a b : Word) : a.slt (b + 1) = (a.sle b && b != BitVec.intMax 64) := by
  have boundA := a.toInt_lt
  have boundA' := a.le_toInt
  have boundB := b.toInt_lt
  have boundB' := b.le_toInt
  have one : (1 : Word).toInt = 1 := by decide
  have last : (BitVec.intMax 64).toInt = 2 ^ 63 - 1 := by decide
  rw [Bool.eq_iff_iff]
  simp only [BitVec.slt_iff_toInt_lt, Bool.and_eq_true, BitVec.sle_iff_toInt_le, bne_iff_ne, ne_eq,
    ← BitVec.toInt_inj, BitVec.toInt_add, one, last, Int.bmod]
  split <;> omega

theorem pred_slt (a b : Word) : (b - 1).slt a = (b.sle a && b != BitVec.intMin 64) := by
  have boundA := a.toInt_lt
  have boundA' := a.le_toInt
  have boundB := b.toInt_lt
  have boundB' := b.le_toInt
  have one : (1 : Word).toInt = 1 := by decide
  have last : (BitVec.intMin 64).toInt = -2 ^ 63 := by decide
  rw [Bool.eq_iff_iff]
  simp only [BitVec.slt_iff_toInt_lt, Bool.and_eq_true, BitVec.sle_iff_toInt_le, bne_iff_ne, ne_eq,
    ← BitVec.toInt_inj, BitVec.toInt_sub, one, last, Int.bmod]
  split <;> omega

theorem congr {e e' : Expr} (code : ∀ names out, expr e names = .ok out → expr e' names = .ok out)
    (meaning : e.results w = e'.results w) (lowers : Lowers w start e') : Lowers w start e := by
  intro a whole x names ok
  obtain ⟨b, after, lowered⟩ := lowers a whole x names (code _ _ ok)
  exact ⟨b, after, lowered.lower, lowered.upper, lowered.straight, by rw [meaning]; exact lowered.runs⟩

theorem le (left : Lowers w start l) (right : Lowers w start r) : Lowers w start (.binary pos .le l r) := by
  have strict : Lowers w start (.binary pos .lt l (.binary pos .add r (unit pos))) :=
    .binary rfl left (.binary rfl right (.literal _))
  refine .congr ?_ ?_ strict
  · intro names out ok
    rw [expr] at ok
    exact compareNext rfl rfl ok
  · exact results_compareNext l r (fun _ => rfl) fun a b => by simp only [Source.BinOp.eval?, slt_succ]

theorem ge (left : Lowers w start l) (right : Lowers w start r) : Lowers w start (.binary pos .ge l r) := by
  have strict : Lowers w start (.binary pos .gt l (.binary pos .sub r (unit pos))) :=
    .binary rfl left (.binary rfl right (.literal _))
  refine .congr ?_ ?_ strict
  · intro names out ok
    rw [expr] at ok
    exact compareNext rfl rfl ok
  · exact results_compareNext l r (fun _ => rfl) fun a b => by simp only [Source.BinOp.eval?, pred_slt]

end Lowers

section

variable (w : World) (start : Namer)

mutual

theorem lowers : ∀ e : Expr, e.isProper = true → Lowers w start e
  | .missing, _ => .missing
  | .var _ x, proper => .var (by simpa [Expr.isProper] using proper)
  | .literal l, _ => .literal l
  | .call _ _ es, proper => .call (lowersAll es (by simpa only [Expr.isProper] using proper))
  | .unary pos op e, proper => by
    simp only [Expr.isProper, Bool.and_eq_true, Bool.or_eq_true, Bool.not_eq_true'] at proper
    obtain ⟨counted, proper⟩ := proper
    have operand := lowers e proper
    cases op with
    | not => exact .unary (by rw [expr]) (fun _ _ => rfl) operand
    | invert =>
      refine .unary (by rw [expr]) (fun v σ => ?_) operand
      ext out
      simp [Source.UnOp.results, UnOp.eval?]
    | negate =>
      refine .unary (by rw [expr]) (fun v σ => ?_) operand
      ext out
      simp [Source.UnOp.results, UnOp.eval?]
    | increment =>
      obtain ⟨at_, x, rfl⟩ := Expr.exists_var (counted.resolve_left (by decide))
      have written : Name.isGenerated x = false := by simpa [Expr.isProper] using proper
      exact .count .add (· + 1) (by simp only [expr]) (fun _ => rfl) (fun _ => rfl) written
    | decrement =>
      obtain ⟨at_, x, rfl⟩ := Expr.exists_var (counted.resolve_left (by decide))
      have written : Name.isGenerated x = false := by simpa [Expr.isProper] using proper
      exact .count .sub (· - 1) (by simp only [expr]) (fun _ => rfl) (fun _ => rfl) written
    | unknown code outside => exact .unknownUnary
  | .binary pos op l r, proper => by
    simp only [Expr.isProper, Bool.and_eq_true] at proper
    have left := lowers l proper.1
    have right := lowers r proper.2
    cases op with
    | le => exact .le left right
    | ge => exact .ge left right
    | unknown code outside => exact .unknownBinary
    | _ => exact .binary rfl left right

theorem lowersAll : ∀ es : List Expr, Expr.allProper es = true → LowersAll w start es
  | [], _ => .nil
  | e :: es, proper => by
    rw [Expr.allProper, Bool.and_eq_true] at proper
    exact .cons (lowers e proper.1) (lowersAll es proper.2)

end

end

end MiniC.Code.OfSource
