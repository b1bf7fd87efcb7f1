import MiniC.Proofs.Emission.Realizing

namespace MiniC

namespace Word

theorem bit_cases (w : Word) : w.bit = 0 ∨ w.bit = 1 := by
  have small : w.bit.toNat ≤ 1 := by
    rw [bit, BitVec.toNat_and]
    exact Nat.and_le_right
  have cases : w.bit.toNat = 0 ∨ w.bit.toNat = 1 := by omega
  rcases cases with zero | one
  · exact .inl (BitVec.eq_of_toNat_eq zero)
  · exact .inr (BitVec.eq_of_toNat_eq one)

theorem bit_and (a b : Word) : (a &&& b).bit = a.bit &&& b.bit := by
  unfold bit
  ext i
  simp only [BitVec.getElem_and]
  cases a[i] <;> simp

theorem bit_or (a b : Word) : (a ||| b).bit = a.bit ||| b.bit := by
  unfold bit
  ext i
  simp only [BitVec.getElem_and, BitVec.getElem_or]
  cases a[i] <;> simp

theorem bit_not (a : Word) : (~~~a).bit = (~~~a.bit).bit := by
  unfold bit
  ext i
  simp only [BitVec.getElem_and, BitVec.getElem_not]
  cases a[i] <;> simp

end Word

namespace Code

/-- What an operator says of two words, if it says something of them: one is less than the other as a signed number,
greater, the same, another, both hold, one of them holds. A word holds unless it is zero. -/
def BinOp.truth? : BinOp → Option (Word → Word → Bool)
  | .lt => some fun a b => decide (a.toInt < b.toInt)
  | .gt => some fun a b => decide (b.toInt < a.toInt)
  | .eq => some fun a b => a == b
  | .ne => some fun a b => a != b
  | .logAnd => some fun a b => a != 0 && b != 0
  | .logOr => some fun a b => a != 0 || b != 0
  | _ => none

def BinOp.seen : BinOp → Word → Word
  | .logAnd, w | .logOr, w => w.bit
  | _, w => w

theorem BinOp.eval?_of_truth {op : BinOp} {holds : Word → Word → Bool} (tells : op.truth? = some holds) (a b : Word) :
    op.eval? a b = some (.ofBool (holds (op.seen a) (op.seen b))) := by
  cases op with
  | logAnd | logOr =>
    cases tells
    simp only [BinOp.eval?, BinOp.seen, Word.bit_and, Word.bit_or, Option.some.injEq]
    rcases a.bit_cases with left | left <;> rcases b.bit_cases with right | right <;> rw [left, right] <;> decide
  | lt | gt | eq | ne =>
    cases tells
    rfl
  | _ => cases tells

theorem UnOp.eval?_logNeg (a : Word) : UnOp.logNeg.eval? a = some (.ofBool (a.bit == 0)) := by
  rw [UnOp.eval?, Word.bit_not]
  rcases a.bit_cases with bit | bit <;> rw [bit] <;> decide

end Code

namespace Assembly

open Code Storage

def secluded (symbols : Name → Word) : Host ⟨⟨0⟩, [], []⟩ where
  symbols := symbols
  callees _ _ _ := ∅
  apart found := by cases found
  proper member := member.elim

theorem holds_secluded (symbols : Name → Word) (m : Machine) :
    Holds (secluded symbols) .empty (m.get .sp) ⟨m.get, fun _ => 0, fun _ => 0⟩ m where
  pointer := rfl
  registers _ _ := rfl
  frame _ never := by cases never
  cells := rfl

/-- The code only computes, and leaves a word in a register that the machine before it determines. -/
structure Leaves (code : List Instr) (d : Register) (w : Machine → Word) : Prop where
  data : ∀ i ∈ code, i.isData = true
  left : ∀ symbols m, (afterAll symbols m code).get d = w m

theorem register_of_resolve {scope : Scope} {x : Name} {r : Register} (found : scope.resolve x = .ok (.register r)) :
    scope.register x = .ok r := by
  rw [Scope.register, found]
  rfl

theorem exists_code_of_truth {op : BinOp} {holds : Word → Word → Bool} (tells : op.truth? = some holds) (d l r : Register) :
    ∃ code, binary op d l r = .ok code := by
  cases op with
  | lt | gt | eq | ne | logAnd | logOr => exact ⟨_, rfl⟩
  | _ => cases tells

section

variable {d l r : Register} {code : List Instr}

theorem leaves_binary {op : BinOp} (emitted : binary op d l r = .ok code) (nonzero : d ≠ .zero) {value : Word → Word → Word}
    (same : ∀ a b, op.eval? a b = some (value a b)) : Leaves code d fun m => value (m.get l) (m.get r) where
  data := isData_of_binary emitted
  left symbols m := by
    obtain ⟨w, evaluated, yields⟩ := binary_yields emitted (holds_secluded symbols m)
    cases (same _ _).symm.trans evaluated
    exact yields.get_same nonzero

theorem leaves_unary {op : UnOp} (emitted : unary op d l = .ok code) (nonzero : d ≠ .zero) {value : Word → Word}
    (same : ∀ a, op.eval? a = some (value a)) : Leaves code d fun m => value (m.get l) where
  data := isData_of_unary emitted
  left symbols m := by
    obtain ⟨w, evaluated, yields⟩ := unary_yields emitted (holds_secluded symbols m)
    cases (same _).symm.trans evaluated
    exact yields.get_same nonzero

end

/-- The instructions for an operator that says something leave one if it is so, and zero otherwise, in the register of the
destination, whichever registers the operands are in. Logical operators say it of the lowest bits of their operands. -/
theorem leaves_truth {scope : Scope} {dest left right : Name} {d l r : Register}
    (atDest : scope.resolve dest = .ok (.register d)) (atLeft : scope.resolve left = .ok (.register l))
    (atRight : scope.resolve right = .ok (.register r)) (nonzero : d ≠ .zero) :
    (∀ op holds, op.truth? = some holds → ∃ code, action scope (.binary op dest left right) = .ok code ∧
        Leaves code d fun m => .ofBool (holds (op.seen (m.get l)) (op.seen (m.get r)))) ∧
      ∃ code, action scope (.unary .logNeg dest left) = .ok code ∧ Leaves code d fun m => .ofBool ((m.get l).bit == 0) := by
  constructor
  · intro op holds tells
    obtain ⟨code, emitted⟩ := exists_code_of_truth tells d l r
    refine ⟨code, ?_, leaves_binary emitted nonzero (BinOp.eval?_of_truth tells)⟩
    rw [action, register_of_resolve atDest, register_of_resolve atLeft, register_of_resolve atRight]
    exact emitted
  · refine ⟨[.unary .not .temporary l, .immediate .andi d .temporary 1], ?_, leaves_unary rfl nonzero UnOp.eval?_logNeg⟩
    rw [action, register_of_resolve atDest, register_of_resolve atLeft]
    rfl

def pair : Scope :=
  ⟨[], [], ⟨[("x", .register .s1), ("y", .register .s2)], [], 0⟩, "__exit_f"⟩

theorem leaves_truth_pair :
    (∃ code, action pair (.binary .ne "x" "x" "y") = .ok code ∧ Leaves code .s1 fun m => .ofBool (m.get .s1 != m.get .s2)) ∧
      ∃ code, action pair (.unary .logNeg "x" "x") = .ok code ∧ Leaves code .s1 fun m => .ofBool ((m.get .s1).bit == 0) := by
  obtain ⟨compares, negates⟩ :=
    @leaves_truth pair "x" "x" "y" .s1 .s1 .s2 (by decide) (by decide) (by decide) (by decide)
  exact ⟨compares .ne _ rfl, negates⟩

/-- Two and one are both not zero, but no logical operator sees it of two. -/
theorem misjudges_two :
    ∃ m : Machine, m.get .s1 = 2 ∧ m.get .s2 = 1 ∧
      (∃ code, action pair (.binary .logAnd "x" "x" "y") = .ok code ∧
        ∀ symbols, (afterAll symbols m code).get .s1 ≠ .ofBool (m.get .s1 != 0 && m.get .s2 != 0)) ∧
      (∃ code, action pair (.binary .logOr "x" "x" "x") = .ok code ∧
        ∀ symbols, (afterAll symbols m code).get .s1 ≠ .ofBool (m.get .s1 != 0 || m.get .s1 != 0)) ∧
      ∃ code, action pair (.unary .logNeg "x" "x") = .ok code ∧
        ∀ symbols, (afterAll symbols m code).get .s1 ≠ .ofBool (m.get .s1 == 0) := by
  refine ⟨⟨fun r => if r = .s1 then 2 else 1, fun _ => 0⟩, by decide, by decide, ?_, ?_, ?_⟩
  · refine ⟨_, rfl, fun symbols => ?_⟩
    rw [(@leaves_binary .s1 .s1 .s2 _ .logAnd rfl (by decide) _ (BinOp.eval?_of_truth rfl)).left]
    decide
  · refine ⟨_, rfl, fun symbols => ?_⟩
    rw [(@leaves_binary .s1 .s1 .s1 _ .logOr rfl (by decide) _ (BinOp.eval?_of_truth rfl)).left]
    decide
  · refine ⟨_, rfl, fun symbols => ?_⟩
    rw [(leaves_unary rfl (by decide) UnOp.eval?_logNeg).left]
    decide

end Assembly

end MiniC
