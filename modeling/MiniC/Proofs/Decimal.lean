import MiniC.Bytes
import Mathlib.Algebra.Ring.Int.Defs
import Mathlib.Algebra.Ring.Nat

namespace MiniC.Bytes

def decimalValue (text : Bytes) : Nat :=
  text.foldl (fun n b => 10 * n + (b.toNat - 48)) 0

theorem isDigit_range {c : Char} (digit : c.isDigit = true) : 48 ≤ c.toNat ∧ c.toNat ≤ 57 := by
  simp only [Char.isDigit, Bool.and_eq_true, decide_eq_true_eq, ge_iff_le, UInt32.le_iff_toNat_le] at digit
  exact digit

theorem toNat_toUInt8_of_isDigit {c : Char} (digit : c.isDigit = true) : c.toUInt8.toNat = c.toNat := by
  have range := isDigit_range digit
  have small : c.toNat < 256 := by omega
  simp only [Char.toUInt8, UInt32.toNat_toUInt8]
  exact Nat.mod_eq_of_lt small

theorem isDigit_of_mem_ofNat {n : Nat} {b : UInt8} (member : b ∈ ofNat n) : Ascii.isDigit b = true := by
  obtain ⟨c, found, rfl⟩ := List.mem_map.1 member
  have digit := Nat.isDigit_of_mem_toDigits (by decide) (by decide) found
  have range := isDigit_range digit
  have same := toNat_toUInt8_of_isDigit digit
  simp only [Ascii.isDigit, Bool.and_eq_true, decide_eq_true_eq, UInt8.le_iff_toNat_le, same]
  exact range

theorem foldl_digits (cs : List Char) (digits : ∀ c ∈ cs, c.isDigit = true) (n : Nat) :
    (cs.map Char.toUInt8).foldl (fun n b => 10 * n + (b.toNat - 48)) n = Nat.ofDigitChars 10 cs n := by
  induction cs generalizing n with
  | nil => rfl
  | cons c cs ih =>
    have head := toNat_toUInt8_of_isDigit (digits c (by simp))
    have tail := ih (fun d member => digits d (List.mem_cons_of_mem _ member))
    rw [List.map_cons, List.foldl_cons, tail, head, Nat.ofDigitChars_cons]
    rfl

theorem decimalValue_ofNat (n : Nat) : decimalValue (ofNat n) = n := by
  unfold decimalValue ofNat
  rw [foldl_digits _ (fun c member => Nat.isDigit_of_mem_toDigits (by decide) (by decide) member)]
  exact Nat.ofDigitChars_ten_toDigits

theorem ofNat_injective {m n : Nat} (same : ofNat m = ofNat n) : m = n := by
  rw [← decimalValue_ofNat m, same, decimalValue_ofNat]

theorem ofNat_ne_nil (n : Nat) : ofNat n ≠ [] := by
  simp [ofNat, Nat.toDigits_ne_nil]

theorem ofInt_head (n : Int) : ∃ b rest, ofInt n = b :: rest ∧ (Ascii.isDigit b = true ∨ b = 0x2d) := by
  cases n with
  | ofNat n =>
    obtain ⟨b, rest, whole⟩ := List.exists_cons_of_ne_nil (ofNat_ne_nil n)
    exact ⟨b, rest, whole, .inl (isDigit_of_mem_ofNat (n := n) (by simp [whole]))⟩
  | negSucc n => exact ⟨0x2d, ofNat (n + 1), rfl, .inr rfl⟩

theorem ofInt_injective {m n : Int} (same : ofInt m = ofInt n) : m = n := by
  have unsigned : ∀ i j : Nat, ofNat i ≠ 0x2d :: ofNat j := by
    intro i j spelled
    have digit := isDigit_of_mem_ofNat (n := i) (b := 0x2d) (by simp [spelled])
    exact absurd digit (by decide)
  cases m with
  | ofNat i =>
    cases n with
    | ofNat j => exact congrArg Int.ofNat (ofNat_injective same)
    | negSucc j => exact absurd same (unsigned i (j + 1))
  | negSucc i =>
    cases n with
    | ofNat j => exact absurd same.symm (unsigned j (i + 1))
    | negSucc j =>
      have tails : ofNat (i + 1) = ofNat (j + 1) := (List.cons.inj same).2
      have counts := ofNat_injective tails
      simp only [Int.negSucc.injEq]
      omega

end MiniC.Bytes
