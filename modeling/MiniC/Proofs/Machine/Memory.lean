import MiniC.Assembly.Line
import MiniC.Proofs.Code.Meaning

namespace MiniC.Assembly

namespace Width

def bytes : Width → Nat
  | .byte => 1
  | .word => 8

/-- What memory of a width keeps of a word. -/
def cut : Width → Word → Word
  | .byte, w => w.byte
  | .word, w => w

end Width

abbrev Memory := Word → BitVec 8

namespace Memory

/-- Is `b` one of the `n` bytes from `a` on? -/
def Within (a : Word) (n : Nat) (b : Word) : Prop :=
  (b - a).toNat < n

def Apart (a : Word) (n : Nat) (b : Word) (k : Nat) : Prop :=
  ∀ x, Within a n x → ¬ Within b k x

/-- The number that `n` bytes from `a` on make, the lowest first. -/
def number (memory : Memory) (a : Word) : (n : Nat) → Word
  | 0 => 0
  | n + 1 => (memory a).setWidth 64 ||| memory.number (a + 1) n <<< 8

def load (memory : Memory) (a : Word) (width : Width) : Word :=
  memory.number a width.bytes

def store (memory : Memory) (a w : Word) (width : Width) : Memory :=
  fun b => if (b - a).toNat < width.bytes then w.extractLsb' (8 * (b - a).toNat) 8 else memory b

variable {memory memory' : Memory} {a b w : Word} {width width' : Width} {n k : Nat}

theorem Apart.symm (apart : Apart a n b k) : Apart b k a n :=
  fun x inB inA => apart x inA inB

theorem apart_of_le (order : a.toNat + n ≤ b.toNat) (inside : b.toNat + k ≤ 2 ^ 64) : Apart a n b k := by
  intro x inA inB
  simp only [Within, BitVec.toNat_sub] at inA inB
  have := x.isLt
  omega

theorem within_add (a : Word) {i n : Nat} (below : i < n) (small : n ≤ 8) : Within a n (a + BitVec.ofNat 64 i) := by
  have offset : a + BitVec.ofNat 64 i - a = BitVec.ofNat 64 i := by
    rw [BitVec.add_comm, BitVec.add_sub_cancel]
  rw [Within, offset, BitVec.toNat_ofNat]
  omega

theorem Width.bytes_le (width : Width) : width.bytes ≤ 8 := by
  cases width <;> decide

theorem getLsbD_number (memory : Memory) (a : Word) {n i : Nat} (small : i < 64) :
    (memory.number a n).getLsbD i =
      (decide (i < 8 * n) && (memory (a + BitVec.ofNat 64 (i / 8))).getLsbD (i % 8)) := by
  induction n generalizing a i with
  | zero => simp [number]
  | succ n ih =>
    rw [number, BitVec.getLsbD_or, BitVec.getLsbD_shiftLeft, BitVec.getLsbD_setWidth]
    by_cases first : i < 8
    · have here : i / 8 = 0 := by omega
      have bit : i % 8 = i := by omega
      simp [first, here, bit, small]
      omega
    · have next : a + 1 + BitVec.ofNat 64 ((i - 8) / 8) = a + BitVec.ofNat 64 (i / 8) := by
        rw [show i / 8 = (i - 8) / 8 + 1 by omega, BitVec.ofNat_add, BitVec.add_assoc, BitVec.add_comm 1]
        rfl
      have bit : (i - 8) % 8 = i % 8 := by omega
      rw [ih _ (by omega), next, bit]
      have outside : (memory a).getLsbD i = false := BitVec.getLsbD_of_ge _ _ (by omega)
      have bound : i - 8 < 8 * n ↔ i < 8 * (n + 1) := by omega
      simp [outside, first, small, bound]

theorem load_congr (same : ∀ x, Within a width.bytes x → memory' x = memory x) :
    memory'.load a width = memory.load a width := by
  apply BitVec.eq_of_getLsbD_eq
  intro i small
  rw [load, load, getLsbD_number _ _ small, getLsbD_number _ _ small]
  by_cases inside : i < 8 * width.bytes
  · rw [same _ (within_add a (by omega) (Width.bytes_le width))]
  · simp [inside]

theorem load_store_apart (apart : Apart a width.bytes b width'.bytes) :
    (memory.store a w width).load b width' = memory.load b width' := by
  refine load_congr fun x inB => ?_
  exact if_neg (apart.symm x inB)

theorem getLsbD_cut {i : Nat} (small : i < 64) :
    (width.cut w).getLsbD i = (decide (i < 8 * width.bytes) && w.getLsbD i) := by
  cases width with
  | byte =>
    have mask : (0xff : Word).getLsbD i = decide (i < 8) := by
      have bits : Nat.testBit 255 i = decide (i < 8) := Nat.testBit_two_pow_sub_one 8 i
      rw [BitVec.ofNat_eq_ofNat, BitVec.getLsbD_ofNat, bits]
      simp [small]
    change (w &&& 0xff).getLsbD i = _
    rw [BitVec.getLsbD_and, mask, Bool.and_comm]
    rfl
  | word =>
    have inside : i < 8 * Width.word.bytes := small
    simp [Width.cut, inside]

theorem load_store_same : (memory.store a w width).load a width = width.cut w := by
  apply BitVec.eq_of_getLsbD_eq
  intro i small
  rw [load, getLsbD_number _ _ small, store]
  have offset : a + BitVec.ofNat 64 (i / 8) - a = BitVec.ofNat 64 (i / 8) := by
    rw [BitVec.add_comm, BitVec.add_sub_cancel]
  have distance : (BitVec.ofNat 64 (i / 8)).toNat = i / 8 := by
    rw [BitVec.toNat_ofNat]
    omega
  rw [offset, distance]
  have bit : 8 * (i / 8) + i % 8 = i := by omega
  by_cases inside : i < 8 * width.bytes
  · rw [if_pos (by omega), BitVec.getLsbD_extractLsb', bit, getLsbD_cut small]
    have low : i % 8 < 8 := by omega
    simp [low]
  · simp [getLsbD_cut small, inside]

end Memory

end MiniC.Assembly
