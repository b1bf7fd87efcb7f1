import MiniC.Machine.Register

/-!
Sets of registers as words: a bit for each of the numbers below 64. Larger numbers have no bit, so
they are in no set; a negative number cannot be asked about at all.
-/

namespace MiniC

structure RegisterSet where
  bits : UInt64
  deriving DecidableEq, Repr

namespace RegisterSet

def negativeMessage : Bytes := "runtime error: negative shift amount"

def empty : RegisterSet := ⟨0⟩

/-- The word that holds the bit of a register alone; none for a negative register. -/
def mask? (r : Register) : Option UInt64 :=
  if r.number < 0 then none
  else if r.number < 64 then some (1 <<< r.number.toNat.toUInt64)
  else some 0

def insert? (s : RegisterSet) (r : Register) : Option RegisterSet :=
  (mask? r).map fun mask => ⟨s.bits ||| mask⟩

def erase? (s : RegisterSet) (r : Register) : Option RegisterSet :=
  (mask? r).map fun mask => ⟨s.bits &&& ~~~mask⟩

def contains? (s : RegisterSet) (r : Register) : Option Bool :=
  (mask? r).map fun mask => s.bits &&& mask != 0

def ofList? (rs : List Register) : Option RegisterSet :=
  rs.foldlM insert? empty

def size (s : RegisterSet) : Nat :=
  s.bits.toBitVec.cpop.toNat

theorem clearLowest_lt {bits : UInt64} (nonzero : bits ≠ 0) : (bits &&& (bits - 1)).toNat < bits.toNat := by
  have positive : 0 < bits.toNat :=
    Nat.pos_of_ne_zero fun zero => nonzero (UInt64.toNat_inj.1 zero)
  have below : (bits - 1).toNat = bits.toNat - 1 :=
    UInt64.toNat_sub_of_le bits 1 (UInt64.le_iff_toNat_le.2 positive)
  have bound : (bits &&& (bits - 1)).toNat ≤ (bits - 1).toNat := by
    rw [UInt64.toNat_and]
    exact Nat.and_le_right
  omega

section

variable {σ : Type} (visitor : Register → σ → ForInStep σ)

/-- Hands the bits of a word to a visitor that keeps a state, lowest first, until it is done. -/
def visitBits (bits : UInt64) (state : σ) : σ :=
  if _zero : bits = 0 then state
  else
    match visitor ⟨bits.toBitVec.ctz.toNat⟩ state with
    | .done state => state
    | .yield state => visitBits (bits &&& (bits - 1)) state
termination_by bits.toNat
decreasing_by exact clearLowest_lt _zero

/-- Hands the members to a visitor, lowest first, until it is done. -/
def visit (s : RegisterSet) (state : σ) : σ :=
  visitBits visitor s.bits state

end

def toList (s : RegisterSet) : List Register :=
  s.visit (fun r seen => .yield (seen ++ [r])) []

end RegisterSet

end MiniC
