import MiniC.Name
import MiniC.Proofs.Decimal

/-!
Generated names tell their kind and their count apart. A namer is seen from where it started: the
names it has made since are numbered from one on, and as long as there are fewer than `2 ^ 64` of
them no two are the same.
-/

namespace MiniC

variable {i : Nat} {kind : Bytes}

theorem ofNat_inj_of_lt {j : Nat} (small : i < 2 ^ 64) (small' : j < 2 ^ 64)
    (same : Int64.ofNat i = Int64.ofNat j) : i = j := by
  have words : BitVec.ofNat 64 i = BitVec.ofNat 64 j := by
    have bits := congrArg Int64.toBitVec same
    simpa using bits
  have numbers := congrArg BitVec.toNat words
  simp only [BitVec.toNat_ofNat] at numbers
  omega

namespace Name

@[simp] theorem isGenerated_generated (kind : Bytes) (count : Int64) :
    isGenerated (generated kind count) = true := by
  rw [isGenerated, List.isPrefixOf_iff_prefix, generated, List.append_assoc]
  exact List.prefix_append ..

theorem generated_ne_nil (kind : Bytes) (count : Int64) : generated kind count ≠ [] := by
  intro empty
  have made := isGenerated_generated kind count
  rw [empty] at made
  exact absurd made (by decide)

theorem generated_injective {c d : Int64} (same : generated kind c = generated kind d) : c = d := by
  have spelled : Bytes.ofInt c.toInt = Bytes.ofInt d.toInt := List.append_cancel_left same
  exact Int64.toInt_inj.1 (Bytes.ofInt_injective spelled)

theorem ne_generated {name : Name} (user : isGenerated name = false) (kind : Bytes) (count : Int64) :
    name ≠ generated kind count := by
  rintro rfl
  simp at user

def kinds : List Bytes := [temporary, label, scratch, string]

def kind? : Name → Option Bytes
  | 0x5f :: 0x5f :: 0x74 :: _ => some temporary
  | 0x5f :: 0x5f :: 0x4c :: _ => some label
  | 0x5f :: 0x5f :: 0x73 :: 0x74 :: _ => some string
  | 0x5f :: 0x5f :: 0x73 :: _ => some scratch
  | _ => none

theorem kind?_generated (isKind : kind ∈ kinds) (count : Int64) : kind? (generated kind count) = some kind := by
  have cases : kind = temporary ∨ kind = label ∨ kind = scratch ∨ kind = string := by simpa [kinds] using isKind
  rcases cases with rfl | rfl | rfl | rfl
  · rfl
  · rfl
  · -- the kind of strings goes on with a letter, and a count does not start with one
    obtain ⟨b, digits, spelled, first⟩ := Bytes.ofInt_head count.toInt
    have other : b ≠ 0x74 := by
      rintro rfl
      rcases first with digit | minus
      · exact absurd digit (by decide)
      · exact absurd minus (by decide)
    have whole : generated scratch count = 0x5f :: 0x5f :: 0x73 :: b :: digits := by
      rw [generated, spelled]
      rfl
    rw [whole]
    unfold kind?
    split <;> simp_all
  · rfl

theorem kind_injective {kind' : Bytes} (isKind : kind ∈ kinds) (isKind' : kind' ∈ kinds) {c d : Int64}
    (same : generated kind c = generated kind' d) : kind = kind' := by
  have told := kind?_generated isKind c
  rw [same, kind?_generated isKind'] at told
  exact (Option.some.inj told).symm

end Name

namespace Namer

/-- The namer that has made some more names. -/
def after (start : Namer) (made : Nat) : Namer :=
  ⟨start.count + Int64.ofNat made⟩

/-- The name of a kind that is made as number `i` from the start on. -/
def made (start : Namer) (kind : Bytes) (i : Nat) : Name :=
  Name.generated kind (start.after i).count

@[simp] theorem after_zero (start : Namer) : start.after 0 = start := by
  simp [after]

theorem after_succ (start : Namer) (i : Nat) :
    (start.after i).count + 1 = (start.after (i + 1)).count := by
  simp only [after, Int64.ofNat_add]
  exact Int64.add_assoc _ _ _

theorem fresh_after (start : Namer) (i : Nat) (kind : Bytes) :
    (start.after i).fresh kind = (start.made kind (i + 1), start.after (i + 1)) := by
  simp only [fresh, after_succ, made]

theorem after_injective (start : Namer) {j : Nat} (small : i < 2 ^ 64) (small' : j < 2 ^ 64)
    (same : start.after i = start.after j) : i = j := by
  have counts : start.count + Int64.ofNat i = start.count + Int64.ofNat j :=
    congrArg Namer.count same
  have steps : Int64.ofNat i = Int64.ofNat j := by
    simpa using counts
  exact ofNat_inj_of_lt small small' steps

theorem made_injective {start : Namer} {j : Nat} (small : i < 2 ^ 64)
    (small' : j < 2 ^ 64) (same : start.made kind i = start.made kind j) : i = j := by
  have counts := Name.generated_injective same
  apply after_injective start small small'
  cases h : start.after i
  cases h' : start.after j
  simp_all

theorem toInt_after {start : Namer} (room : start.count.toInt + i < 2 ^ 63) :
    (start.after i).count.toInt = start.count.toInt + i := by
  have least := Int64.le_toInt start.count
  simp only [after, Int64.toInt_add, Int64.toInt_ofNat', Int.add_bmod_bmod, Int64.size]
  exact Int.bmod_eq_of_le (by omega) (by omega)

theorem ne_made {start : Namer} {name : Name} (room : start.count.toInt + i < 2 ^ 63)
    (old : ∀ n, name = Name.generated kind n → n ≤ start.count) (new : 0 < i) : name ≠ start.made kind i := by
  intro same
  have le := Int64.le_iff_toInt_le.1 (old _ same)
  rw [toInt_after room] at le
  omega

@[simp] theorem isGenerated_made (start : Namer) (kind : Bytes) (i : Nat) :
    Name.isGenerated (start.made kind i) = true :=
  Name.isGenerated_generated _ _

end Namer

end MiniC
