import MiniC.Machine.RegisterSet

namespace MiniC.RegisterSet

variable {r : Register}

def holds (s : RegisterSet) (n : Nat) : Bool :=
  s.bits.toBitVec.getLsbD n

def members (s : RegisterSet) : List Register :=
  ((List.range 64).filter s.holds).map fun (n : Nat) => ⟨n⟩

theorem mem_members {s : RegisterSet} : r ∈ s.members ↔ ∃ n < 64, s.holds n = true ∧ r = ⟨n⟩ := by
  simp only [members, List.mem_map, List.mem_filter, List.mem_range, and_assoc, eq_comm]

theorem pairwise_members (s : RegisterSet) : s.members.Pairwise (·.number < ·.number) := by
  rw [members, List.pairwise_map]
  exact (List.pairwise_lt_range.filter _).imp Int.ofNat_lt.2

theorem size_eq_length (s : RegisterSet) : s.size = s.members.length := by
  have counted : ∀ k, s.bits.toBitVec.cpopNatRec k 0 = ((List.range k).filter s.holds).length := by
    intro k
    induction k with
    | zero => rfl
    | succ k ih =>
      rw [BitVec.cpopNatRec_succ, BitVec.cpopNatRec_add, ih, List.range_succ, List.filter_append, List.length_append]
      cases is : s.bits.toBitVec.getLsbD k <;> simp [holds, is]
  rw [members, List.length_map, size, BitVec.toNat_cpop, counted]

theorem getLsbD_clearLowest {x : BitVec 64} (nonzero : x ≠ 0) (i : Nat) :
    (x &&& (x - 1)).getLsbD i = (x.getLsbD i && decide (i ≠ x.ctz.toNat)) := by
  have low := BitVec.getLsbD_true_ctz_of_ne_zero nonzero
  have below : ∀ i < x.ctz.toNat, x.getLsbD i = false := fun i less => BitVec.getLsbD_false_of_lt_ctz less
  generalize x.ctz.toNat = t at *
  -- The word is `2 ^ (t + 1) * q + 2 ^ t`, and only the second part changes.
  have remainder : x.toNat % 2 ^ (t + 1) = 2 ^ t := by
    apply Nat.eq_of_testBit_eq
    intro j
    rw [Nat.testBit_mod_two_pow, Nat.testBit_two_pow]
    rcases Nat.lt_trichotomy j t with less | rfl | more
    · rw [show x.toNat.testBit j = false from below j less]
      simp
      omega
    · simp [show x.toNat.testBit j = true from low]
    · simp [Nat.not_lt.2 more, Nat.ne_of_lt more]
  have whole := Nat.div_add_mod x.toNat (2 ^ (t + 1))
  rw [remainder] at whole
  generalize x.toNat / 2 ^ (t + 1) = q at whole
  have power : 2 ^ t < 2 ^ (t + 1) := Nat.pow_lt_pow_right (by decide) (Nat.lt_succ_self t)
  have positive := Nat.two_pow_pos t
  have before : (x - 1).toNat = 2 ^ (t + 1) * q + (2 ^ t - 1) := by
    have bound := x.isLt
    rw [BitVec.toNat_sub]
    simp
    omega
  rw [BitVec.getLsbD_and, BitVec.getLsbD, BitVec.getLsbD, before, ← whole, Nat.testBit_two_pow_mul_add _ power,
    Nat.testBit_two_pow_mul_add _ (by omega), Nat.testBit_two_pow, Nat.testBit_two_pow_sub_one]
  split
  · rw [Bool.eq_iff_iff]
    simp
    omega
  · rw [Bool.and_self, decide_eq_true (by omega), Bool.and_true]

theorem filter_range_eq_cons {p q : Nat → Bool} {t n : Nat} (inside : t < n) (low : p t = true)
    (below : ∀ i < t, p i = false) (others : ∀ i, q i = (p i && decide (i ≠ t))) :
    (List.range n).filter p = t :: (List.range n).filter q := by
  induction n with
  | zero => cases inside
  | succ n ih =>
    rw [List.range_succ, List.filter_append, List.filter_append]
    rcases Nat.lt_succ_iff_lt_or_eq.1 inside with earlier | rfl
    · have same : q n = p n := by rw [others, decide_eq_true (Nat.ne_of_gt earlier), Bool.and_true]
      rw [ih earlier, List.cons_append, List.filter_congr (p := p) (q := q) (by simp [same])]
    · have none : (List.range t).filter p = [] ∧ (List.range t).filter q = [] := by
        constructor <;> refine List.filter_eq_nil_iff.2 fun i member => ?_ <;>
          simp [others, below i (List.mem_range.1 member)]
      simp [none, low, others]

theorem members_eq_cons {bits : UInt64} (nonzero : bits ≠ 0) :
    members ⟨bits⟩ = ⟨bits.toBitVec.ctz.toNat⟩ :: members ⟨bits &&& (bits - 1)⟩ := by
  have nonzero' : bits.toBitVec ≠ 0 := fun zero => nonzero (UInt64.toBitVec_inj.1 zero)
  have low : holds ⟨bits⟩ bits.toBitVec.ctz.toNat = true := BitVec.getLsbD_true_ctz_of_ne_zero nonzero'
  have below : ∀ i < bits.toBitVec.ctz.toNat, holds ⟨bits⟩ i = false :=
    fun i less => BitVec.getLsbD_false_of_lt_ctz less
  have others : ∀ i, holds ⟨bits &&& (bits - 1)⟩ i = _ := getLsbD_clearLowest nonzero'
  rw [members, filter_range_eq_cons (BitVec.lt_of_getLsbD low) low below others]
  rfl

theorem visitBits_eq_forIn {σ : Type} (visitor : Register → σ → ForInStep σ) (bits : UInt64) (state : σ) :
    visitBits visitor bits state = Id.run (forIn (members ⟨bits⟩) state fun r state => pure (visitor r state)) := by
  fun_induction visitBits visitor bits state with
  | case1 => rfl
  | case2 bits state nonzero last found =>
    rw [members_eq_cons nonzero, List.forIn_cons, found]
    rfl
  | case3 bits state nonzero next found ih =>
    rw [members_eq_cons nonzero, List.forIn_cons, found, ih]
    rfl

theorem toList_eq_members (s : RegisterSet) : s.toList = s.members := by
  have appended : ∀ rs seen : List Register, rs.foldl (fun seen r => seen ++ [r]) seen = seen ++ rs := by
    intro rs
    induction rs with
    | nil => exact fun seen => (List.append_nil seen).symm
    | cons r rs ih => exact fun seen => by rw [List.foldl_cons, ih, ← List.append_cons]
  rw [toList, visit, visitBits_eq_forIn, List.forIn_pure_yield_eq_foldl]
  exact appended _ []

/-- A visitor that collects registers and is done with the one numbered `k`, counted from one. -/
def collect (k : Nat) (r : Register) (seen : List Register) : ForInStep (List Register) :=
  if seen.length + 1 < k then .yield (seen ++ [r]) else .done (seen ++ [r])

theorem forIn_collect {k : Nat} {rs seen : List Register} (early : seen.length < k) :
    Id.run (forIn rs seen fun r seen => pure (collect k r seen)) = (seen ++ rs).take k := by
  induction rs generalizing seen with
  | nil =>
    rw [List.append_nil, List.take_of_length_le (Nat.le_of_lt early)]
    rfl
  | cons r rs ih =>
    rw [List.forIn_cons, pure_bind, collect, List.append_cons seen r rs]
    by_cases later : seen.length + 1 < k
    · rw [if_pos later]
      exact ih (by rwa [List.length_append, List.length_singleton])
    · have last : k = (seen ++ [r]).length := by
        rw [List.length_append, List.length_singleton]
        omega
      rw [if_neg later, last, List.take_left]
      rfl

theorem mask?_eq_some (valid : 0 ≤ r.number) :
    ∃ mask, mask? r = some mask ∧ ∀ n < 64, mask.toBitVec.getLsbD n = decide (r = ⟨n⟩) := by
  obtain ⟨number⟩ := r
  obtain ⟨k, rfl⟩ := Int.eq_ofNat_of_zero_le valid
  simp only [mask?, if_neg (Int.not_lt.2 valid), Register.mk.injEq]
  by_cases small : (k : Int) < 64
  · refine ⟨_, if_pos small, fun n _ => ?_⟩
    have shift : (k.toUInt64.toBitVec % 64).toNat = k := by
      rw [BitVec.toNat_umod]
      simp
      omega
    rw [UInt64.toBitVec_shiftLeft, Int.toNat_natCast, BitVec.shiftLeft_eq', shift]
    change (1#64 <<< k).getLsbD n = _
    rw [← BitVec.twoPow_eq, BitVec.getLsbD_twoPow, ← Bool.decide_and, decide_eq_decide]
    omega
  · refine ⟨0, if_neg small, fun n _ => ?_⟩
    rw [UInt64.toBitVec_zero, BitVec.getLsbD_zero, eq_comm, decide_eq_false_iff_not]
    omega

theorem insert?_eq_some (s : RegisterSet) (valid : 0 ≤ r.number) :
    ∃ s', s.insert? r = some s' ∧ ∀ n < 64, s'.holds n = (decide (r = ⟨n⟩) || s.holds n) := by
  obtain ⟨mask, is, bit⟩ := mask?_eq_some valid
  refine ⟨_, by rw [insert?, is, Option.map_some], fun n small => ?_⟩
  rw [holds, UInt64.toBitVec_or, BitVec.getLsbD_or, bit n small, Bool.or_comm, holds]

theorem erase?_eq_some (s : RegisterSet) (valid : 0 ≤ r.number) :
    ∃ s', s.erase? r = some s' ∧ ∀ n < 64, s'.holds n = (!decide (r = ⟨n⟩) && s.holds n) := by
  obtain ⟨mask, is, bit⟩ := mask?_eq_some valid
  refine ⟨_, by rw [erase?, is, Option.map_some], fun n small => ?_⟩
  rw [holds, UInt64.toBitVec_and, UInt64.toBitVec_not, BitVec.getLsbD_and, BitVec.getLsbD_not, bit n small,
    decide_eq_true small, Bool.true_and, Bool.and_comm, holds]

theorem contains?_eq_some (s : RegisterSet) (valid : 0 ≤ r.number) :
    s.contains? r = some (decide (r ∈ s.members)) := by
  obtain ⟨mask, is, bit⟩ := mask?_eq_some valid
  have common : ∀ n < 64, (s.bits &&& mask).toBitVec.getLsbD n = (s.holds n && decide (r = ⟨n⟩)) := by
    intro n small
    rw [UInt64.toBitVec_and, BitVec.getLsbD_and, bit n small, holds]
  have zero : s.bits &&& mask = 0 ↔ ∀ n < 64, s.holds n = true → r ≠ ⟨n⟩ := by
    constructor
    · intro none n small held same
      have here := common n small
      rw [none, held, decide_eq_true same] at here
      simp at here
    · intro apart
      refine UInt64.toBitVec_inj.1 (BitVec.eq_of_getLsbD_eq fun n small => ?_)
      rw [common n small]
      simpa using apart n small
  rw [contains?, is, Option.map_some, Option.some.injEq, Bool.eq_iff_iff, bne_iff_ne, decide_eq_true_iff, mem_members,
    ne_eq, zero]
  simp

theorem foldlM_insert? {rs : List Register} (valid : ∀ r ∈ rs, 0 ≤ r.number) (s : RegisterSet) :
    ∃ s', rs.foldlM insert? s = some s' ∧ ∀ n < 64, s'.holds n = (decide (⟨n⟩ ∈ rs) || s.holds n) := by
  induction rs generalizing s with
  | nil => exact ⟨s, rfl, fun n _ => by simp⟩
  | cons r rs ih =>
    obtain ⟨s₁, first, bit₁⟩ := s.insert?_eq_some (valid r List.mem_cons_self)
    obtain ⟨s₂, others, bit₂⟩ := ih (fun r member => valid r (List.mem_cons_of_mem _ member)) s₁
    refine ⟨s₂, by rw [List.foldlM_cons, first]; exact others, fun n small => ?_⟩
    rw [bit₂ n small, bit₁ n small, ← Bool.or_assoc, Bool.or_comm (decide _), ← Bool.decide_or]
    simp [eq_comm]

inductive Op
  | make (rs : List Register)
  | insert (r : Register)
  | erase (r : Register)

namespace Op

/-- The registers that an operation is given. -/
def registers : Op → List Register
  | .make rs => rs
  | .insert r | .erase r => [r]

def run? (s : RegisterSet) : Op → Option RegisterSet
  | .make rs => ofList? rs
  | .insert r => s.insert? r
  | .erase r => s.erase? r

/-- Whether a register is a member after an operation that mentions it. A set that is made anew starts empty, so it
mentions every register: those it is given are members, and no others. -/
def says? (r : Register) : Op → Option Bool
  | .make rs => some (decide (r ∈ rs))
  | .insert x => if x = r then some true else none
  | .erase x => if x = r then some false else none

theorem run?_eq_some (s : RegisterSet) {op : Op} (valid : ∀ r ∈ op.registers, 0 ≤ r.number) :
    ∃ s', op.run? s = some s' ∧ ∀ n < 64, s'.holds n = (op.says? ⟨n⟩).getD (s.holds n) := by
  cases op with
  | make rs =>
    obtain ⟨s', made, bit⟩ := @foldlM_insert? rs valid empty
    refine ⟨s', made, fun n small => ?_⟩
    rw [bit n small]
    simp [holds, empty, says?]
  | insert r =>
    obtain ⟨s', made, bit⟩ := s.insert?_eq_some (valid r List.mem_cons_self)
    refine ⟨s', made, fun n small => ?_⟩
    rw [bit n small, says?]
    split <;> simp_all
  | erase r =>
    obtain ⟨s', made, bit⟩ := s.erase?_eq_some (valid r List.mem_cons_self)
    refine ⟨s', made, fun n small => ?_⟩
    rw [bit n small, says?]
    split <;> simp_all

end Op

/-- What the last operation that mentions a register says of it. -/
def lastSaid? (ops : List Op) (r : Register) : Option Bool :=
  ops.reverse.findSome? (Op.says? r)

theorem foldlM_run? {ops : List Op} (valid : ∀ op ∈ ops, ∀ r ∈ op.registers, 0 ≤ r.number) (s : RegisterSet) :
    ∃ s', ops.foldlM Op.run? s = some s' ∧ ∀ n < 64, s'.holds n = (lastSaid? ops ⟨n⟩).getD (s.holds n) := by
  induction ops generalizing s with
  | nil => exact ⟨s, rfl, fun _ _ => rfl⟩
  | cons op ops ih =>
    obtain ⟨s₁, first, bit₁⟩ := Op.run?_eq_some s (valid op List.mem_cons_self)
    obtain ⟨s₂, others, bit₂⟩ := ih (fun op member => valid op (List.mem_cons_of_mem _ member)) s₁
    refine ⟨s₂, by rw [List.foldlM_cons, first]; exact others, fun n small => ?_⟩
    rw [bit₂ n small, bit₁ n small, lastSaid?, lastSaid?, List.reverse_cons, List.findSome?_append]
    simp

/-- A set that has exactly the registers of a kind, however it is looked at. -/
structure Represents (s : RegisterSet) (kind : Register → Prop) [DecidablePred kind] : Prop where
  contains : ∀ r, 0 ≤ r.number → s.contains? r = some (decide (kind r))
  listed : ∀ r, r ∈ s.toList ↔ 0 ≤ r.number ∧ kind r
  ascending : s.toList.Pairwise (·.number < ·.number)
  counted : s.size = s.toList.length
  visited : ∀ {σ : Type} (visitor : Register → σ → ForInStep σ) (state : σ),
    s.visit visitor state = Id.run (forIn s.toList state fun r state => pure (visitor r state))
  stopped : ∀ k, 0 < k → s.visit (collect k) [] = s.toList.take k

/-- After operations on registers that are not negative, a set has exactly the registers below 64 that the last operation
to mention them has added. -/
theorem exists_represents (ops : List Op) (valid : ∀ op ∈ ops, ∀ r ∈ op.registers, 0 ≤ r.number) :
    ∃ s, ops.foldlM Op.run? empty = some s ∧
      s.Represents fun r => r.number < 64 ∧ lastSaid? ops r = some true := by
  obtain ⟨s, run, bit⟩ := foldlM_run? valid empty
  have member : ∀ r, r ∈ s.members ↔ 0 ≤ r.number ∧ r.number < 64 ∧ lastSaid? ops r = some true := by
    intro r
    rw [mem_members]
    constructor
    · rintro ⟨n, small, held, rfl⟩
      rw [bit n small] at held
      refine ⟨Int.natCast_nonneg n, Int.ofNat_lt.2 small, ?_⟩
      cases said : lastSaid? ops ⟨n⟩ with
      | none => simp [said, holds, empty] at held
      | some b => simp_all
    · rintro ⟨low, small, said⟩
      obtain ⟨n, is⟩ := Int.eq_ofNat_of_zero_le low
      obtain rfl : r = ⟨n⟩ := by rw [← is]
      exact ⟨n, Int.ofNat_lt.1 small, by rw [bit n (Int.ofNat_lt.1 small), said]; rfl, rfl⟩
  have list := s.toList_eq_members
  refine ⟨s, run, ?_, ?_, ?_, ?_, ?_, ?_⟩
  · intro r low
    rw [s.contains?_eq_some low, Option.some.injEq, decide_eq_decide, member]
    exact and_iff_right low
  · rw [list]
    exact member
  · rw [list]
    exact s.pairwise_members
  · rw [list, s.size_eq_length]
  · intro σ visitor state
    rw [list]
    exact visitBits_eq_forIn visitor s.bits state
  · intro k positive
    rw [list, visit, visitBits_eq_forIn, forIn_collect positive, List.nil_append]

def mixedOps : List Op :=
  [.make [⟨63⟩, ⟨1⟩, ⟨64⟩], .erase ⟨1⟩, .insert ⟨9⟩, .insert ⟨1⟩, .erase ⟨9⟩, .insert ⟨70⟩]

theorem exists_represents_mixed :
    (∀ op ∈ mixedOps, ∀ r ∈ op.registers, 0 ≤ r.number) ∧
      ([⟨1⟩, ⟨5⟩, ⟨9⟩, ⟨63⟩, ⟨64⟩] : List Register).map (lastSaid? mixedOps) =
        [some true, some false, some false, some true, some true] ∧
      ∃ s, mixedOps.foldlM Op.run? empty = some s ∧
        s.Represents fun r => r.number < 64 ∧ lastSaid? mixedOps r = some true := by
  have valid : ∀ op ∈ mixedOps, ∀ r ∈ op.registers, 0 ≤ r.number := by decide
  exact ⟨valid, by decide, exists_represents mixedOps valid⟩

end MiniC.RegisterSet
