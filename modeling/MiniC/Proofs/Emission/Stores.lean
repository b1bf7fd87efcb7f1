import MiniC.Proofs.Emission.Functions

/-!
What the instructions of a store do, whatever layout a function has: the destination holds the value, and nothing else
has changed but the temporary. The one exception is a constant that is stored in memory: its instructions have a
single register for the constant and for the address, and store the address.
-/

namespace MiniC.Assembly

open Code Storage

variable (symbols : Name → Word)

def Machine.content (m : Machine) : Location → Option Word
  | .nowhere => none
  | .register r => some (m.get r)
  | .stack offset _ => some (m.memory.load (m.get .sp + offset.toBitVec) .word)
  | .memory label size => some (m.memory.load (symbols label) (widthOf size))

def Machine.Covers (m : Machine) : Location → Word → Prop
  | .stack offset _, a => Memory.Within (m.get .sp + offset.toBitVec) Width.word.bytes a
  | .memory label size, a => Memory.Within (symbols label) (widthOf size).bytes a
  | _, _ => False

def keptAt : Location → Word → Word
  | .memory _ size, w => kept size w
  | _, w => w

/-- A word was put at a place, and nothing else has changed but the temporary. -/
structure Puts (place : Location) (w : Word) (m m' : Machine) : Prop where
  content : m'.content symbols place = some (keptAt place w)
  registers : ∀ r, r ≠ .temporary → place ≠ .register r → m'.get r = m.get r
  memory : ∀ a, ¬ m.Covers symbols place a → m'.memory a = m.memory a

variable {symbols} {m m' : Machine} {w : Word} {place : Location}

namespace Puts

theorem of_set {v : Word} (puts : Puts symbols place w (m.set .temporary v) m') : Puts symbols place w m m' where
  content := puts.content
  registers r other elsewhere := by
    rw [puts.registers r other elsewhere, Machine.get_set_other _ _ other]
  memory a outside := by
    rw [puts.memory a, Machine.memory_set]
    cases place with
    | stack offset size =>
      rwa [Machine.Covers, Machine.get_set_other _ _ (by decide)]
    | _ => exact outside

theorem register {d : Register} (nonzero : d ≠ .zero) : Puts symbols (.register d) w m (m.set d w) where
  content := by rw [Machine.content, Machine.get_set_same _ _ nonzero]; rfl
  registers r _ elsewhere := Machine.get_set_other _ _ fun same => elsewhere (same ▸ rfl)
  memory a _ := by rw [Machine.memory_set]

theorem stack (offset size : Int64) :
    Puts symbols (.stack offset size) w m
      { m with memory := m.memory.store (m.get .sp + offset.toBitVec) w .word } where
  content := congrArg some Memory.load_store_same
  registers _ _ _ := rfl
  memory _ outside := if_neg outside

theorem memoryAt (label : Name) (size : Int64) :
    Puts symbols (.memory label size) w m { m with memory := m.memory.store (symbols label) w (widthOf size) } where
  content := by
    rw [Machine.content, Memory.load_store_same, cut_widthOf]
    rfl
  registers _ _ _ := rfl
  memory _ outside := if_neg outside

end Puts

variable {src dst : Location} {code : List Instr}

theorem puts_of_move (emitted : move src dst = .ok code) (writable : dst ≠ .register .zero)
    (apart : ∀ label size, dst = .memory label size → src ≠ .register .temporary) (symbols : Name → Word) (m : Machine) :
    ∃ w, m.content symbols src = some w ∧ Puts symbols dst w m (afterAll symbols m code) := by
  have nonzero : ∀ {d}, dst = .register d → d ≠ .zero := by
    rintro d rfl rfl
    exact writable rfl
  unfold move at emitted
  split at emitted
  · cases emitted
    refine ⟨_, rfl, ?_⟩
    simpa [afterAll, Instr.after, Immediate.eval] using Puts.register (nonzero rfl)
  · split at emitted
    · cases emitted
      exact ⟨_, rfl, .stack _ _⟩
    · cases emitted
  · rename_i s label size
    cases emitted
    have other : s ≠ .temporary := fun same => apart label size rfl (congrArg _ same)
    refine ⟨_, rfl, ?_⟩
    have written : Puts symbols (.memory label size) (m.get s) (m.set .temporary (symbols label)) _ := .memoryAt label size
    simpa [afterAll, Instr.after, get_set_temporary, Machine.get_set_other _ _ other] using written.of_set
  · split at emitted
    · cases emitted
      exact ⟨_, rfl, .register (nonzero rfl)⟩
    · cases emitted
  · rename_i label size d
    cases emitted
    refine ⟨_, rfl, ?_⟩
    have loaded : Puts symbols (.register d) (m.memory.load (symbols label) (widthOf size))
        (m.set .temporary (symbols label)) _ := .register (nonzero rfl)
    simpa [afterAll, Instr.after, get_set_temporary] using loaded.of_set
  · cases emitted

/-- The word of a constant that stands in the statement itself. -/
def literal? : Value → Option Int64
  | .int n => some n
  | .char c => some (Int64.ofNat c.toNat)
  | _ => none

/-- The word that a value stands for; a symbol stands for what its place holds. -/
def denoted (scope : Scope) (symbols : Name → Word) (m : Machine) : Value → Option Word
  | .int n => some n.toBitVec
  | .char c => some (c.toBitVec.setWidth 64)
  | .str _ => none
  | .symbol x => (scope.places x).bind (m.content symbols)

theorem denoted_of_literal {scope : Scope} {value : Value} {n : Int64} (isLiteral : literal? value = some n) :
    denoted scope symbols m value = some n.toBitVec := by
  cases value with
  | int => cases isLiteral; rfl
  | char c =>
    cases isLiteral
    apply congrArg some
    apply BitVec.eq_of_toNat_eq
    simp
  | str | symbol => cases isLiteral

theorem store_cases {scope : Scope} {dest : Name} {value : Value} (emitted : store scope dest (some value) = .ok code) :
    ∃ dst, scope.resolve dest = .ok dst ∧
      ((∃ n rest, literal? value = some n ∧ move (.register .temporary) dst = .ok rest ∧ code = .li .temporary n :: rest) ∨
        ∃ x src, value = .symbol x ∧ scope.resolve x = .ok src ∧ move src dst = .ok code) := by
  unfold store at emitted
  obtain ⟨dst, resolved, emitted⟩ := bind_eq_ok.1 emitted
  refine ⟨dst, resolved, ?_⟩
  cases value with
  | int n | char c =>
    obtain ⟨rest, moved, done⟩ := bind_eq_ok.1 emitted
    cases done
    exact .inl ⟨_, rest, rfl, moved, rfl⟩
  | symbol x =>
    obtain ⟨src, found, moved⟩ := bind_eq_ok.1 emitted
    exact .inr ⟨x, src, rfl, found, moved⟩
  | str => cases emitted

/-- No name lives in the register that is always zero, in the temporary or in the stack pointer. -/
def Reserves (l : Layout) : Prop :=
  ∀ x r, l.get? x = some (.register r) → r ∉ [Register.zero, Register.t0, Register.sp]

theorem Reserves.of_resolve {scope : Scope} (reserves : Reserves scope.layout) {x : Name} {r : Register}
    (found : scope.resolve x = .ok (.register r)) : r ∉ [Register.zero, Register.t0, Register.sp] := by
  unfold Scope.resolve at found
  split at found
  · rename_i place at_
    cases found
    exact reserves x r at_
  · split at found <;> cases found

/-- The symbol whose address is needed to reach a place. -/
def address? : Location → Option Name
  | .memory label _ => some label
  | _ => none

theorem puts_of_literal {rest : List Instr} {n : Int64} (moved : move (.register .temporary) dst = .ok rest)
    (writable : dst ≠ .register .zero) (symbols : Name → Word) (m : Machine) :
    (address? dst = none → Puts symbols dst n.toBitVec m (afterAll symbols m (.li .temporary n :: rest))) ∧
      ∀ label, address? dst = some label → Puts symbols dst (symbols label) m (afterAll symbols m (.li .temporary n :: rest)) := by
  constructor
  · intro direct
    obtain ⟨w, held, puts⟩ := puts_of_move moved writable (by rintro label size rfl; cases direct) symbols
      (m.set .temporary n.toBitVec)
    rw [Machine.content, Machine.get_set_same _ _ (by decide)] at held
    cases held
    exact puts.of_set
  · intro label reached
    cases dst with
    | memory name size =>
      cases reached
      cases moved
      have written : Puts symbols (.memory label size) (symbols label)
        ((m.set .temporary n.toBitVec).set .temporary (symbols label)) _ := .memoryAt label size
      simpa [afterAll, Instr.after, get_set_temporary] using written.of_set.of_set
    | _ => cases reached

/-- The instructions of a store put the value at the place of its destination and change nothing else but the temporary,
unless the value is a constant and the place is in memory: then they put the address of the place there. -/
theorem puts_of_store {scope : Scope} {label dest : Name} {value : Value} {lines : List Line}
    (emitted : stmt scope ⟨label, .store dest (some value)⟩ = .ok lines) (reserves : Reserves scope.layout) :
    ∃ place code, scope.resolve dest = .ok place ∧ lines = labelLines label ++ code.map .instr ∧
      (∀ i ∈ code, i.isData = true) ∧ ∀ symbols m, ∃ w, denoted scope symbols m value = some w ∧
        (literal? value = none ∨ address? place = none → Puts symbols place w m (afterAll symbols m code)) ∧
        (∀ n name, literal? value = some n → address? place = some name →
          Puts symbols place (symbols name) m (afterAll symbols m code)) := by
  unfold stmt at emitted
  obtain ⟨code, inside, done⟩ := bind_eq_ok.1 emitted
  cases done
  have stored : store scope dest (some value) = .ok code := within_eq_ok.1 inside
  obtain ⟨place, resolved, cases⟩ := store_cases stored
  have writable : place ≠ .register .zero := by
    rintro rfl
    exact reserves.of_resolve resolved (by decide)
  refine ⟨place, code, resolved, rfl, isData_of_store stored, fun symbols m => ?_⟩
  rcases cases with ⟨n, rest, isLiteral, moved, rfl⟩ | ⟨x, src, rfl, found, moved⟩
  · obtain ⟨direct, reached⟩ := puts_of_literal moved writable symbols m
    refine ⟨_, denoted_of_literal isLiteral, ?_, fun _ name _ => reached name⟩
    rintro (other | simple)
    · rw [isLiteral] at other
      cases other
    · exact direct simple
  · obtain ⟨w, held, puts⟩ := puts_of_move moved writable
      (by rintro _ _ _ rfl; exact reserves.of_resolve found (by decide)) symbols m
    refine ⟨w, ?_, fun _ => puts, fun _ _ isLiteral => by cases isLiteral⟩
    rw [denoted, Scope.places, found]
    exact held

def spread : Scope :=
  ⟨[], [⟨"g", .int, none⟩], ⟨[("x", .register .s1), ("y", .stack 16 8), ("c", .memory "c" 1)], [], 24⟩, "__exit_f"⟩

theorem reserves_spread : Reserves spread.layout := by
  intro x r found
  have entry : (x, Location.register r) ∈ spread.layout.vars := by
    obtain ⟨before, after, split, _⟩ := List.lookup_eq_some_iff.1 found
    simp [split]
  obtain ⟨rfl, rfl⟩ : x = ("x" : Name) ∧ r = .s1 := by simpa [spread] using entry
  decide

theorem puts_of_store_spread :
    (∃ lines, stmt spread ⟨"begin", .store "c" (some (.symbol "x"))⟩ = .ok lines) ∧ Reserves spread.layout ∧
      ∃ code, ∀ symbols m, Puts symbols (.memory "c" 1) (m.get .s1) m (afterAll symbols m code) := by
  refine ⟨⟨_, rfl⟩, reserves_spread, ?_⟩
  obtain ⟨place, code, resolved, _, _, puts⟩ :=
    @puts_of_store spread "begin" "c" (.symbol "x") _ rfl reserves_spread
  cases resolved
  refine ⟨code, fun symbols m => ?_⟩
  obtain ⟨w, held, direct, _⟩ := puts symbols m
  cases held
  exact direct (.inl rfl)

/-- Five is stored at the address of `g`, but the address is there afterwards. -/
theorem stores_address :
    Reserves spread.layout ∧ ∃ code, stmt spread ⟨[], .store "g" (some (.int 5))⟩ = .ok (code.map .instr) ∧
      ∃ symbols m, (afterAll symbols m code).content symbols (.memory "g" 8) ≠ some 5 := by
  refine ⟨reserves_spread, _, rfl, fun _ => 4096, ⟨fun _ => 0, fun _ => 0⟩, ?_⟩
  rw [((puts_of_literal rfl (by decide) _ _).2 "g" rfl).content]
  decide

end MiniC.Assembly
