import MiniC.Proofs.Storage.Store

namespace MiniC.Storage

/-- The names of a function have places, globals in memory and others not, and share none of them. -/
structure Housed (l : Layout) (sizes : Name → Option Int64) (names : List Name) : Prop where
  inMemory : ∀ {x size}, x ∈ names → sizes x = some size → l.get? x = some (.memory x size)
  elsewhere : ∀ {x}, x ∈ names → sizes x = none →
    (∃ r ∈ Register.locals, l.get? x = some (.register r)) ∨ ∃ offset, l.get? x = some (.stack offset slotSize)
  registers : ∀ {x y r}, x ∈ names → y ∈ names →
    l.get? x = some (.register r) → l.get? y = some (.register r) → x = y
  offsets : ∀ {x y offset}, x ∈ names → y ∈ names →
    l.get? x = some (.stack offset slotSize) → l.get? y = some (.stack offset slotSize) → x = y

/-- The values of names are what their places hold. -/
structure Agrees (l : Layout) (sizes : Name → Option Int64) (names : List Name) (s : Named) (t : Store) :
    Prop where
  cells : t.cells = s.cells
  values : ∀ x ∈ names, (l.get? x).bind t.get = some (s.get sizes x)

/-- The values that the places of names hold. -/
def Store.named (l : Layout) (t : Store) : Named :=
  ⟨fun x => ((l.get? x).bind t.get).getD 0, t.cells⟩

variable {l : Layout} {sizes : Name → Option Int64} {names : List Name} {s : Named} {t t' : Store} {x : Name}

theorem Housed.cases (housed : Housed l sizes names) (named : x ∈ names) :
    (∃ size, sizes x = some size ∧ l.get? x = some (.memory x size)) ∨
      sizes x = none ∧ ((∃ r ∈ Register.locals, l.get? x = some (.register r)) ∨
        ∃ offset, l.get? x = some (.stack offset slotSize)) := by
  cases known : sizes x with
  | some size => exact .inl ⟨size, rfl, housed.inMemory named known⟩
  | none => exact .inr ⟨rfl, housed.elsewhere named known⟩

namespace Agrees

theorem named (housed : Housed l sizes names) (t : Store) : Agrees l sizes names (t.named l) t where
  cells := rfl
  values x member := by
    rcases housed.cases member with ⟨size, known, place⟩ | ⟨local_, ⟨r, _, place⟩ | ⟨offset, place⟩⟩
    · simp [place, Store.get, Named.get, Store.named, known]
    · simp [place, Store.get, Named.get, Store.named, local_]
    · simp [place, Store.get, Named.get, Store.named, local_]

theorem keep (housed : Housed l sizes names) (agrees : Agrees l sizes names s t) (keeps : t.Keeps t') :
    Agrees l sizes names { s with cells := t'.cells } t' where
  cells := rfl
  values x member := by
    have value := agrees.values x member
    rcases housed.cases member with ⟨size, known, place⟩ | ⟨local_, ⟨r, saved, place⟩ | ⟨offset, place⟩⟩
    · simp [place, Store.get, Named.get, known]
    · simp only [place, Option.bind_some, Store.get, Named.get, local_] at value ⊢
      rw [keeps.2 r saved, value]
      simp
    · simp only [place, Option.bind_some, Store.get, Named.get, local_] at value ⊢
      rw [keeps.1, value]
      simp

theorem scratch (housed : Housed l sizes names) (agrees : Agrees l sizes names s t) {r : Register} (w : Word)
    (unused : r ∉ Register.locals) :
    Agrees l sizes names s { t with regs := Function.update t.regs r w } := by
  have keeps : t.Keeps { t with regs := Function.update t.regs r w } := by
    refine ⟨rfl, fun r' member => ?_⟩
    have other : r' ≠ r := fun same => unused (same ▸ member)
    simp [other]
  have same := agrees.keep housed keeps
  rwa [show ({ s with cells := t.cells } : Named) = s by rw [agrees.cells]] at same

theorem put (housed : Housed l sizes names) (agrees : Agrees l sizes names s t) (named : x ∈ names) (w : Word) :
    ∃ place t', l.get? x = some place ∧ t.put w place = some t' ∧
      Agrees l sizes names (s.put sizes x w) t' := by
  rcases housed.cases named with ⟨size, known, place⟩ | ⟨local_, ⟨r, _, place⟩ | ⟨offset, place⟩⟩
  · refine ⟨_, _, place, rfl, by simp [Named.put, known, agrees.cells], fun y member => ?_⟩
    have value := agrees.values y member
    rcases housed.cases member with ⟨size', known', place'⟩ | ⟨local', ⟨r', _, place'⟩ | ⟨offset', place'⟩⟩
    · simp [place', Store.get, Named.get, Named.put, known, known', agrees.cells]
    · simp_all [Store.get, Named.get, Named.put]
    · simp_all [Store.get, Named.get, Named.put]
  · refine ⟨_, _, place, rfl, by simp [Named.put, local_, agrees.cells], fun y member => ?_⟩
    have value := agrees.values y member
    by_cases same : y = x
    · subst same
      simp [place, Store.get, Named.get, Named.put, local_]
    · rcases housed.cases member with ⟨size', known', place'⟩ | ⟨local', ⟨r', _, place'⟩ | ⟨offset', place'⟩⟩
      · simp_all [Store.get, Named.get, Named.put]
      · have other : r' ≠ r := fun equal => same (housed.registers member named (equal ▸ place') place)
        simp_all [Store.get, Named.get, Named.put]
      · simp_all [Store.get, Named.get, Named.put]
  · refine ⟨_, _, place, rfl, by simp [Named.put, local_, agrees.cells], fun y member => ?_⟩
    have value := agrees.values y member
    by_cases same : y = x
    · subst same
      simp [place, Store.get, Named.get, Named.put, local_]
    · rcases housed.cases member with ⟨size', known', place'⟩ | ⟨local', ⟨r', _, place'⟩ | ⟨offset', place'⟩⟩
      · simp_all [Store.get, Named.get, Named.put]
      · simp_all [Store.get, Named.get, Named.put]
      · have other : offset' ≠ offset := fun equal => same (housed.offsets member named (equal ▸ place') place)
        simp_all [Store.get, Named.get, Named.put]

end Agrees

end MiniC.Storage
