import MiniC.Proofs.Lowering.Writing

namespace MiniC.Code

def Action.IsLowered : Action → Prop
  | .move .. | .store _ (some (.symbol _)) => False
  | .jump target | .branch _ _ target => ∃ n, target = Name.generated Name.label n
  | _ => True

def Stmt.IsLowered (s : Stmt) : Prop :=
  (s.label = [] ∨ ∃ n, s.label = Name.generated Name.label n) ∧ s.action.IsLowered

def AllLowered (code : List Stmt) : Prop :=
  ∀ s ∈ code, s.IsLowered

theorem Action.IsWritten.isLowered {P : Name → Prop} {action : Action} (written : action.IsWritten P)
    (target : ∀ t, action.target? = some t → ∃ n, t = Name.generated Name.label n) : action.IsLowered := by
  cases action with
  | move => exact written
  | store dest value =>
    obtain ⟨_, v, rfl, plain⟩ := written
    cases v with
    | symbol name => exact plain name rfl
    | _ => trivial
  | jump t | branch _ _ t => exact target t rfl
  | _ => trivial

namespace OfSource

variable {P : Name → Prop} {start : Namer} {a b : Nat}

theorem Numbered.generated {names : List Name} (numbered : Numbered start a b names) :
    ∀ x ∈ names, ∃ n, x = Name.generated Name.label n := by
  obtain ⟨numbers, _, _, rfl⟩ := numbered
  exact List.forall_mem_map.2 fun j _ => ⟨_, rfl⟩

theorem WritesOn.allLowered {code : List Stmt} (writes : WritesOn P start none a b code) : AllLowered code := by
  have generated := writes.numbered.generated
  intro s member
  have written := writes.each s member
  constructor
  · by_cases unmarked : s.label = []
    · exact .inl unmarked
    · exact .inr (generated _ (List.mem_filter.2 ⟨List.mem_map_of_mem member, decide_eq_true unmarked⟩))
  · refine written.action.isLowered fun t isTarget => generated t ?_
    simpa [Loop.labels] using written.target t isTarget

end OfSource

theorem Program.allLowered_of_ofSource {p : Source.Program} {q : Program} (ok : Program.ofSource p = .ok q) :
    ∀ g ∈ q.functions, AllLowered g.body := by
  unfold Program.ofSource at ok
  obtain ⟨globals, _, ok⟩ := bind_eq_ok.1 ok
  obtain ⟨⟨functions, names⟩, isFunctions, done⟩ := bind_eq_ok.1 ok
  cases done
  obtain ⟨_, _, _, each, _⟩ := OfSource.counts_any p.functions 0 functions names
    (by rw [Namer.after_zero]; exact isFunctions)
  intro g member
  obtain ⟨f, _, lowers⟩ := exists_of_mem_right each member
  obtain ⟨_, _, writes⟩ := lowers.body
  exact writes.allLowered

end MiniC.Code
