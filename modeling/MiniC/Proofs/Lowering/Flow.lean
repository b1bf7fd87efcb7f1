import MiniC.Proofs.Lowering.Writing

namespace MiniC.Code.OfSource

variable {P : Name → Prop} {start : Namer} {a b : Nat} {code : List Stmt}

def IsPlain (code : List Stmt) : Prop :=
  ∀ s ∈ code, s.label = [] ∧ s.action.target? = none

theorem IsPlain.labels_eq_nil (plain : IsPlain code) : labels code = [] :=
  MiniC.Code.labels_eq_nil fun s member => (plain s member).1

theorem IsStraight.isPlain (straight : IsStraight P start a b code) : IsPlain code := by
  intro s member
  obtain ⟨unmarked, written⟩ := straight s member
  refine ⟨unmarked, Option.eq_none_iff_forall_ne_some.2 fun t isTarget => ?_⟩
  cases written.target t isTarget

/-- Jumps go to the labels of the code or to those of the loop around it. -/
def Lands (loop : Option Loop) (code : List Stmt) : Prop :=
  ∀ s ∈ code, ∀ t, s.action.target? = some t → t ∈ labels code ++ Loop.labels loop

theorem Lands.merge {loop : Option Loop} {first second whole : List Stmt} (left : Lands loop first)
    (right : Lands loop second) (lines : ∀ s ∈ whole, s ∈ first ∨ s ∈ second)
    (marks : labels first ⊆ labels whole ∧ labels second ⊆ labels whole) : Lands loop whole := by
  intro s member t isTarget
  rcases lines s member with inFirst | inSecond
  · rcases List.mem_append.1 (left s inFirst t isTarget) with own | outer
    · exact List.mem_append_left _ (marks.1 own)
    · exact List.mem_append_right _ outer
  · rcases List.mem_append.1 (right s inSecond t isTarget) with own | outer
    · exact List.mem_append_left _ (marks.2 own)
    · exact List.mem_append_right _ outer

theorem WritesOn.lands {loop : Option Loop} (writes : WritesOn P start loop a b code) : Lands loop code :=
  fun s member => (writes.each s member).target

theorem Counts.ensures {α : Type} {x : Lower α} {Q : α → Prop} (counts : ∀ start, Counts start x 0 fun out _ => Q out) :
    Ensures x Q := by
  intro names out names' ok
  obtain ⟨_, _, _, holds⟩ := counts names out names' (by rw [Namer.after_zero]; exact ok)
  exact holds

theorem ensures_plain_assign (target : Name) (e : Source.Expr) : Ensures (assign target e) IsPlain :=
  Counts.ensures fun _ => (counts_assign (P := fun _ => True) (fun _ _ => trivial) (Nat.le_refl 0) (.inl trivial)).mono
    fun _ _ _ ⟨_, straight⟩ => straight.isPlain

theorem ensures_lands_stmt (loop : Option Loop) (s : Source.Stmt) : Ensures (stmt loop s) (Lands loop) :=
  Counts.ensures fun _ => (counts_stmt s (P := fun _ => True) (fun _ _ => trivial) loop 0).mono fun _ _ _ writes => writes.lands

theorem ensures_lands_stmts (loop : Option Loop) (ss : List Source.Stmt) : Ensures (stmts loop ss) (Lands loop) :=
  Counts.ensures fun _ => (counts_stmts ss (P := fun _ => True) (fun _ _ => trivial) loop 0).mono fun _ _ _ writes => writes.lands

theorem flows_functions (fs : List Source.Function) (a : Nat) :
    Counts start (functions fs) a fun gs b => b ≤ a + Storage.lines gs ∧
      Numbered start a b (gs.flatMap fun g => labels g.body) ∧ ∀ g ∈ gs, Lands none g.body := by
  refine (counts_any fs a).mono ?_
  rintro gs b _ ⟨each, upper, numbered⟩
  refine ⟨upper, numbered, fun g member => ?_⟩
  obtain ⟨_, _, lowers⟩ := exists_of_mem_right each member
  obtain ⟨_, _, writes⟩ := lowers.body
  exact writes.lands

end MiniC.Code.OfSource
