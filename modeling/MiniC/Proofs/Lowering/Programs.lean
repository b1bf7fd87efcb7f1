import MiniC.Proofs.Lowering.Statements

namespace MiniC.Code

namespace OfSource

theorem function_ok {f : Source.Function} {g : Function} {names names' : Namer}
    (ok : function f names = .ok (g, names')) (body : f.external = false) :
    g.name = f.name ∧ stmts none f.body names = .ok (g.body, names') := by
  rw [function, body, if_neg (by decide), bind_ok] at ok
  obtain ⟨code, mid, code_ok, ok⟩ := ok
  obtain ⟨rfl, rfl⟩ := pure_ok.1 ok
  exact ⟨rfl, code_ok⟩

theorem functions_ok {fs : List Source.Function} {gs : List Function} {names names' : Namer} {i : Nat}
    {f : Source.Function} (ok : functions fs names = .ok (gs, names')) (source : fs[i]? = some f) :
    ∃ g start stop, gs[i]? = some g ∧ function f start = .ok (g, stop) := by
  induction fs generalizing i gs names with
  | nil => simp at source
  | cons first fs ih =>
    rw [functions, bind_ok] at ok
    obtain ⟨g, mid, first_ok, ok⟩ := ok
    rw [inside_ok] at first_ok
    rw [bind_ok] at ok
    obtain ⟨rest, mid, rest_ok, ok⟩ := ok
    obtain ⟨rfl, rfl⟩ := pure_ok.1 ok
    cases i with
    | zero =>
      obtain rfl : first = f := by simpa using source
      exact ⟨g, _, _, rfl, first_ok⟩
    | succ i =>
      obtain ⟨later, start, stop, found, later_ok⟩ := ih rest_ok (by simpa using source)
      exact ⟨later, start, stop, by simpa using found, later_ok⟩

theorem runs_iff {w : World} {body : List Source.Stmt} {code : List Stmt} {σ τ : Valuation}
    (performs : Performs w code none (Source.Stmt.listResults w body) 0 code.length)
    (same : τ.user = σ.user) (outcome : Outcome) (values : UserValuation) :
    (∃ σ', Source.Runs w body σ outcome σ' ∧ σ'.user = values) ↔
      ∃ events τ', w.setting.language.Runs code τ events outcome τ' ∧ τ'.user = values := by
  constructor
  · rintro ⟨σ', ⟨completion, ended, ends⟩, rfl⟩
    obtain ⟨τ', same', go⟩ := performs.forth same ended
    have rest : Rest w code none code.length 0 τ' completion outcome τ' := by
      cases completion <;> cases ends
      · exact .normal (Language.closes_end.2 ⟨rfl, rfl, rfl⟩)
      · exact .returned
    obtain ⟨count, events, run⟩ := go rest
    exact ⟨events, τ', ⟨count, run⟩, same'⟩
  · rintro ⟨events, τ'', ⟨count, run⟩, rfl⟩
    obtain ⟨completion, σ', τ', count', ended, same', _, rest⟩ := performs.back same ⟨events, run⟩
    cases rest with
    | normal closes =>
      obtain ⟨rfl, rfl, rfl⟩ := Language.closes_end.1 closes
      exact ⟨σ', ⟨_, ended, rfl⟩, same'.symm⟩
    | broke inside _ _ => cases inside
    | continued inside _ _ => cases inside
    | returned => exact ⟨σ', ⟨_, ended, rfl⟩, same'.symm⟩

end OfSource

/-- A body and its code end with the same outcomes and the same values of the variables. The names of
a body are told apart as long as its code has fewer than `2 ^ 64` statements, which all lists in the
memory of a machine have. -/
theorem Program.runs_ofSource_iff {p : Source.Program} {q : Program} {i : Nat} {f : Source.Function}
    (lowered : Program.ofSource p = .ok q) (source : p.functions[i]? = some f) (body : f.external = false)
    (proper : Source.Stmt.allProper f.body = true) :
    ∃ g, q.functions[i]? = some g ∧ g.name = f.name ∧
      (g.body.length < 2 ^ 64 → ∀ (w : World) (σ τ : Valuation), τ.user = σ.user →
        ∀ (outcome : Outcome) (values : UserValuation),
          (∃ σ', Source.Runs w f.body σ outcome σ' ∧ σ'.user = values) ↔
            ∃ events τ', w.setting.language.Runs g.body τ events outcome τ' ∧ τ'.user = values) := by
  obtain ⟨names, made⟩ : ∃ names, OfSource.functions p.functions ⟨0⟩ = .ok (q.functions, names) := by
    unfold Program.ofSource at lowered
    cases globals : p.globals.mapM fun g => within (.global g.name) (OfSource.global g) with
    | error e => rw [globals] at lowered; cases lowered
    | ok gs =>
      cases functions : OfSource.functions p.functions ⟨0⟩ with
      | error e => rw [globals, functions] at lowered; cases lowered
      | ok made =>
        rw [globals, functions] at lowered
        cases lowered
        exact ⟨made.2, rfl⟩
  obtain ⟨g, start, stop, target, made⟩ := OfSource.functions_ok made source
  obtain ⟨named, made⟩ := OfSource.function_ok made body
  refine ⟨g, target, named, ?_⟩
  intro short w σ τ same outcome values
  rw [← Namer.after_zero start] at made
  obtain ⟨b, _, code⟩ := OfSource.lowersStmts w start f.body proper none 0 _ _ made
  have upper := code.upper
  have bound : b < 2 ^ 64 := by omega
  have unique := code.marked.unique bound
  exact OfSource.runs_iff (code.performs bound unique (CodeAt.whole g.body) (by simp)) same outcome values

def searching : Source.Program :=
  let pos := Source.Position.nowhere
  let i := Source.Expr.var pos "i"
  let call := Source.Expr.call pos "f" [.unary pos .increment i, i]
  let body := [.ifStmt pos call [.breakStmt pos] [], .continueStmt pos]
  ⟨[], [⟨pos, "f", .int, [], false, [.whileStmt pos (.binary pos .le i (.var pos "n")) body, .returnStmt pos i]⟩]⟩

theorem Program.runs_ofSource_searching :
    ∃ q, ∃ f : Source.Function, ∃ g : Function, Program.ofSource searching = .ok q ∧ searching.functions[0]? = some f ∧
      f.external = false ∧ Source.Stmt.allProper f.body = true ∧ q.functions[0]? = some g ∧
      g.body.length < 2 ^ 64 ∧ ∀ (w : World) (σ : Valuation) (outcome : Outcome) (values : UserValuation),
        (∃ σ', Source.Runs w f.body σ outcome σ' ∧ σ'.user = values) ↔
          ∃ events τ', w.setting.language.Runs g.body σ events outcome τ' ∧ τ'.user = values := by
  obtain ⟨q, lowered, short⟩ : ∃ q, Program.ofSource searching = .ok q ∧
      ∀ g : Function, q.functions[0]? = some g → g.body.length < 2 ^ 64 :=
    ⟨_, rfl, by decide⟩
  obtain ⟨g, target, _, same⟩ := Program.runs_ofSource_iff lowered (i := 0) rfl rfl rfl
  exact ⟨q, _, g, lowered, rfl, rfl, rfl, target, short g target,
    fun w σ => same (short g target) w σ σ rfl⟩

end MiniC.Code
