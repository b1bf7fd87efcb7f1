import MiniC.Compile
import MiniC.Proofs.Emission.Labels
import MiniC.Proofs.Lowering.Positions
import MiniC.Proofs.Source.RoundTrip

namespace MiniC

open Code Storage Assembly

variable {text : Bytes} {p : Program} {g : Function}

/-- A text, its tree, its three-address code, that with storage, and its assembly. -/
structure Stages (s : Startup) (text : Bytes) (x : Source.Program) (p q : Program) (lines : List Line) : Prop where
  parsed : Source.parse text = .ok x
  lowered : Program.ofSource x = .ok p
  assigned : p.assign = ⟨q, none⟩
  emitted : ofProgram s q = .ok lines

theorem lower_eq_ok : lower text = .ok p ↔ ∃ x, Source.parse text = .ok x ∧ Program.ofSource x = .ok p := by
  simp only [lower, bind_eq_ok, mapError_eq_ok]

theorem compileCode_eq_ok {s : Startup} {lines : List Line} :
    compileCode s p = .ok lines ↔ ∃ q, p.assign = ⟨q, none⟩ ∧ ofProgram s q = .ok lines := by
  unfold compileCode
  obtain ⟨q, error⟩ := p.assign
  cases error with
  | some e => simp
  | none => simp [mapError_eq_ok]

theorem exists_stages {s : Startup} {lines : List Line} (compiled : compile s text = .ok lines) :
    ∃ x p q, Stages s text x p q lines := by
  obtain ⟨p, isCode, compiled⟩ := bind_eq_ok.1 compiled
  obtain ⟨x, parsed, lowered⟩ := lower_eq_ok.1 (mapError_eq_ok.1 isCode)
  obtain ⟨q, assigned, emitted⟩ := compileCode_eq_ok.1 compiled
  exact ⟨x, p, q, parsed, lowered, assigned, emitted⟩

theorem lower_format {x : Source.Program} (wellFormed : x.WellFormed)
    (printed : x.format = .ok text) (lowered : Program.ofSource x = .ok p) : lower text = .ok p := by
  obtain ⟨formatted, printed', y, parsed, same⟩ := Source.exists_parse_format wellFormed
  cases printed.symm.trans printed'
  have lowered' : Program.ofSource y = .ok p := by
    rwa [← Program.ofSource_bare, same, Program.ofSource_bare]
  exact lower_eq_ok.2 ⟨y, parsed, lowered'⟩

theorem compile_format {s : Startup} {x : Source.Program} {lines : List Line}
    (wellFormed : x.WellFormed) (printed : x.format = .ok text) (lowered : Program.ofSource x = .ok p)
    (compiled : compileCode s p = .ok lines) : compile s text = .ok lines :=
  bind_eq_ok.2 ⟨p, mapError_eq_ok.2 (lower_format wellFormed printed lowered), compiled⟩

namespace Stages

variable {s : Startup} {text : Bytes} {x : Source.Program} {p q : Program} {lines : List Line}
  (stages : Stages s text x p q lines)

include stages

theorem wellFormed : x.WellFormed :=
  Source.wellFormed_of_parse stages.parsed

theorem lowersTo : Program.LowersTo x p :=
  Program.lowersTo_of_ofSource stages.wellFormed stages.lowered

theorem assignsTo : List.Forall₂ (AssignsTo p.globals q.globals) p.functions q.functions :=
  assignsTo_of_assign stages.assigned

theorem exists_source (member : g ∈ q.functions) :
    ∃ y ∈ x.functions, ∃ f ∈ p.functions, OfSource.LowersTo ⟨0⟩ y f ∧ AssignsTo p.globals q.globals f g := by
  obtain ⟨f, inCode, assignsTo⟩ := exists_of_mem_right stages.assignsTo member
  obtain ⟨y, inTree, lowersTo⟩ := exists_of_mem_right stages.lowersTo.functions inCode
  exact ⟨y, inTree, f, inCode, lowersTo, assignsTo⟩

theorem exists_declared (member : g ∈ q.functions) :
    ∃ y ∈ x.functions, y.name = g.name ∧ y.external = g.external := by
  obtain ⟨y, inTree, f, _, lowersTo, assignsTo⟩ := stages.exists_source member
  obtain ⟨name, _, external, _⟩ := keeps_of_assignsTo assignsTo
  exact ⟨y, inTree, (name.trans lowersTo.name).symm, (external.trans lowersTo.external).symm⟩

theorem exists_assembled {y : Source.Function} (member : y ∈ x.functions) :
    ∃ g ∈ q.functions, g.name = y.name ∧ g.external = y.external := by
  obtain ⟨f, inCode, lowersTo⟩ := exists_of_mem_left stages.lowersTo.functions member
  obtain ⟨g, inside, assignsTo⟩ := exists_of_mem_left stages.assignsTo inCode
  obtain ⟨name, _, external, _⟩ := keeps_of_assignsTo assignsTo
  exact ⟨g, inside, name.trans lowersTo.name, external.trans lowersTo.external⟩

theorem written (member : g ∈ q.functions) : (∀ stmt ∈ g.body, stmt.action = .nop → stmt.label ≠ []) ∧
      ∀ stmt ∈ g.body, ∀ t, stmt.action.target? = some t → t ∈ Code.labels g.body := by
  obtain ⟨_, _, f, _, lowersTo, assignsTo⟩ := stages.exists_source member
  obtain ⟨a, b, writes⟩ := lowersTo.body
  obtain ⟨_, _, _, keeps⟩ := keeps_of_assignsTo assignsTo
  refine ⟨?_, ?_⟩
  · intro stmt inside idle
    exact (writes.each stmt (keeps.idle stmt inside idle)).marked idle
  · intro stmt inside t isTarget
    obtain ⟨original, inBody, isTarget⟩ := keeps.targets stmt inside t isTarget
    rw [keeps.labels]
    simpa [OfSource.Loop.labels] using (writes.each original inBody).target t isTarget

theorem prepared (member : g ∈ q.functions) (hasBody : g.external = false) {l : Layout}
    (layout : g.layout = some l) : Prepared q g l := by
  obtain ⟨_, _, f, inCode, lowersTo, assignsTo⟩ := stages.exists_source member
  rcases assignsTo with ⟨external, rfl⟩ | ⟨_, _, _, _, _, _, _, _, _, globals, assigns⟩
  · exact absurd (hasBody.symm.trans external) Bool.false_ne_true
  · exact prepared_of_assigns assigns layout globals (Program.allLowered_of_ofSource stages.lowered f inCode)

theorem exists_isAssembly : ∃ data codes, IsAssembly s q data codes lines := by
  refine isAssembly_of_ofProgram stages.emitted ?_
  intro g member part isPart
  obtain ⟨inside, hasBody⟩ := mem_bodies.1 member
  exact isFunctionCode_of_prepared isPart (fun l layout => stages.prepared inside hasBody layout) (stages.written inside).2

end Stages

end MiniC
