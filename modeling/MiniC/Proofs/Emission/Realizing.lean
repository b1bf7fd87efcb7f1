import MiniC.Proofs.Emission.Moves
import MiniC.Proofs.Execution.Blocks

namespace MiniC.Assembly

open Code Storage

def Scope.places (scope : Scope) (x : Name) : Option Location :=
  (scope.resolve x).toOption

theorem Scope.resolve_of_place {scope : Scope} {x : Name} {place : Location}
    (found : scope.layout.get? x = some place) : scope.resolve x = .ok place := by
  unfold Scope.resolve
  rw [found]

/-- What a program gives the code of a function with some layout to refer to. -/
def scopeOf (p : Program) (l : Layout) (exit : Name) : Scope :=
  ⟨p.functions, p.globals, l, exit⟩

section

variable {p : Program} (host : Host p) (l : Layout) (exit : Name) (base : Word)

/-- Statements on the places of a function. -/
def onPlaces : Setting Store :=
  Store.setting host.callees (scopeOf p l exit).places

def ofBody : Language Line Machine :=
  (host.language l exit).cut exit

/-- A function is left with its result in the register of results. -/
def LeavesWith (value : Option Word) (t : Store) (value' : Option Word) (m : Machine) : Prop :=
  value' = none ∧ (∀ w, value = some w → m.get resultRegister = w) ∧ Holds host l base t m

structure Realizes (s : Stmt) (b : Block Line) : Prop where
  marks : Language.Marks (onPlaces host l exit).language (ofBody host l exit) s b
  calm : b.Calm (ofBody host l exit)
  follows : ∀ i k, Language.Follows (onPlaces host l exit).language (ofBody host l exit) (Holds host l base)
    (LeavesWith host l base) i s k b

end

def labelLines (label : Name) : List Line :=
  if label = [] then [] else [.label label]

section

variable {p : Program} {host : Host p} {l : Layout} {exit : Name} {base : Word} {s : Stmt}
  {before behind : List Instr}

theorem quiet_lines (label : Name) (data : ∀ i ∈ before, i.isData = true) :
    ∀ line ∈ labelLines label ++ before.map .instr, (ofBody host l exit).Quiet line := by
  intro line member
  rcases List.mem_append.1 member with first | other
  · unfold labelLines at first
    split at first
    · cases first
    · rw [List.mem_singleton.1 first]
      exact (quiet_label label).cut
  · obtain ⟨i, inCode, rfl⟩ := List.mem_map.1 other
    exact (quiet_data (data i inCode)).cut

theorem flows_lines (label : Name) (data : ∀ i ∈ before, i.isData = true) (k : Nat) (m : Machine) :
    (ofBody host l exit).flows k (labelLines label ++ before.map .instr) m = {afterAll host.symbols m before} := by
  have first : (host.language l exit).flows k (labelLines label) m = {m} := by
    unfold labelLines
    split
    · rfl
    · rw [Language.flows_singleton, nexts_label]
  rw [ofBody, Language.flows_cut, Language.flows_append, first, andThen_singleton, flows_data data]

theorem marks_lines {b : Block Line} {code : List Instr} (lines : b.code = labelLines s.label ++ code.map .instr) :
    Language.Marks (onPlaces host l exit).language (ofBody host l exit) s b := by
  have unmarked : ∀ line ∈ code.map Line.instr, line.mark = [] := by
    intro line member
    obtain ⟨i, _, rfl⟩ := List.mem_map.1 member
    rfl
  unfold Language.Marks
  rw [lines]
  unfold labelLines
  by_cases unlabelled : s.label = []
  · rw [if_pos unlabelled, List.nil_append]
    cases lines : code.map Line.instr with
    | nil => exact unlabelled
    | cons first rest =>
      rw [lines] at unmarked
      refine ⟨(unmarked first (by simp)).trans unlabelled.symm, fun other member => ?_⟩
      exact unmarked other (List.mem_cons_of_mem _ member)
  · rw [if_neg unlabelled]
    exact ⟨rfl, unmarked⟩

theorem Realizes.of_data (data : ∀ i ∈ before, i.isData = true)
    (effect : ∀ i t m, Holds host l base t m → ∃ t', Holds host l base t' (afterAll host.symbols m before) ∧
      ∀ {events flow t''}, Code.Acts (onPlaces host l exit) i t s.action events flow t'' ↔
        events = [] ∧ flow = .next ∧ t'' = t') :
    Realizes host l exit base s (.quiet (labelLines s.label ++ before.map .instr)) where
  marks := marks_lines rfl
  calm := quiet_lines s.label data
  follows i k t m holds := by
    obtain ⟨t', holds', acts⟩ := effect i t m holds
    constructor
    · rintro ⟨events, flow, t''⟩ does
      obtain ⟨rfl, rfl, rfl⟩ := acts.1 does
      exact ⟨([], .next, _), ⟨rfl, rfl, by rw [flows_lines s.label data]; rfl⟩, rfl, .next holds'⟩
    · rintro ⟨events, flow, m'⟩ ⟨rfl, rfl, passes⟩
      rw [flows_lines s.label data] at passes
      obtain rfl : m' = _ := passes
      exact ⟨([], .next, t'), acts.2 ⟨rfl, rfl, rfl⟩, rfl, .next holds'⟩

theorem Realizes.of_core {core : Instr} (data : ∀ i ∈ before, i.isData = true)
    (data' : ∀ i ∈ behind, i.isData = true)
    (step : ∀ i t m, Holds host l base t m →
      Matches (fun out out' : List Event × Flow × _ => out.1 = out'.1 ∧
          Language.Lands (Holds host l base) (LeavesWith host l base) out.2.1 out.2.2 out'.2.1 out'.2.2)
        {out | Code.Acts (onPlaces host l exit) i t s.action out.1 out.2.1 out.2.2}
        {out | ∃ m', (ofBody host l exit).acts 0 (afterAll host.symbols m before) (.instr core) out.1 out.2.1 m' ∧
          out.2.2 = if out.2.1 = .next then afterAll host.symbols m' behind else m'}) :
    Realizes host l exit base s
      (.around (labelLines s.label ++ before.map .instr) (.instr core) (behind.map .instr)) where
  marks := by
    have lines : (Block.around (labelLines s.label ++ before.map Line.instr) (.instr core) (behind.map .instr)).code =
        labelLines s.label ++ (before ++ core :: behind).map .instr := by simp [Block.code]
    exact marks_lines lines
  calm := by
    have later : ∀ line ∈ behind.map Line.instr, (ofBody host l exit).Quiet line := by
      simpa [labelLines] using quiet_lines [] data'
    refine ⟨quiet_lines s.label data, later, fun k m => ?_⟩
    exact ⟨_, by rw [ofBody, Language.flows_cut, flows_data data']; rfl⟩
  follows i k t m holds := by
    have same : {out : List Event × Flow × Machine | Block.Passes (ofBody host l exit) k m out.1 out.2.1 out.2.2
          (.around (labelLines s.label ++ before.map .instr) (.instr core) (behind.map .instr))} =
        {out | ∃ m', (ofBody host l exit).acts 0 (afterAll host.symbols m before) (.instr core) out.1 out.2.1 m' ∧
          out.2.2 = if out.2.1 = .next then afterAll host.symbols m' behind else m'} := by
      ext ⟨events, flow, m''⟩
      have last : ∀ k m', (ofBody host l exit).flows k (behind.map Line.instr) m' = {afterAll host.symbols m' behind} := by
        intro k m'
        rw [ofBody, Language.flows_cut, flows_data data']
      simp only [Set.mem_ofPred_eq, Block.Passes, flows_lines s.label data, last, Set.mem_singleton_iff,
        exists_eq_left]
      refine exists_congr fun m' => and_congr Iff.rfl ?_
      split <;> rfl
    rw [same]
    exact step i t m holds

end

end MiniC.Assembly
