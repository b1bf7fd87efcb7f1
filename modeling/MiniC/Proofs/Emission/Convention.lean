import MiniC.Proofs.Emission.Phases

namespace MiniC.Assembly

open Code Storage

/-- The lines of a program have the code of its functions, and define no label twice. -/
structure HasCodes (q : Program) (lines : List Line) : Prop where
  distinct : (labels lines).Nodup
  codes : ∀ g ∈ q.functions, g.external = false → ∃ l before body behind, HasCode q lines g l before body behind

theorem drop_of_getElem? {α : Type} {xs : List α} {i : Nat} {x : α} (found : xs[i]? = some x) :
    xs.drop i = x :: xs.drop (i + 1) := by
  obtain ⟨inside, rfl⟩ := List.getElem?_eq_some_iff.1 found
  exact List.drop_eq_getElem_cons inside

section

variable {q : Program} {lines : List Line}

/-- A function runs, with control at a line. -/
def Runs (image : Image q lines) (a : Activation) (pc : Nat) (m : Machine) : Prop :=
  ∃ l before body behind, HasCode q lines a.function l before body behind ∧ Framed image a l ∧
    Phase image a l body behind m (lines.drop pc)

def Waits (image : Image q lines) (b : Activation) (called : Machine) : Prop :=
  ∃ pc i, lines[pc]? = some (.instr i) ∧ called.get .ra = image.address (pc + 1) ∧
    ∀ m, image.Keeps called m → Runs image b (pc + 1) m

def AllWait (image : Image q lines) : Activation → List Activation → Prop
  | _, [] => True
  | a, b :: as => Waits image b a.entry ∧ AllWait image b as

def Orderly (image : Image q lines) : Image.State → Prop
  | ⟨[], _, _⟩ => False
  | ⟨a :: as, pc, m⟩ => Runs image a pc m ∧ AllWait image a as

variable {image : Image q lines} {a b : Activation} {pc pos : Nat} {m m' : Machine}

theorem runs_enter (hasCodes : HasCodes q lines) {g : Function} (member : g ∈ q.functions) (hasBody : g.external = false)
    (found : lines[pos]? = some (.label g.name)) (room : image.HasRoom ⟨g, m⟩) : Runs image ⟨g, m⟩ pos m := by
  obtain ⟨l, before, body, behind, code⟩ := hasCodes.codes g member hasBody
  refine ⟨l, before, body, behind, code, ⟨code.layout, code.frame, room⟩, ?_⟩
  have ahead := drop_label hasCodes.distinct found code.parts
  rw [ahead]
  exact .start rfl

namespace Runs

theorem skip_line (runs : Runs image a pc m) {line : Line} (here : lines[pc]? = some line) (noInstr : ∀ i, line ≠ .instr i) :
    Runs image a (pc + 1) m := by
  obtain ⟨l, before, body, behind, code, framed, phase⟩ := runs
  exact ⟨l, before, body, behind, code, framed, phase.skip_line (drop_of_getElem? here) noInstr⟩

theorem after_data (runs : Runs image a pc m) {i : Instr} (here : lines[pc]? = some (.instr i)) (isData : i.isData = true) :
    Runs image a (pc + 1) (i.after image.symbols m) := by
  obtain ⟨l, before, body, behind, code, framed, phase⟩ := runs
  exact ⟨l, before, body, behind, code, framed, phase.after_data code framed (drop_of_getElem? here) isData⟩

theorem jump (hasCodes : HasCodes q lines) (runs : Runs image a pc m) {i : Instr} (here : lines[pc]? = some (.instr i))
    {target : Name} (isJump : (Line.instr i).jump? = some target) (found : lines[pos]? = some (.label target)) :
    Runs image a pos m := by
  obtain ⟨l, before, body, behind, code, framed, phase⟩ := runs
  have isFlow : i.isData = false := by
    cases i with
    | jump | branch => rfl
    | _ => cases isJump
  rcases phase.flow_cases framed (drop_of_getElem? here) isFlow with ⟨upholds, tame, _⟩ | ⟨rfl, _⟩
  · refine ⟨l, before, body, behind, code, framed, .arrive code hasCodes.distinct upholds ?_ found⟩
    cases i <;> cases isJump
    all_goals exact tame
  · cases isJump

theorem goesOn (runs : Runs image a pc m) {i : Instr} (here : lines[pc]? = some (.instr i)) (isFlow : i.isData = false)
    (noReturn : ∀ r, i ≠ .jumpRegister r)
    (keeps : ∀ {l}, Framed image a l → Upholds image a l m → Upholds image a l m') : Runs image a (pc + 1) m' := by
  obtain ⟨l, before, body, behind, code, framed, phase⟩ := runs
  rcases phase.flow_cases framed (drop_of_getElem? here) isFlow with
    ⟨upholds, _, rest, tame, isSuffix, ahead⟩ | ⟨isReturn, _⟩
  · refine ⟨l, before, body, behind, code, framed, ?_⟩
    rw [ahead]
    exact .inside (keeps framed upholds) tame isSuffix
  · exact absurd isReturn (noReturn _)

theorem call (runs : Runs image a pc m) {name : Name} (here : lines[pc]? = some (.instr (.call name)))
    (keeps : image.Keeps (image.link m pc) m') : Runs image a (pc + 1) m' :=
  runs.goesOn here rfl nofun fun framed upholds => (upholds.link framed pc).keeps framed keeps

theorem waits_of_call (runs : Runs image a pc m) {name : Name} (here : lines[pc]? = some (.instr (.call name))) :
    Waits image a (image.link m pc) :=
  ⟨pc, .call name, here, Machine.get_set_same _ _ (by decide), fun _ keeps => runs.call here keeps⟩

theorem sp_at_call (runs : Runs image a pc m) {name : Name} (here : lines[pc]? = some (.instr (.call name))) :
    (m.get .sp).toNat + a.size = (a.entry.get .sp).toNat := by
  obtain ⟨l, before, body, behind, code, framed, phase⟩ := runs
  rcases phase.flow_cases framed (drop_of_getElem? here) rfl with ⟨upholds, _⟩ | ⟨never, _⟩
  · have above := framed.room.1
    rw [upholds.pointer, framed.toNat_base]
    omega
  · cases never

theorem returns (runs : Runs image a pc m) {r : Register} (here : lines[pc]? = some (.instr (.jumpRegister r))) :
    r = .ra ∧ image.Keeps a.entry m := by
  obtain ⟨l, before, body, behind, code, framed, phase⟩ := runs
  rcases phase.flow_cases framed (drop_of_getElem? here) rfl with ⟨_, never, _⟩ | ⟨is, keeps⟩
  · exact never.elim
  · cases is
    exact ⟨rfl, keeps⟩

theorem stores (runs : Runs image a pc m) {width : Width} {r base : Register} {offset : Int64}
    (here : lines[pc]? = some (.instr (.store width r offset base))) {byte : Word}
    (written : Memory.Within (m.get base + offset.toBitVec) width.bytes byte) (inStack : image.InStack byte) :
    a.InFrame byte := by
  obtain ⟨l, before, body, behind, code, framed, phase⟩ := runs
  exact phase.stores code framed (drop_of_getElem? here) written inStack

theorem inside (runs : Runs image a pc m) : ∃ l before body behind, HasCode q lines a.function l before body behind ∧
    before.length ≤ pc ∧ pc < before.length + (functionLines a.function l body).length := by
  obtain ⟨l, before, body, behind, code, framed, phase⟩ := runs
  obtain ⟨done, rest, split, nonempty, ahead⟩ := phase.exists_ahead
  refine ⟨l, before, body, behind, code, ?_⟩
  have remaining := congrArg List.length ahead
  have total := congrArg List.length code.parts
  have here := List.length_pos_iff.2 nonempty
  rw [split] at total ⊢
  simp only [List.length_drop, List.length_append] at remaining total ⊢
  omega

theorem skip (runs : Runs image a pc m) (order : pc ≤ pos) (inside : pos ≤ lines.length)
    (noInstr : ∀ k, pc ≤ k → k < pos → ∀ i, lines[k]? ≠ some (.instr i)) : Runs image a pos m := by
  induction pos, order using Nat.le_induction with
  | base => exact runs
  | succ pos order ih =>
    have before := ih (by omega) fun k above below => noInstr k above (by omega)
    have here : lines[pos]? = some lines[pos] := List.getElem?_eq_getElem inside
    refine before.skip_line here fun i is => noInstr pos order (Nat.lt_succ_self pos) i ?_
    rw [here, is]

end Runs

theorem Waits.returned {called : Machine} (waits : Waits image b called) (keeps : image.Keeps called m)
    (inside : pos ≤ lines.length) (address : image.address pos = m.get .ra) : Runs image b pos m := by
  obtain ⟨pc, i, here, back, goesOn⟩ := waits
  have runs := goesOn m keeps
  have isLine := (List.getElem?_eq_some_iff.1 here).1
  have same : image.address (pc + 1) = image.address pos := by
    rw [address, keeps.registers .ra (by decide), back]
  rcases Nat.le_total (pc + 1) pos with order | order
  · exact runs.skip order inside (image.distinct order inside same)
  · rcases Nat.lt_or_eq_of_le order with before | rfl
    · exact absurd here (image.distinct order isLine same.symm pc (by omega) (Nat.lt_succ_self pc) i)
    · exact runs

theorem Orderly.step (hasCodes : HasCodes q lines) {st st' : Image.State} (orderly : Orderly image st)
    (step : image.Step st st') : Orderly image st' := by
  obtain ⟨_ | ⟨a, as⟩, pc, m⟩ := st
  · exact orderly.elim
  obtain ⟨runs, wait⟩ := orderly
  cases step with
  | pass here noInstr => exact ⟨runs.skip_line here noInstr, wait⟩
  | data here isData => exact ⟨runs.after_data here isData, wait⟩
  | jump here found => exact ⟨runs.jump hasCodes here rfl found, wait⟩
  | taken here _ found => exact ⟨runs.jump hasCodes here rfl found, wait⟩
  | passed here _ => exact ⟨runs.goesOn here rfl nofun fun _ upholds => upholds, wait⟩
  | call here member hasBody found room =>
    exact ⟨runs_enter hasCodes member hasBody found room, runs.waits_of_call here, wait⟩
  | external here _ _ keeps => exact ⟨runs.call here keeps, wait⟩
  | ret here inside address =>
    obtain ⟨rfl, keeps⟩ := runs.returns here
    obtain ⟨waits, others⟩ := wait
    exact ⟨waits.returned keeps inside address, others⟩

theorem orderly_of_reaches (hasCodes : HasCodes q lines) {st : Image.State} (reaches : image.Reaches st) :
    Orderly image st := by
  induction reaches with
  | enter member hasBody found room => exact ⟨runs_enter hasCodes member hasBody found room, trivial⟩
  | step _ step ih => exact ih.step hasCodes step

end

end MiniC.Assembly
