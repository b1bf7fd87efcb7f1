import MiniC.Proofs.Execution.Straight

namespace MiniC.Language

variable {pc : Nat}

variable {I S : Type} {L : Language I S} {code part : List I} {count k : Nat} {s s' : S}
  {events : List Event}

namespace Steps

theorem trans {count' pc₁ pc' : Nat} {s₁ : S} {events' : List Event}
    (first : L.Steps code count pc s events pc₁ s₁) (second : L.Steps code count' pc₁ s₁ events' pc' s') :
    L.Steps code (count + count') pc s (events ++ events') pc' s' := by
  induction first with
  | none => simpa using second
  | one at_ acts target _ ih =>
    rw [List.append_assoc, Nat.add_right_comm]
    exact .one at_ acts target (ih second)

theorem ends {count' pc₁ : Nat} {s₁ : S} {events' : List Event} {outcome : Outcome}
    (first : L.Steps code count pc s events pc₁ s₁) (second : L.Ends code count' pc₁ s₁ events' outcome s') :
    L.Ends code (count + count') pc s (events ++ events') outcome s' := by
  induction first with
  | none => simpa using second
  | one at_ acts target _ ih =>
    rw [List.append_assoc, Nat.add_right_comm]
    exact .step at_ acts target (ih second)

theorem single {pc' : Nat} {instr : I} {flow : Flow} (at_ : code[pc]? = some instr)
    (acts : L.acts pc s instr events flow s') (target : L.target code pc flow = some pc') :
    L.Steps code 1 pc s events pc' s' := by
  have stay : L.Steps code 0 pc' s' [] pc' s' := .none
  simpa using Steps.one at_ acts target stay

theorem of_end {pc' : Nat} (steps : L.Steps code count code.length s events pc' s') : events = [] := by
  cases steps with
  | none => rfl
  | one at_ _ _ _ => simp at at_

end Steps

theorem shift_length (k : Nat) (instr : I) (part : List I) :
    k + 1 + part.length = k + (instr :: part).length := by
  simp only [List.length_cons]
  omega

theorem steps_of_flows (placed : CodeAt code k part) (quiet : ∀ instr ∈ part, L.Quiet instr)
    (flow : s' ∈ L.flows k part s) : L.Steps code part.length k s [] (k + part.length) s' := by
  induction part generalizing k s with
  | nil =>
    obtain rfl : s' = s := flow
    exact .none
  | cons instr part ih =>
    obtain ⟨s₁, ⟨events, acts⟩, rest⟩ := flow
    obtain ⟨rfl, -⟩ := quiet instr (by simp) _ _ _ _ _ acts
    have run := ih placed.tail (fun other member => quiet other (List.mem_cons_of_mem _ member)) rest
    rw [shift_length] at run
    exact .one placed.head acts rfl run

theorem Steps.quiet (placed : CodeAt code k part) (quiet : ∀ instr ∈ part, L.Quiet instr)
    (steps : L.Steps code count k s events pc s') :
    events = [] ∨ ∃ s₁ ∈ L.flows k part s, ∃ count', count = count' + part.length ∧
      L.Steps code count' (k + part.length) s₁ events pc s' := by
  induction part generalizing k s count events with
  | nil => exact .inr ⟨s, rfl, count, rfl, steps⟩
  | cons instr part ih =>
    cases steps with
    | none => exact .inl rfl
    | one at_ acts target rest =>
      obtain rfl : instr = _ := Option.some.inj (placed.head.symm.trans at_)
      obtain ⟨rfl, rfl⟩ := quiet instr (by simp) _ _ _ _ _ acts
      obtain rfl : k + 1 = _ := Option.some.inj target
      have others := fun other member => quiet other (List.mem_cons_of_mem instr member)
      rcases ih placed.tail others rest with stopped | ⟨s₁, flow, count', rfl, later⟩
      · exact .inl stopped
      · rw [shift_length] at later
        exact .inr ⟨s₁, ⟨_, ⟨_, acts⟩, flow⟩, count', rfl, later⟩

theorem Ends.quiet {outcome : Outcome} (placed : CodeAt code k part) (quiet : ∀ instr ∈ part, L.Quiet instr)
    (ends : L.Ends code count k s events outcome s') :
    ∃ s₁ ∈ L.flows k part s, ∃ count', count = count' + part.length ∧
      L.Ends code count' (k + part.length) s₁ events outcome s' := by
  induction part generalizing k s count events with
  | nil => exact ⟨s, rfl, count, rfl, ends⟩
  | cons instr part ih =>
    have inside := placed.head
    have calm := quiet instr (by simp)
    cases ends with
    | halt halts =>
      cases halts with
      | fell => simp at inside
      | returned at_ acts =>
        obtain rfl : instr = _ := Option.some.inj (inside.symm.trans at_)
        cases (calm _ _ _ _ _ acts).2
    | step at_ acts target rest =>
      obtain rfl : instr = _ := Option.some.inj (inside.symm.trans at_)
      obtain ⟨rfl, rfl⟩ := calm _ _ _ _ _ acts
      obtain rfl : k + 1 = _ := Option.some.inj target
      obtain ⟨s₁, flow, count', rfl, later⟩ :=
        ih placed.tail (fun other member => quiet other (List.mem_cons_of_mem _ member)) rest
      rw [shift_length] at later
      exact ⟨s₁, ⟨_, ⟨_, acts⟩, flow⟩, count', rfl, later⟩

end MiniC.Language
