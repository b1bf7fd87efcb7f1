import MiniC.Code.Operands
import MiniC.Proofs.Code.Meaning

namespace MiniC.Code

/-- Does an action neither call a function nor move a value between places? -/
def Action.isLocal : Action → Bool
  | .call .. | .move .. => false
  | _ => true

/-- What a local action does with the values of its inputs, and what it has to write. -/
inductive Computes (constants : Value → Set Word) :
    Action → List Word → List Event → Flow → Option Word → Prop
  | nop : Computes constants .nop [] [] .next none
  | store {dest value w} :
    w ∈ constants value → Computes constants (.store dest (some value)) [] [] .next (some w)
  | binary {op dest left right a b w} :
    op.eval? a b = some w → Computes constants (.binary op dest left right) [a, b] [] .next (some w)
  | unary {op dest arg a w} :
    op.eval? a = some w → Computes constants (.unary op dest arg) [a] [] .next (some w)
  | jump {target} : Computes constants (.jump target) [] [.jump target] (.goto target) none
  | taken {check var target a} :
    check.holds? a = some true →
    Computes constants (.branch check var target) [a] [.jump target] (.goto target) none
  | passed {check var target a} :
    check.holds? a = some false → Computes constants (.branch check var target) [a] [] .next none
  | leave : Computes constants (.ret []) [] [] (.leave none) none
  | give {var a} : var ≠ [] → Computes constants (.ret var) [a] [] (.leave (some a)) none

section

variable {S : Type} (m : Setting S)

def Setting.deliver (s : S) (outputs : List Name) (result : Option Word) (s' : S) : Prop :=
  match outputs, result with
  | [], none => s' = s
  | [dest], some w => m.write s dest w = some s'
  | _, _ => False

variable {m} {i : Nat} {s s' : S} {action : Action} {events : List Event} {flow : Flow}

theorem mapM_pair {f : Name → Option Word} {x y : Name} {vs : List Word} :
    [x, y].mapM f = some vs ↔ ∃ a b, f x = some a ∧ f y = some b ∧ vs = [a, b] := by
  cases h : f x <;> cases h' : f y <;> simp [h, h', eq_comm]

theorem mapM_single {f : Name → Option Word} {x : Name} {vs : List Word} :
    [x].mapM f = some vs ↔ ∃ a, f x = some a ∧ vs = [a] := by
  cases h : f x <;> simp [h, eq_comm]

theorem acts_iff_computes (here : action.isLocal = true) :
    Acts m i s action events flow s' ↔
      ∃ inputs result, action.inputs.mapM (m.read s) = some inputs ∧
        Computes (m.constant s i) action inputs events flow result ∧
        m.deliver s action.outputs result s' := by
  constructor
  · intro acts
    cases acts with
    | nop => exact ⟨[], none, rfl, .nop, rfl⟩
    | store allowed written => exact ⟨[], _, rfl, .store allowed, written⟩
    | binary readLeft readRight value written =>
      exact ⟨_, _, mapM_pair.2 ⟨_, _, readLeft, readRight, rfl⟩, .binary value, written⟩
    | unary readArg value written => exact ⟨_, _, mapM_single.2 ⟨_, readArg, rfl⟩, .unary value, written⟩
    | jump => exact ⟨[], none, rfl, .jump, rfl⟩
    | taken readVar holds => exact ⟨_, none, mapM_single.2 ⟨_, readVar, rfl⟩, .taken holds, rfl⟩
    | passed readVar holds => exact ⟨_, none, mapM_single.2 ⟨_, readVar, rfl⟩, .passed holds, rfl⟩
    | call | move => cases here
    | leave => exact ⟨[], none, rfl, .leave, rfl⟩
    | give named readVar =>
      refine ⟨_, none, ?_, .give named, rfl⟩
      rw [Action.inputs, if_neg named]
      exact mapM_single.2 ⟨_, readVar, rfl⟩
  · rintro ⟨inputs, result, reads, computes, delivered⟩
    cases computes with
    | nop => rw [show s' = s from delivered]; exact .nop
    | store allowed => exact .store allowed delivered
    | binary value =>
      obtain ⟨_, _, readLeft, readRight, same⟩ := mapM_pair.1 reads
      cases same
      exact .binary readLeft readRight value delivered
    | unary value =>
      obtain ⟨_, readArg, same⟩ := mapM_single.1 reads
      cases same
      exact .unary readArg value delivered
    | jump => rw [show s' = s from delivered]; exact .jump
    | taken holds =>
      obtain ⟨_, readVar, same⟩ := mapM_single.1 reads
      cases same
      rw [show s' = s from delivered]
      exact .taken readVar holds
    | passed holds =>
      obtain ⟨_, readVar, same⟩ := mapM_single.1 reads
      cases same
      rw [show s' = s from delivered]
      exact .passed readVar holds
    | leave => rw [show s' = s from delivered]; exact .leave
    | give named =>
      rw [Action.inputs, if_neg named] at reads
      obtain ⟨_, readVar, same⟩ := mapM_single.1 reads
      cases same
      rw [show s' = s from delivered]
      exact .give named readVar

end

section

variable {ins outs : Renaming} {action : Action}

theorem Action.inputs_substitute (here : action.isLocal = true) (named : ∀ x, x ≠ [] → ins.apply x ≠ []) :
    (action.substitute ins outs).inputs = action.inputs.map ins.apply := by
  cases action with
  | ret var => by_cases empty : var = [] <;> simp [substitute, inputs, empty, named]
  | call | move => cases here
  | _ => rfl

theorem Action.outputs_substitute (here : action.isLocal = true) :
    (action.substitute ins outs).outputs = action.outputs.map outs.apply := by
  cases action with
  | call | move => cases here
  | _ => rfl

theorem Action.isLocal_substitute : (action.substitute ins outs).isLocal = action.isLocal := by
  cases action <;> rfl

theorem computes_substitute {constants : Value → Set Word} {inputs : List Word} {events : List Event}
    {flow : Flow} {result : Option Word} (named : ∀ x, x ≠ [] → ins.apply x ≠ []) :
    Computes constants (action.substitute ins outs) inputs events flow result ↔
      Computes constants action inputs events flow result := by
  cases action with
  | ret var =>
    by_cases empty : var = []
    · simp [Action.substitute, empty]
    · rw [Action.substitute, if_neg empty]
      constructor
      · intro computes
        generalize given : ins.apply var = other at computes
        cases computes with
        | leave => exact absurd given (named var empty)
        | give _ => exact .give empty
      · intro computes
        cases computes with
        | leave => exact absurd rfl empty
        | give _ => exact .give (named var empty)
  | _ =>
    constructor
    · intro computes
      cases computes <;> constructor <;> assumption
    · intro computes
      cases computes <;> constructor <;> assumption

end

end MiniC.Code
