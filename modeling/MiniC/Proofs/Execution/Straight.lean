import MiniC.Proofs.Execution.Basic
import MiniC.Proofs.Matching

namespace MiniC

def CodeAt {I : Type} (code : List I) (k : Nat) (part : List I) : Prop :=
  part <+: code.drop k

namespace CodeAt

variable {I : Type} {code part first second : List I} {k : Nat} {instr : I}

theorem whole (code : List I) : CodeAt code 0 code := by
  simp [CodeAt]

theorem append_iff :
    CodeAt code k (first ++ second) ↔ CodeAt code k first ∧ CodeAt code (k + first.length) second := by
  constructor
  · rintro ⟨rest, whole⟩
    refine ⟨⟨second ++ rest, by rw [← whole, List.append_assoc]⟩, rest, ?_⟩
    rw [← List.drop_drop, ← whole, List.append_assoc, List.drop_left]
  · rintro ⟨⟨rest, whole⟩, rest', whole'⟩
    refine ⟨rest', ?_⟩
    rw [← List.drop_drop, ← whole, List.drop_left] at whole'
    rw [← whole, ← whole', List.append_assoc]

theorem left (placed : CodeAt code k (first ++ second)) : CodeAt code k first :=
  (append_iff.1 placed).1

theorem right (placed : CodeAt code k (first ++ second)) : CodeAt code (k + first.length) second :=
  (append_iff.1 placed).2

theorem tail (placed : CodeAt code k (instr :: part)) : CodeAt code (k + 1) part := by
  have split : CodeAt code k ([instr] ++ part) := placed
  exact split.right

theorem head (placed : CodeAt code k (instr :: part)) : code[k]? = some instr := by
  obtain ⟨rest, whole⟩ := placed
  have first : (code.drop k)[0]? = some instr := by rw [← whole]; rfl
  simpa using first

end CodeAt

namespace Language

variable {I S : Type} {L : Language I S} {code : List I}

section

variable (L)

/-- The states after instructions that are run from the one numbered `i` on. -/
def flows (i : Nat) : List I → S → Set S
  | [], s => {s}
  | instr :: code, s => andThen (L.nexts i instr s) (flows (i + 1) code)

theorem flows_append (i : Nat) (first second : List I) (s : S) :
    L.flows i (first ++ second) s =
      andThen (L.flows i first s) (L.flows (i + first.length) second) := by
  induction first generalizing i s with
  | nil => simp [flows]
  | cons instr first ih =>
    have shift : i + 1 + first.length = i + (instr :: first).length := by
      simp only [List.length_cons]
      omega
    simp only [List.cons_append, flows, andThen_assoc]
    congr 1
    funext s'
    rw [ih, shift]

@[simp] theorem flows_singleton (i : Nat) (instr : I) (s : S) :
    L.flows i [instr] s = L.nexts i instr s := by
  ext s'
  simp [flows, andThen]

def Closes (code : List I) (count pc : Nat) (s : S) (outcome : Outcome) (s' : S) : Prop :=
  ∃ events, L.Ends code count pc s events outcome s'

end

section

variable {count pc : Nat} {instr : I} {s s' : S} {outcome : Outcome}

theorem closes_step (at_ : code[pc]? = some instr)
    (stays : ∀ events value s', ¬ L.acts pc s instr events (.leave value) s') :
    L.Closes code count pc s outcome s' ↔
      ∃ count' flow s₁ pc₁, count = count' + 1 ∧ (∃ events, L.acts pc s instr events flow s₁) ∧
        L.target code pc flow = some pc₁ ∧ L.Closes code count' pc₁ s₁ outcome s' := by
  constructor
  · rintro ⟨_, ends⟩
    cases ends with
    | halt halts =>
      cases halts with
      | fell => simp at at_
      | returned at_' acts =>
        obtain rfl : instr = _ := Option.some.inj (at_.symm.trans at_')
        exact absurd acts (stays _ _ _)
    | step at_' acts target rest =>
      obtain rfl : instr = _ := Option.some.inj (at_.symm.trans at_')
      exact ⟨_, _, _, _, rfl, ⟨_, acts⟩, target, _, rest⟩
  · rintro ⟨count', flow, s₁, pc₁, rfl, ⟨events, acts⟩, target, events', rest⟩
    exact ⟨_, .step at_ acts target rest⟩

theorem closes_straight {part : List I} {k : Nat} (placed : CodeAt code k part)
    (straight : ∀ instr ∈ part, L.Straight instr) :
    L.Closes code count k s outcome s' ↔
      ∃ s₁ ∈ L.flows k part s, ∃ count', count = count' + part.length ∧
        L.Closes code count' (k + part.length) s₁ outcome s' := by
  induction part generalizing k s count with
  | nil => simp [flows]
  | cons instr part ih =>
    have plain : L.Straight instr := straight instr (by simp)
    have shift : k + 1 + part.length = k + (instr :: part).length := by
      simp only [List.length_cons]
      omega
    have others : ∀ other ∈ part, L.Straight other :=
      fun other member => straight other (List.mem_cons_of_mem _ member)
    rw [closes_step placed.head fun _ _ _ acts => by cases plain _ _ _ _ _ acts]
    constructor
    · rintro ⟨count', flow, s₁, pc₁, rfl, ⟨events, acts⟩, target, rest⟩
      obtain rfl := plain _ _ _ _ _ acts
      obtain rfl : k + 1 = _ := Option.some.inj target
      obtain ⟨s₂, flow, count'', rfl, final⟩ := (ih placed.tail others).1 rest
      rw [shift] at final
      exact ⟨s₂, ⟨s₁, ⟨events, acts⟩, flow⟩, count'', rfl, final⟩
    · rintro ⟨s₂, ⟨s₁, ⟨events, acts⟩, flow⟩, count'', rfl, rest⟩
      rw [← shift] at rest
      exact ⟨count'' + part.length, .next, s₁, k + 1, rfl, ⟨events, acts⟩, rfl,
        (ih placed.tail others).2 ⟨s₂, flow, count'', rfl, rest⟩⟩

theorem target_le {flow : Flow} {next : Nat} (inside : pc < code.length)
    (goes : L.target code pc flow = some next) : next ≤ code.length := by
  cases flow with
  | next =>
    obtain rfl : pc + 1 = next := Option.some.inj goes
    exact inside
  | goto label =>
    rw [target, labelled] at goes
    split at goes
    · cases goes
    · exact Nat.le_of_lt (List.findIdx?_eq_some_iff_getElem.1 goes).1
  | leave _ => cases goes

theorem closes_end : L.Closes code count code.length s outcome s' ↔ count = 0 ∧ outcome = .fell ∧ s' = s := by
  constructor
  · rintro ⟨_, ends⟩
    cases ends with
    | halt halts =>
      cases halts with
      | fell => exact ⟨rfl, rfl, rfl⟩
      | returned at_ _ => simp at at_
    | step at_ _ _ _ => simp at at_
  · rintro ⟨rfl, rfl, rfl⟩
    exact ⟨[], .halt .fell⟩

end

end Language

end MiniC
