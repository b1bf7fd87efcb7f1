import MiniC.Proofs.Execution.Straight

namespace MiniC.Language

variable {I S : Type} (L : Language I S)

def UniqueLabels (code : List I) : Prop :=
  code.Pairwise fun first second => L.label first ≠ [] → L.label first ≠ L.label second

def marks (part : List I) : List Name :=
  (part.map L.label).filter fun label => label ≠ []

@[simp] theorem marks_nil : L.marks [] = [] := rfl

@[simp] theorem marks_append (first second : List I) :
    L.marks (first ++ second) = L.marks first ++ L.marks second := by
  simp [marks]

variable {L}

theorem labelled_of_codeAt {code part : List I} {k : Nat} {instr : I} (unique : L.UniqueLabels code)
    (placed : CodeAt code k (instr :: part)) (marked : L.label instr ≠ []) :
    L.labelled code (L.label instr) = some k := by
  obtain ⟨bound, found⟩ := List.getElem?_eq_some_iff.1 placed.head
  rw [labelled, if_neg marked, List.findIdx?_eq_some_iff_getElem]
  refine ⟨bound, by simp [found], ?_⟩
  intro j before
  have earlier : j < code.length := Nat.lt_trans before bound
  have apart := List.pairwise_iff_getElem.1 unique j k earlier bound before
  rw [found] at apart
  simp only [decide_eq_true_eq]
  intro same
  rw [same] at apart
  exact apart marked rfl

theorem uniqueLabels_iff {code : List I} : L.UniqueLabels code ↔ (L.marks code).Nodup := by
  rw [marks, List.Nodup, List.pairwise_filter, List.pairwise_map]
  apply List.Pairwise.iff
  intro first second
  simp only [decide_eq_true_eq]
  constructor
  · intro apart marked _
    exact apart marked
  · intro apart marked same
    exact apart marked (same ▸ marked) same

end MiniC.Language
